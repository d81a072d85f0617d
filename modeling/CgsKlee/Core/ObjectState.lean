import CgsKlee.Lib.Symbolic
import CgsKlee.Lib.FlatMemory
import Mathlib.Logic.Function.Basic

/-!
# The contents of a memory object

An `ObjectState` keeps the bytes of an object in three places: a concrete store, an array of expressions and a list of
updates of an array.  Masks say which place holds a byte, and whether the update list knows it yet.  A read at a
symbolic offset flushes the caches, so that reads return the object as well.  A failed assertion is `none`.
-/

namespace CgsKlee

open Symbolic FlatMemory

/-- The target of the program: `Context::get()`. -/
structure Context where
  pointerWidth : Nat
  isLittleEndian : Bool
  pointerWidth_ge : 32 ≤ pointerWidth

variable {T : ExprTheory} {A : ArrayTheory T}

/-- `UpdateList`; `head` holds the writes, the last one first. -/
structure UpdateList (A : ArrayTheory T) where
  root : Option A.Array
  head : List (T.Expr × T.Expr)

/-- `UpdateList::extend`; arrays have a 32-bit domain and an 8-bit range. -/
def UpdateList.extend (ul : UpdateList A) (index value : T.Expr) : Option (UpdateList A) :=
  if ul.root.isSome ∧ ¬(T.width index = 32 ∧ T.width value = 8) then none
  else some { ul with head := (index, value) :: ul.head }

/-- `ObjectState`.  A mask or array that has not been allocated is `none`. -/
structure ObjectState (A : ArrayTheory T) where
  concreteStore : Nat → Nat
  concreteMask : Option (Nat → Bool)
  knownSymbolics : Option (Nat → Option T.Expr)
  unflushedMask : Option (Nat → Bool)
  updates : UpdateList A
  size : Nat
  readOnly : Bool

namespace ObjectState

/-- The constructor for concrete contents, which are zero; `array` is the symbolic array that the updates start from
if `UseConstantArrays` is not set. -/
def ofSize (size : Nat) (array : Option A.Array) : ObjectState A where
  concreteStore _ := 0
  concreteMask := none
  knownSymbolics := none
  unflushedMask := none
  updates := ⟨array, []⟩
  size := size
  readOnly := false

def isByteConcrete (os : ObjectState A) (offset : Nat) : Bool := os.concreteMask.elim true (· offset)

def isByteUnflushed (os : ObjectState A) (offset : Nat) : Bool := os.unflushedMask.elim true (· offset)

/-- `knownSymbolics[offset]`; a byte for which it is set `isByteKnownSymbolic`. -/
def knownSymbolic (os : ObjectState A) (offset : Nat) : Option T.Expr := os.knownSymbolics.bind (· offset)

def markByteConcrete (os : ObjectState A) (offset : Nat) : ObjectState A :=
  { os with concreteMask := os.concreteMask.map (Function.update · offset true) }

def markByteSymbolic (os : ObjectState A) (offset : Nat) : ObjectState A :=
  { os with concreteMask := some (Function.update (os.concreteMask.getD fun _ => true) offset false) }

def markByteUnflushed (os : ObjectState A) (offset : Nat) : ObjectState A :=
  { os with unflushedMask := os.unflushedMask.map (Function.update · offset true) }

/-- `ObjectState::markByteFlushed`; a mask that it has to allocate is clear at all bytes. -/
def markByteFlushed (os : ObjectState A) (offset : Nat) : ObjectState A :=
  match os.unflushedMask with
  | some mask => { os with unflushedMask := some (Function.update mask offset false) }
  | none => { os with unflushedMask := some fun _ => false }

def setKnownSymbolic (os : ObjectState A) (offset : Nat) (value : Option T.Expr) : ObjectState A :=
  match os.knownSymbolics with
  | some known => { os with knownSymbolics := some (Function.update known offset value) }
  | none =>
    if value.isSome then { os with knownSymbolics := some (Function.update (fun _ => none) offset value) } else os

def makeConcrete (os : ObjectState A) : ObjectState A :=
  { os with concreteMask := none, unflushedMask := none, knownSymbolics := none }

def makeByteSymbolic (os : ObjectState A) (offset : Nat) : ObjectState A :=
  ((os.markByteSymbolic offset).setKnownSymbolic offset none).markByteFlushed offset

def makeSymbolic (os : ObjectState A) : Option (ObjectState A) :=
  -- assert: makeSymbolic of objects with symbolic values is unsupported
  if os.updates.head.isEmpty then some ((List.range os.size).foldl makeByteSymbolic os) else none

/-- The constructor for symbolic contents. -/
def ofArray (size : Nat) (array : A.Array) : Option (ObjectState A) := (ofSize size (some array)).makeSymbolic

/-- The copy constructor.  The expressions and the update list are shared, all masks are duplicated. -/
def copy (os : ObjectState A) : Option (ObjectState A) :=
  -- assert: no need to copy read only object
  if os.readOnly then none else some { os with readOnly := false }

def initializeToZero (os : ObjectState A) : ObjectState A :=
  { os.makeConcrete with concreteStore := fun _ => 0 }

/-- `ObjectState::initializeToRandom`; the byte was selected by a die with 256 sides. -/
def initializeToRandom (os : ObjectState A) : ObjectState A :=
  { os.makeConcrete with concreteStore := fun _ => 0xAB }

/-- The mask that both flushes allocate first. -/
def allocateUnflushedMask (os : ObjectState A) : ObjectState A :=
  { os with unflushedMask := some (os.unflushedMask.getD fun _ => true) }

def unsetUnflushed (os : ObjectState A) (offset : Nat) : ObjectState A :=
  { os with unflushedMask := os.unflushedMask.map (Function.update · offset false) }

def extendUpdates (os : ObjectState A) (offset : Nat) (value : T.Expr) : Option (ObjectState A) :=
  (os.updates.extend (T.const offset 32) value).map fun updates => { os with updates }

def flushByteForRead (os : ObjectState A) (offset : Nat) : Option (ObjectState A) :=
  if os.isByteUnflushed offset then do
    let os ←
      if os.isByteConcrete offset then os.extendUpdates offset (T.const (os.concreteStore offset) 8)
      else
        match os.knownSymbolic offset with
        | some e => os.extendUpdates offset e
        -- assert: invalid bit set in unflushedMask
        | none => none
    some (os.unsetUnflushed offset)
  else some os

def flushRangeForRead (os : ObjectState A) (rangeBase rangeSize : Nat) : Option (ObjectState A) :=
  (List.range' rangeBase rangeSize).foldlM flushByteForRead os.allocateUnflushedMask

def flushByteForWrite (os : ObjectState A) (offset : Nat) : Option (ObjectState A) :=
  if os.isByteUnflushed offset then do
    let os ←
      if os.isByteConcrete offset then do
        let os ← os.extendUpdates offset (T.const (os.concreteStore offset) 8)
        some (os.markByteSymbolic offset)
      else
        match os.knownSymbolic offset with
        | some e => do
          let os ← os.extendUpdates offset e
          some (os.setKnownSymbolic offset none)
        | none => none
    some (os.unsetUnflushed offset)
  else if os.isByteConcrete offset then some (os.markByteSymbolic offset)
  else if (os.knownSymbolic offset).isSome then some (os.setKnownSymbolic offset none)
  else some os

def flushRangeForWrite (os : ObjectState A) (rangeBase rangeSize : Nat) : Option (ObjectState A) :=
  (List.range' rangeBase rangeSize).foldlM flushByteForWrite os.allocateUnflushedMask

/-- The loop of `ObjectState::getUpdates` that pulls concrete writes, the oldest first, into the contents of a
constant array.  `Contents[Index]` has to be in range. -/
def pullConcreteWrites (contents : List Nat) : List (T.Expr × T.Expr) → Option (List Nat × List (T.Expr × T.Expr))
  | [] => some (contents, [])
  | (index, value) :: writes =>
    match T.constant? index, T.constant? value with
    | some i, some v => if i < contents.length then pullConcreteWrites (contents.set i v) writes else none
    | _, _ => some (contents, (index, value) :: writes)

/-- `ObjectState::getUpdates`: the root array, and the object that remembers it.  A constant array is created
lazily. -/
def getUpdates (os : ObjectState A) : Option (A.Array × ObjectState A) :=
  match os.updates.root with
  | some root => some (root, os)
  | none => do
    let (contents, writes) ← pullConcreteWrites (List.replicate os.size 0) os.updates.head.reverse
    let array := A.constArray contents
    some (array, { os with updates := ⟨some array, writes.reverse⟩ })

/-- `ReadExpr::create(getUpdates(), index)`. -/
def readUpdates (os : ObjectState A) (index : T.Expr) : Option (T.Expr × ObjectState A) :=
  os.getUpdates.map fun (root, os) => (A.read root os.updates.head index, os)

def read8 (os : ObjectState A) (offset : Nat) : Option (T.Expr × ObjectState A) :=
  if os.isByteConcrete offset then some (T.const (os.concreteStore offset) 8, os)
  else
    match os.knownSymbolic offset with
    | some e => some (e, os)
    -- assert: unflushed byte without cache value
    | none => if os.isByteUnflushed offset then none else os.readUpdates (T.const offset 32)

/-- `ObjectState::read8(ref<Expr>)`; `fastRangeCheckOffset` answers with the whole object. -/
def read8Symbolic (os : ObjectState A) (offset : T.Expr) : Option (T.Expr × ObjectState A) :=
  -- assert: constant offset passed to symbolic read8
  if (T.constant? offset).isSome then none
  else do
    let os ← os.flushRangeForRead 0 os.size
    os.readUpdates (T.zext offset 32)

def write8Concrete (os : ObjectState A) (offset value : Nat) : ObjectState A :=
  { os with concreteStore := Function.update os.concreteStore offset (value % 256) }
    |>.setKnownSymbolic offset none |>.markByteConcrete offset |>.markByteUnflushed offset

def write8 (os : ObjectState A) (offset : Nat) (value : T.Expr) : ObjectState A :=
  match T.constant? value with
  | some v => os.write8Concrete offset v
  | none => os.setKnownSymbolic offset (some value) |>.markByteSymbolic offset |>.markByteUnflushed offset

/-- `ObjectState::write8(ref<Expr>, ref<Expr>)`. -/
def write8Symbolic (os : ObjectState A) (offset value : T.Expr) : Option (ObjectState A) :=
  if (T.constant? offset).isSome then none
  else do
    let os ← os.flushRangeForWrite 0 os.size
    (os.updates.extend (T.zext offset 32) value).map fun updates => { os with updates }

/-- The loop of `ObjectState::read` over the bytes: `Res` after `n` of them.  There is no `Res` after none. -/
def readBytes (byteAt : ObjectState A → Nat → Option (T.Expr × ObjectState A)) :
    Nat → ObjectState A → Option (T.Expr × ObjectState A)
  | 0, _ => none
  | 1, os => byteAt os 0
  | n + 2, os => do
    let (res, os) ← readBytes byteAt (n + 1) os
    let (byte, os) ← byteAt os (n + 1)
    some (T.concat byte res, os)

/-- The two `ObjectState::read` agree up to the way they read a byte. -/
def readWidth (byteAt : ObjectState A → Nat → Option (T.Expr × ObjectState A)) (ctx : Context) (os : ObjectState A)
    (width : Nat) : Option (T.Expr × ObjectState A) :=
  -- bool is the only non-byte sized access that is allowed
  if width = 1 then (byteAt os 0).map fun (byte, os) => (T.extract byte 0 1, os)
  else
    let numBytes := width / 8
    -- assert: invalid read size
    if width = numBytes * 8 then
      readBytes (fun os i => byteAt os (byteIndex ctx.isLittleEndian numBytes i)) numBytes os
    else none

def readAt (ctx : Context) (os : ObjectState A) (offset width : Nat) : Option (T.Expr × ObjectState A) :=
  readWidth (fun os i => os.read8 (offset + i)) ctx os width

def offsetExpr (offset : T.Expr) (width i : Nat) : T.Expr :=
  if width = 1 then offset else T.add offset (T.const i 32)

def read (ctx : Context) (os : ObjectState A) (offset : T.Expr) (width : Nat) : Option (T.Expr × ObjectState A) :=
  let offset := T.zext offset 32
  match T.constant? offset with
  | some v => os.readAt ctx v width
  | none => readWidth (fun os i => os.read8Symbolic (offsetExpr offset width i)) ctx os width

def writeBytes (writeByte : ObjectState A → Nat → Option (ObjectState A)) :
    Nat → ObjectState A → Option (ObjectState A)
  | 0, os => some os
  | n + 1, os => do
    let os ← writeBytes writeByte n os
    writeByte os n

/-- `ObjectState::write16`, `write32` and `write64`, which write two, four and eight bytes. -/
def writeConcrete (ctx : Context) (numBytes : Nat) (os : ObjectState A) (offset value : Nat) : Option (ObjectState A) :=
  writeBytes (fun os i =>
    some (os.write8Concrete (offset + byteIndex ctx.isLittleEndian numBytes i) (byteOf value i))) numBytes os

def writeWidth (writeByte : ObjectState A → Nat → T.Expr → Option (ObjectState A)) (ctx : Context)
    (os : ObjectState A) (value : T.Expr) : Option (ObjectState A) :=
  let w := T.width value
  if w = 1 then writeByte os 0 (T.zext value 8)
  else
    let numBytes := w / 8
    -- assert: invalid write size
    if w = numBytes * 8 then
      writeBytes (fun os i => writeByte os (byteIndex ctx.isLittleEndian numBytes i) (T.extract value (8 * i) 8))
        numBytes os
    else none

/-- `ObjectState::write(unsigned, ref<Expr>)`; the other powers of two up to 64 fail an assertion. -/
def writeAt (ctx : Context) (os : ObjectState A) (offset : Nat) (value : T.Expr) : Option (ObjectState A) :=
  match T.constant? value, T.width value with
  | some v, 1 => some (os.write8Concrete offset v)
  | some _, 2 => none
  | some _, 4 => none
  | some v, 8 => some (os.write8Concrete offset v)
  | some v, 16 => writeConcrete ctx 2 os offset v
  | some v, 32 => writeConcrete ctx 4 os offset v
  | some v, 64 => writeConcrete ctx 8 os offset v
  | _, _ => writeWidth (fun os i value => some (os.write8 (offset + i) value)) ctx os value

def write (ctx : Context) (os : ObjectState A) (offset value : T.Expr) : Option (ObjectState A) :=
  let offset := T.zext offset 32
  match T.constant? offset with
  | some v => os.writeAt ctx v value
  | none =>
    writeWidth (fun os i byte => os.write8Symbolic (offsetExpr offset (T.width value) i) byte) ctx os value

end ObjectState

end CgsKlee
