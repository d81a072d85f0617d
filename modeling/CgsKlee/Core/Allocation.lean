import CgsKlee.Core.Memory

/-!
# Allocation

`Executor::executeAlloc` allocates an object of a constant size.  For another size it picks an example, forks on it,
and allocates the example in one state; in the other one it allocates the second value of the size if there are only
two, and else returns null for huge sizes and gives up on the rest.  `MemoryManager::allocate` asks the host for memory
or takes the next slot of a preallocated space.

The array optimisations are off, so that `optimizeExpr` returns its argument.
-/

namespace CgsKlee

open Symbolic

variable {T : ExprTheory} {A : ArrayTheory T}

structure AllocatorOptions where
  deterministicAllocation : Bool := false
  nullOnZeroMalloc : Bool := false
  redzoneSize : Nat := 10

/-- `MemoryManager`: the objects that live, and the space for deterministic allocation. -/
structure MemoryManager where
  objects : List MemoryObject
  deterministicSpace : Nat
  nextFreeSlot : Nat
  spaceSize : Nat

/-- The allocation functions of the host, for the objects that live: `malloc`, which may return null, and the address
that `posix_memalign` stores if it succeeds. -/
structure HostAllocator where
  malloc (live : List MemoryObject) (size : Nat) : Nat
  posixMemalign (live : List MemoryObject) (alignment size : Nat) : Option Nat

def alignTo (value align : Nat) : Nat := (value + align - 1) % 2 ^ 64 / align * align

def isPowerOf2 (value : Nat) : Bool := value ≠ 0 && value &&& (value - 1) = 0

namespace MemoryManager

variable (opts : AllocatorOptions) (host : HostAllocator) (mm : MemoryManager)

/-- The next slot of the preallocated space; null if there is no room. -/
def takeSlot (size alignment : Nat) : Nat × MemoryManager :=
  let address := alignTo ((mm.nextFreeSlot + alignment - 1) % 2 ^ 64) alignment
  -- allocations of no bytes are handled as those of one byte
  let allocSize := max size 1
  if (address + allocSize) % 2 ^ 64 < mm.deterministicSpace + mm.spaceSize then
    (address, { mm with nextFreeSlot := (address + allocSize + opts.redzoneSize) % 2 ^ 64 })
  else (0, mm)

/-- `MemoryManager::allocate`; the size of a `MemoryObject` is an `unsigned`. -/
def allocate (size alignment : Nat) : Option MemoryObject × MemoryManager :=
  if opts.nullOnZeroMalloc && size = 0 then (none, mm)
  else if !isPowerOf2 alignment then (none, mm)
  else
    let (address, mm) :=
      if opts.deterministicAllocation then mm.takeSlot opts size alignment
      else if alignment ≤ 8 then (host.malloc mm.objects size, mm)
      -- a failure leaves the variable at zero
      else ((host.posixMemalign mm.objects alignment size).getD 0, mm)
    if address = 0 then (none, mm)
    else
      let res : MemoryObject := ⟨address, size % 2 ^ 32⟩
      (some res, { mm with objects := res :: mm.objects })

end MemoryManager

/-- The memory of a state, and the objects that its last stack frame unbinds on return. -/
structure AllocData (A : ArrayTheory T) extends MemoryData A where
  allocas : List MemoryObject

abbrev AllocState (A : ArrayTheory T) := SymState T (AllocData A)

/-- The arguments of `executeAlloc`, but for the state and the size.  An alignment of zero is the one of the
allocation site. -/
structure AllocRequest (A : ArrayTheory T) where
  isLocal : Bool
  target : Nat
  zeroMemory : Bool := false
  reallocFrom : Option (MemoryObject × ObjectState A) := none
  allocationAlignment : Nat := 0

/-- What `terminateState` reports. -/
inductive AllocReport
  | maxDepth
  | concretizedSize
deriving DecidableEq

def AllocReport.message : AllocReport → String
  | .maxDepth => "max-depth exceeded."
  | .concretizedSize => "concretized symbolic size"

/-- What allocation depends on: the target of the program, the solver, the memory manager's options, the host,
`getAllocationAlignment` of the instruction, and the array that the updates of a new object state start from. -/
structure Allocator (T : ExprTheory) (A : ArrayTheory T) where
  ctx : Context
  backend : Backend T
  options : AllocatorOptions
  host : HostAllocator
  allocationAlignment : Nat
  updatesArray (size : Nat) : Option { array : A.Array // A.size array = size }

namespace Allocator

variable (S : Allocator T A)

def toUnique (constraints : List T.Expr) (e : T.Expr) : T.Expr :=
  match T.constant? e with
  | some _ => e
  | none =>
    let value := T.const (S.backend.getValue constraints e) (T.width e)
    if S.backend.mustBeTrue constraints (T.eq e value) then value else e

/-- The loop that copies the first `count` bytes; reading may change the caches of the old object. -/
def copyBytes (old os : ObjectState A) : Nat → Option (ObjectState A × ObjectState A)
  | 0 => some (old, os)
  | count + 1 => do
    let (old, os) ← copyBytes old os count
    let (byte, old) ← old.read8 count
    let os ← os.writeAt S.ctx count byte
    some (old, os)

def bindPointer (state : AllocState A) (target address : Nat) : AllocState A :=
  { state with data := { state.data with
    toMemoryData := state.data.toMemoryData.bindLocal target (T.const address S.ctx.pointerWidth) } }

def newObjectState (mo : MemoryObject) (req : AllocRequest A) : Option (ObjectState A) :=
  let os := ObjectState.ofSize mo.size ((S.updatesArray mo.size).map (·.1))
  let os := if req.zeroMemory then os.initializeToZero else os.initializeToRandom
  match req.reallocFrom with
  | none => some os
  | some (_, old) => (S.copyBytes old os (min old.size os.size)).map (·.2)

def bindObject (state : AllocState A) (mo : MemoryObject) (os : ObjectState A) (req : AllocRequest A) : AllocState A :=
  let addressSpace := state.data.addressSpace.replace (mo, os)
  { state with data := { state.data with
    addressSpace :=
      match req.reallocFrom with
      | none => addressSpace
      | some (from', _) => addressSpace.remove from'
    allocas := if req.isLocal then mo :: state.data.allocas else state.data.allocas } }

def executeConstantAlloc (mm : MemoryManager) (state : AllocState A) (size : Nat) (req : AllocRequest A) :
    Option (MemoryManager × AllocState A) :=
  let alignment := if req.allocationAlignment = 0 then S.allocationAlignment else req.allocationAlignment
  match mm.allocate S.options S.host size alignment with
  | (none, mm) => some (mm, S.bindPointer state req.target 0)
  | (some mo, mm) =>
    (S.newObjectState mo req).map fun os => (mm, S.bindPointer (bindObject state mo os req) req.target mo.address)

/-- The loop that makes the example small; a value of `fuel` bits is halved no more than `fuel` times. -/
def smallExample (constraints : List T.Expr) (size : T.Expr) : Nat → Nat → Nat
  | 0, example' => example'
  | fuel + 1, example' =>
    if 128 < example' then
      let tmp := example' / 2
      if S.backend.mayBeTrue constraints (T.eq (T.const tmp (T.width size)) size) then
        smallExample constraints size fuel tmp
      else example'
    else example'

/-- The states that `fork` terminates. -/
def terminated (r : ForkResult T (AllocData A)) : List (AllocState A × Option AllocReport) :=
  r.terminated.map (·, some .maxDepth)

/-- The state in which the size is not the example: two values, huge sizes, or no support. -/
def executeOtherSizes (env : ForkEnv) (coin : Bool) (mm : MemoryManager) (state : AllocState A) (size : T.Expr)
    (req : AllocRequest A) : Option (MemoryManager × List (AllocState A × Option AllocReport)) :=
  let tmp := S.backend.getValue state.constraints size
  if S.backend.mustBeTrue state.constraints (T.eq (T.const tmp (T.width size)) size) then
    -- the recursive calls do not pass the alignment on
    (S.executeConstantAlloc mm state tmp { req with allocationAlignment := 0 }).map fun (mm, s) => (mm, [(s, none)])
  else do
    let hugeSize ← fork S.backend env coin state (T.ult (T.const (2 ^ 31) (T.width size)) size)
    some (mm, terminated hugeSize ++ (hugeSize.trueState.toList.map fun s => (S.bindPointer s req.target 0, none)) ++
      hugeSize.falseState.toList.map (·, some .concretizedSize))

/-- `Executor::executeAlloc`: the states it leaves, those it terminated with the report. -/
def executeAlloc (env : Nat → ForkEnv) (coin : Nat → Bool) (mm : MemoryManager) (state : AllocState A)
    (size : T.Expr) (req : AllocRequest A) :
    Option (MemoryManager × List (AllocState A × Option AllocReport)) :=
  let size := S.toUnique state.constraints size
  match T.constant? size with
  | some value => (S.executeConstantAlloc mm state value req).map fun (mm, s) => (mm, [(s, none)])
  | none => do
    let value := S.smallExample state.constraints size (T.width size) (S.backend.getValue state.constraints size)
    let fixedSize ← fork S.backend (env 0) (coin 0) state (T.eq (T.const value (T.width size)) size)
    let (mm, others) ←
      fixedSize.falseState.elim (some (mm, [])) (S.executeOtherSizes (env 1) (coin 1) mm · size req)
    match fixedSize.trueState with
    | none => some (mm, terminated fixedSize ++ others)
    | some s => do
      let (mm, s) ← S.executeConstantAlloc mm s value { req with allocationAlignment := 0 }
      some (mm, terminated fixedSize ++ others ++ [(s, none)])

end Allocator

end CgsKlee
