import CgsKlee.Core.ObjectAccess
import CgsKlee.Lib.Loops
import Mathlib.Data.List.Forall2

/-!
# Runs of object states refine byte arrays

A program creates objects, initializes and copies them, and reads and writes them in any order.  `ObjectOp.step` runs
one operation on the object states, `ObjectOp.stepBytes` runs it on plain byte arrays under a model.  As long as the
accesses are in bounds in that model, the object states never fail, and every read has the value that the read of the
byte array has.
-/

namespace CgsKlee

open Symbolic FlatMemory

variable {T : ExprTheory} {A : ArrayTheory T}

/-- An operation on a list of objects; an object is named by its position. -/
inductive ObjectOp (A : ArrayTheory T)
  /-- A new object with concrete contents; the array is there if `UseConstantArrays` is not set. -/
  | create (size : Nat) (array : Option A.Array)
  /-- A new object with symbolic contents. -/
  | createSymbolic (size : Nat) (array : A.Array)
  | copy (object : Nat)
  | initializeToZero (object : Nat)
  | initializeToRandom (object : Nat)
  | readAt (object offset width : Nat)
  | read (object : Nat) (offset : T.Expr) (width : Nat)
  | writeAt (object offset : Nat) (value : T.Expr)
  | write (object : Nat) (offset value : T.Expr)

namespace ObjectOp

def change (objects : List (ObjectState A)) (object : Nat) (f : ObjectState A → Option (ObjectState A)) :
    Option (List (ObjectState A) × List T.Expr) := do
  let os ← objects[object]?
  let os ← f os
  some (objects.set object os, [])

def readFrom (objects : List (ObjectState A)) (object : Nat)
    (f : ObjectState A → Option (T.Expr × ObjectState A)) : Option (List (ObjectState A) × List T.Expr) := do
  let os ← objects[object]?
  let (e, os) ← f os
  some (objects.set object os, [e])

def step (ctx : Context) (objects : List (ObjectState A)) : ObjectOp A → Option (List (ObjectState A) × List T.Expr)
  | .create size array => some (objects ++ [.ofSize size array], [])
  | .createSymbolic size array => do
    let os ← ObjectState.ofArray size array
    some (objects ++ [os], [])
  | .copy object => do
    let os ← objects[object]?
    let copied ← os.copy
    some (objects ++ [copied], [])
  | .initializeToZero object => change objects object fun os => some os.initializeToZero
  | .initializeToRandom object => change objects object fun os => some os.initializeToRandom
  | .readAt object offset width => readFrom objects object fun os => os.readAt ctx offset width
  | .read object offset width => readFrom objects object fun os => os.read ctx offset width
  | .writeAt object offset value => change objects object fun os => os.writeAt ctx offset value
  | .write object offset value => change objects object fun os => os.write ctx offset value

def run (ctx : Context) : List (ObjectState A) → List (ObjectOp A) → Option (List (ObjectState A) × List T.Expr)
  | objects, [] => some (objects, [])
  | objects, op :: ops => do
    let (objects, reads) ← op.step ctx objects
    let (objects, reads') ← run ctx objects ops
    some (objects, reads ++ reads')

/-- The same operation on plain byte arrays under the model `m`, with the values that it reads. -/
def stepBytes (ctx : Context) (m : T.Model) (arrays : List (List Nat)) : ObjectOp A → List (List Nat) × List Nat
  | .create size _ => (arrays ++ [List.replicate size 0], [])
  | .createSymbolic size array => (arrays ++ [(List.range size).map (A.byte m array)], [])
  | .copy object => (arrays ++ [arrays.getD object []], [])
  | .initializeToZero object => (arrays.modify object fun bytes => List.replicate bytes.length 0, [])
  | .initializeToRandom object => (arrays.modify object fun bytes => List.replicate bytes.length 0xAB, [])
  | .readAt object offset width => (arrays, [load ctx.isLittleEndian (arrays.getD object []) offset width])
  | .read object offset width =>
    (arrays, [load ctx.isLittleEndian (arrays.getD object []) (T.eval m offset) width])
  | .writeAt object offset value =>
    (arrays.modify object fun bytes => store ctx.isLittleEndian bytes offset (T.width value) (T.eval m value), [])
  | .write object offset value =>
    (arrays.modify object fun bytes =>
      store ctx.isLittleEndian bytes (T.eval m offset) (T.width value) (T.eval m value), [])

def runBytes (ctx : Context) (m : T.Model) : List (List Nat) → List (ObjectOp A) → List (List Nat) × List Nat
  | arrays, [] => (arrays, [])
  | arrays, op :: ops =>
    let (arrays, reads) := op.stepBytes ctx m arrays
    let (arrays, reads') := runBytes ctx m arrays ops
    (arrays, reads ++ reads')

def InBounds (arrays : List (List Nat)) (object offset width : Nat) : Prop :=
  ByteSized width ∧ ∃ bytes, arrays[object]? = some bytes ∧ offset + bytesForWidth width ≤ bytes.length

/-- The operation is on an object that there is, and in its bounds; sizes are `unsigned`, and the array that a new
object is built on has its size. -/
def Allowed (m : T.Model) (arrays : List (List Nat)) : ObjectOp A → Prop
  | .create size array => size < 2 ^ 32 ∧ ∀ a ∈ array, A.size a = size
  | .createSymbolic size array => size < 2 ^ 32 ∧ A.size array = size
  | .copy object | .initializeToZero object | .initializeToRandom object => object < arrays.length
  | .readAt object offset width => InBounds arrays object offset width
  | .read object offset width => InBounds arrays object (T.eval m offset) width
  | .writeAt object offset value => InBounds arrays object offset (T.width value)
  | .write object offset value => InBounds arrays object (T.eval m offset) (T.width value)

def AllAllowed (ctx : Context) (m : T.Model) : List (List Nat) → List (ObjectOp A) → Prop
  | _, [] => True
  | arrays, op :: ops => op.Allowed m arrays ∧ AllAllowed ctx m (op.stepBytes ctx m arrays).1 ops

/-- An object state stands for a byte array. -/
structure Stands (m : T.Model) (os : ObjectState A) (bytes : List Nat) : Prop where
  coherent : os.Coherent
  readOnly : os.readOnly = false
  bytes : os.bytes m = bytes

variable {m : T.Model} {objects : List (ObjectState A)} {arrays : List (List Nat)}

variable {bytes : List Nat} {os : ObjectState A} {object : Nat}

theorem Stands.size (h : Stands m os bytes) : os.size = bytes.length := by
  rw [← h.bytes, ObjectState.length_bytes]

theorem exists_stands (h : List.Forall₂ (Stands m) objects arrays) (hlt : object < arrays.length) :
    ∃ os bytes, objects[object]? = some os ∧ arrays[object]? = some bytes ∧ Stands m os bytes := by
  have hlt' : object < objects.length := by rwa [h.length_eq]
  refine ⟨objects[object], arrays[object], List.getElem?_eq_getElem hlt', List.getElem?_eq_getElem hlt, ?_⟩
  exact h.get hlt' hlt

theorem stands_append (h : List.Forall₂ (Stands m) objects arrays)
    (hs : Stands m os bytes) : List.Forall₂ (Stands m) (objects ++ [os]) (arrays ++ [bytes]) :=
  List.rel_append h (.cons hs .nil)

theorem stands_set (h : List.Forall₂ (Stands m) objects arrays) (object : Nat)
    (hs : Stands m os bytes) : List.Forall₂ (Stands m) (objects.set object os) (arrays.set object bytes) := by
  induction h generalizing object with
  | nil => exact .nil
  | cons hd htl ih =>
    cases object with
    | zero => exact .cons hs htl
    | succ object => exact .cons hd (ih object)

def Refines (m : T.Model) (result : Option (List (ObjectState A) × List T.Expr))
    (bytes : List (List Nat) × List Nat) : Prop :=
  ∃ objects reads, result = some (objects, reads) ∧ List.Forall₂ (Stands m) objects bytes.1 ∧
    reads.map (T.eval m) = bytes.2

theorem change_refines (h : List.Forall₂ (Stands m) objects arrays) (hlt : object < arrays.length)
    {f : ObjectState A → Option (ObjectState A)} {g : List Nat → List Nat}
    (hf : ∀ os bytes, arrays[object]? = some bytes → Stands m os bytes →
      ∃ os', f os = some os' ∧ os.Keeps os' ∧ os'.bytes m = g bytes) :
    Refines m (change objects object f) (arrays.modify object g, []) := by
  obtain ⟨os, bytes, hos, hbytes, hs⟩ := exists_stands h hlt
  obtain ⟨os', heq, hk, hv⟩ := hf os bytes hbytes hs
  refine ⟨objects.set object os', [], ?_, ?_, rfl⟩
  · simp [change, hos, heq]
  · have hmod : arrays.modify object g = arrays.set object (g bytes) := by
      rw [List.modify_eq_set_getElem?, hbytes]
      rfl
    simp only [hmod]
    exact stands_set h object ⟨hk.coherent, hk.readOnly.trans hs.readOnly, hv⟩

theorem readFrom_refines (h : List.Forall₂ (Stands m) objects arrays) (hlt : object < arrays.length)
    {f : ObjectState A → Option (T.Expr × ObjectState A)} {v : List Nat → Nat}
    (hf : ∀ os bytes, arrays[object]? = some bytes → Stands m os bytes →
      ∃ e os', f os = some (e, os') ∧ os.Reads os' ∧ T.eval m e = v bytes) :
    Refines m (readFrom objects object f) (arrays, [v (arrays.getD object [])]) := by
  obtain ⟨os, bytes, hos, hbytes, hs⟩ := exists_stands h hlt
  obtain ⟨e, os', heq, hr, hv⟩ := hf os bytes hbytes hs
  refine ⟨objects.set object os', [e], ?_, ?_, ?_⟩
  · simp [readFrom, hos, heq]
  · have hset : arrays.set object bytes = arrays := by
      obtain ⟨_, hget⟩ := List.getElem?_eq_some_iff.1 hbytes
      rw [← hget, List.set_getElem_self]
    have hst : Stands m os' bytes :=
      ⟨hr.coherent, hr.readOnly.trans hs.readOnly, (hr.bytes m).trans hs.bytes⟩
    have hset' := stands_set h object hst
    rwa [hset] at hset'
  · rw [List.getD_eq_getElem?_getD, hbytes, List.map_singleton, hv]
    rfl

theorem InBounds.lt_length {offset width : Nat} (h : InBounds arrays object offset width) :
    object < arrays.length := by
  obtain ⟨-, bytes, hbytes, -⟩ := h
  exact (List.getElem?_eq_some_iff.1 hbytes).1

theorem InBounds.le_size {offset width : Nat} (h : InBounds arrays object offset width) (hbytes : arrays[object]? = some bytes) (hs : Stands m os bytes) :
    offset + bytesForWidth width ≤ os.size := by
  obtain ⟨-, bytes', hbytes', hle⟩ := h
  rw [hbytes] at hbytes'
  rwa [hs.size, Option.some.inj hbytes']

theorem step_refines (ctx : Context) (h : List.Forall₂ (Stands m) objects arrays) {op : ObjectOp A}
    (ha : op.Allowed m arrays) : Refines m (op.step ctx objects) (op.stepBytes ctx m arrays) := by
  cases op with
  | create size array =>
    obtain ⟨hs, harr⟩ := ha
    refine ⟨_, [], rfl, stands_append h ⟨ObjectState.ofSize_coherent hs harr, rfl, ?_⟩, rfl⟩
    exact ObjectState.bytes_ofSize size array m
  | createSymbolic size array =>
    obtain ⟨os, heq, hc, -, hro, hb⟩ := ObjectState.ofArray_spec ha.1 ha.2
    exact ⟨_, [], by simp [step, heq], stands_append h ⟨hc, hro, hb m⟩, rfl⟩
  | copy object =>
    obtain ⟨os, bytes, hos, hbytes, hs⟩ := exists_stands h ha
    have hcopy : os.copy = some os := by
      have hro := hs.readOnly
      unfold ObjectState.copy
      cases os
      simp_all
    refine ⟨objects ++ [os], [], by simp [step, hos, hcopy], ?_, rfl⟩
    simp only [stepBytes, List.getD_eq_getElem?_getD, hbytes, Option.getD_some]
    exact stands_append h hs
  | initializeToZero object =>
    apply change_refines h ha
    intro os bytes _ hs
    obtain ⟨hk, hv⟩ := ObjectState.initializeToZero_spec hs.coherent
    exact ⟨_, rfl, hk, by rw [hv, hs.size]⟩
  | initializeToRandom object =>
    apply change_refines h ha
    intro os bytes _ hs
    obtain ⟨hk, hv⟩ := ObjectState.initializeToRandom_spec hs.coherent
    exact ⟨_, rfl, hk, by rw [hv, hs.size]⟩
  | readAt object offset width =>
    apply readFrom_refines h (InBounds.lt_length ha)
      (v := fun bytes => load ctx.isLittleEndian bytes offset width)
    intro os bytes hbytes hs
    obtain ⟨e, os', heq, hr, -, hv⟩ := ObjectState.readAt_spec ctx hs.coherent ha.1 (ha.le_size hbytes hs)
    exact ⟨e, os', heq, hr, by rw [hv, hs.bytes]⟩
  | read object offset width =>
    apply readFrom_refines h (InBounds.lt_length ha)
      (v := fun bytes => load ctx.isLittleEndian bytes (T.eval m offset) width)
    intro os bytes hbytes hs
    have hin := ha.le_size hbytes hs
    obtain ⟨e, os', heq, hr, -, hv⟩ := ObjectState.read_spec ctx hs.coherent ha.1 ⟨m, hin⟩
    exact ⟨e, os', heq, hr, by rw [hv m hin, hs.bytes]⟩
  | writeAt object offset value =>
    apply change_refines h (InBounds.lt_length ha)
    intro os bytes _ hs
    obtain ⟨os', heq, hk, hv⟩ := ObjectState.writeAt_spec ctx hs.coherent offset ha.1
    exact ⟨os', heq, hk, by rw [hv, hs.bytes]⟩
  | write object offset value =>
    apply change_refines h (InBounds.lt_length ha)
    intro os bytes hbytes hs
    have hin := ha.le_size hbytes hs
    obtain ⟨os', heq, hk, hv⟩ := ObjectState.write_spec ctx hs.coherent ha.1 ⟨m, hin⟩
    exact ⟨os', heq, hk, by rw [hv m hin, hs.bytes]⟩

def CacheInvariants (os : ObjectState A) : Prop :=
  ∀ i < os.size, ((os.knownSymbolic i).isSome → os.isByteConcrete i = false) ∧
    (os.isByteConcrete i = true → os.knownSymbolic i = none) ∧
    (os.isByteUnflushed i = true → os.isByteConcrete i = true ∨ (os.knownSymbolic i).isSome)

theorem cacheInvariants_of_coherent (h : os.Coherent) : CacheInvariants os := by
  intro i hi
  have hb := h.byte i hi
  refine ⟨fun hk => ?_, hb.exclusive, hb.cached⟩
  cases hc : os.isByteConcrete i with
  | false => rfl
  | true => simp [hb.exclusive hc] at hk

theorem run_refines (ctx : Context) (h : List.Forall₂ (Stands m) objects arrays) {ops : List (ObjectOp A)}
    (ha : AllAllowed ctx m arrays ops) : Refines m (run ctx objects ops) (runBytes ctx m arrays ops) := by
  induction ops generalizing objects arrays with
  | nil => exact ⟨objects, [], rfl, h, rfl⟩
  | cons op ops ih =>
    obtain ⟨objects₁, reads₁, h₁, hs₁, hr₁⟩ := step_refines ctx h ha.1
    obtain ⟨objects₂, reads₂, h₂, hs₂, hr₂⟩ := ih hs₁ ha.2
    refine ⟨objects₂, reads₁ ++ reads₂, by simp [run, h₁, h₂], hs₂, ?_⟩
    rw [List.map_append, hr₁, hr₂]
    rfl

/-- In any sequence of operations that are in bounds under a model, no assertion fails, every read has the value that
the plain byte array has, and the documented cache invariants hold of all objects. -/
theorem objectStates_refine_bytes (ctx : Context) (m : T.Model) (ops : List (ObjectOp A))
    (ha : AllAllowed ctx m [] ops) :
    ∃ objects reads, run ctx [] ops = some (objects, reads) ∧
      reads.map (T.eval m) = (runBytes ctx m [] ops).2 ∧
      objects.map (·.bytes m) = (runBytes ctx m [] ops).1 ∧ ∀ os ∈ objects, CacheInvariants os := by
  obtain ⟨objects, reads, heq, hs, hr⟩ := run_refines ctx (m := m) .nil ha
  refine ⟨objects, reads, heq, hr, ?_, ?_⟩
  · rw [Loops.map_eq_of_forall₂ (g := id) (hs.imp fun _ _ h => h.bytes), List.map_id]
  · intro os hos
    obtain ⟨_, -, hst⟩ := Loops.exists_of_forall₂ hs.flip hos
    exact cacheInvariants_of_coherent hst.coherent

/-- The offset 0 in one model, and 1 in the other. -/
def eitherByte : (shallow 1).Expr := ⟨32, fun m => BitVec.ofNat 32 m⟩

/-- An object is written at a symbolic offset and copied, and the copy is read after the original has been cleared. -/
def writeCopyRead : List (ObjectOp (shallowArrays 1)) :=
  [.create 2 none, .write 0 eitherByte ((shallow 1).const 7 8), .copy 0, .initializeToRandom 0,
    .read 1 eitherByte 8, .readAt 0 0 16]

theorem objectStates_refine_bytes_copy :
    ∃ objects reads, run ⟨64, true, by decide⟩ [] writeCopyRead = some (objects, reads) ∧
      reads.map ((shallow 1).eval (1 : Fin 2)) = [7, 0xABAB] ∧
      objects.map (·.bytes (1 : Fin 2)) = [[0xAB, 0xAB], [0, 7]] ∧
      ∀ os ∈ objects, CacheInvariants os := by
  obtain ⟨objects, reads, heq, hr, hb, hc⟩ := objectStates_refine_bytes (A := shallowArrays 1) ⟨64, true, by decide⟩
    (1 : Fin 2) writeCopyRead ⟨⟨by decide, by simp⟩, ⟨.inr ⟨1, by decide, rfl⟩, [0, 0], rfl, by decide⟩,
      show 0 < 1 by decide, show 0 < 2 by decide, ⟨.inr ⟨1, by decide, rfl⟩, [0, 7], by decide, by decide⟩,
      ⟨.inr ⟨2, by decide, rfl⟩, [0xAB, 0xAB], by decide, by decide⟩, trivial⟩
  exact ⟨objects, reads, heq, hr.trans (by decide), hb.trans (by decide), hc⟩

end ObjectOp

end CgsKlee
