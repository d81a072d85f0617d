import CgsKlee.Core.CopyOnWrite
import CgsKlee.Core.ObjectAccess
import CgsKlee.Expr.Theory
import CgsKlee.Expr.ConstraintsAgree
import Mathlib.Data.List.Dedup

/-!
# Merging two states

`ExecutionState::merge` joins a state with another one that is at the same instruction.  The constraints that both have
are kept, and the rest of each is joined to a condition, `inA` and `inB`; registers and bytes in which the states
differ become a select on `inA`.  States that do not fit each other are left as they are.

The expressions are those of `exprTheory`, and the address spaces share their object states as in `CowConfig`.  Sets of
expressions and of memory objects are ordered; the orders are parameters, as nothing depends on them.
-/

namespace CgsKlee

open ConstraintManager

/-- `StackFrame`: the instruction that has called the function, the function and a cell for each of its registers. -/
structure StackFrame where
  caller : Nat
  kf : Nat
  locals : List (Option Expr)

/-- `ExecutionState`, with the position of its address space.  `symbolics` are memory objects with their arrays. -/
structure ExecutionState where
  pc : Nat
  symbolics : List (Nat × Nat)
  stack : List StackFrame
  constraints : ConstraintSet
  space : Nat

namespace ExecutionState

def sameFrames : List StackFrame → List StackFrame → Bool
  | [], [] => true
  | af :: as, bf :: bs => af.caller = bf.caller && af.kf = bf.kf && sameFrames as bs
  | _, _ => false

/-- The loop over the objects of both states: the memory objects with different object states, or nothing if the
states do not have the same memory objects. -/
def mutatedObjects : List (MemoryObject × Nat) → List (MemoryObject × Nat) → Option (List MemoryObject)
  | [], [] => some []
  | (mo, os) :: as, (mo', os') :: bs =>
    if mo = mo' then (mutatedObjects as bs).map fun mutated => if os = os' then mutated else mo :: mutated
    else none
  | _, _ => none

def constraintSet (le : Expr → Expr → Bool) (C : ConstraintSet) : List Expr := C.dedup.mergeSort le

def commonConstraints (le : Expr → Expr → Bool) (A B : ConstraintSet) : List Expr :=
  (constraintSet le A).filter (· ∈ constraintSet le B)

def suffix (le : Expr → Expr → Bool) (A B : ConstraintSet) : List Expr :=
  (constraintSet le A).filter (· ∉ commonConstraints le A B)

/-- `inA` and `inB`: the conjunction of the constraints that the other state does not have. -/
def conjunction (suffix : List Expr) : Option Expr := suffix.foldlM AndExpr.create (.ofBool true)

def mergeLocals (inA : Expr) : List (Option Expr) → List (Option Expr) → Option (List (Option Expr))
  | some av :: as, some bv :: bs => do
    let v ← SelectExpr.create false inA av bv
    let vs ← mergeLocals inA as bs
    some (some v :: vs)
  -- if one is null we cannot reuse this local
  | av :: as, _ :: bs => do
    let vs ← mergeLocals inA as bs
    some (av :: vs)
  | as, _ => some as

def mergeStack (inA : Expr) : List StackFrame → List StackFrame → Option (List StackFrame)
  | af :: as, bf :: bs => do
    let locals ← mergeLocals inA af.locals bf.locals
    let frames ← mergeStack inA as bs
    some ({ af with locals } :: frames)
  | as, _ => some as

def mergeByte (ctx : Context) (inA : Expr) (objects : ObjectState exprArrays × ObjectState exprArrays) (i : Nat) :
    Option (ObjectState exprArrays × ObjectState exprArrays) := do
  let (av, wos) ← objects.1.read8 i
  let (bv, otherOS) ← objects.2.read8 i
  let v ← Term.select (.ofExpr inA) av bv
  let wos ← wos.writeAt ctx i v
  some (wos, otherOS)

def mergeObject (ctx : Context) (inA : Expr) (a b : Nat) (c : CowConfig exprArrays) (mo : MemoryObject) :
    Option (CowConfig exprArrays) := do
  let as ← c.spaces[a]?
  let bs ← c.spaces[b]?
  let os ← as.memory.findObject mo
  let otherOS ← bs.memory.findObject mo
  -- assert: objects mutated but not writable in merging state
  let (writeable, c) ← c.getWriteable a mo os
  let wos ← c.objects[writeable]?
  let other ← c.objects[otherOS]?
  let (w, o) ← (List.range mo.size).foldlM (mergeByte ctx inA) (wos.state, other.state)
  some { c with objects := (c.objects.set writeable { wos with state := w }).set otherOS { other with state := o } }

section Options

variable (ctx : Context) (useVisitorHash rewriteEqualities : Bool) (le : Expr → Expr → Bool)
  (pointerLe : MemoryObject → MemoryObject → Bool)

def mergeConstraints (common : List Expr) (inA inB : Expr) : Option ConstraintSet := do
  let constraints ← common.foldlM (addConstraint false useVisitorHash rewriteEqualities) []
  let either ← OrExpr.create inA inB
  addConstraint false useVisitorHash rewriteEqualities constraints either

/-- `ExecutionState::merge`: whether the states have been merged, and what has become of the first one. -/
def merge (c : CowConfig exprArrays) (A B : ExecutionState) : Option (Bool × ExecutionState × CowConfig exprArrays) :=
  if A.pc ≠ B.pc then some (false, A, c)
  else if A.symbolics ≠ B.symbolics then some (false, A, c)
  else if sameFrames A.stack B.stack = false then some (false, A, c)
  else do
    let as ← c.spaces[A.space]?
    let bs ← c.spaces[B.space]?
    match mutatedObjects as.memory.objects bs.memory.objects with
    | none => some (false, A, c)
    | some mutated => do
      let inA ← conjunction (suffix le A.constraints B.constraints)
      let inB ← conjunction (suffix le B.constraints A.constraints)
      let stack ← mergeStack inA A.stack B.stack
      let c ← (mutated.mergeSort pointerLe).foldlM (mergeObject ctx inA A.space B.space) c
      let constraints ← mergeConstraints useVisitorHash rewriteEqualities
        (commonConstraints le A.constraints B.constraints) inA inB
      some (true, { A with stack, constraints }, c)

end Options

end ExecutionState

end CgsKlee
