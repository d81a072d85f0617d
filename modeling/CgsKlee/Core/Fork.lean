import CgsKlee.Core.Types
import CgsKlee.Lib.Symbolic
import Mathlib.Data.Rat.Defs

/-!
# Forking

`Executor::fork` splits a state on a boolean condition, `Executor::branch` on a list of conditions, and the handler of
a symbolic `switch` computes such a list from its cases.  They are embedded as they run outside seeding and replay,
for a solver that answers.  The options and statistics that can stop a fork are `ForkEnv`, with their values at the
time of the call.
-/

namespace CgsKlee

open Symbolic

variable {T : ExprTheory} {σ : Type}

/-- The fields of an `ExecutionState` that forking reads or writes, and the rest of the state, which is copied. -/
structure SymState (T : ExprTheory) (σ : Type) where
  constraints : List T.Expr
  depth : Nat
  forkDisabled : Bool
  data : σ

/-- The options and statistics that forking depends on.  `maxForks` is `none` for `~0u`. -/
structure ForkEnv where
  maxMemoryInhibit : Bool := true
  atMemoryLimit : Bool := false
  inhibitForking : Bool := false
  maxForks : Option Nat := none
  maxDepth : Nat := 0
  maxStaticForkPct : Rat := 1
  maxStaticSolvePct : Rat := 1
  maxStaticCPForkPct : Rat := 1
  maxStaticCPSolvePct : Rat := 1
  maxStaticPctCheckDelay : Nat := 1000
  /-- `stats::forks` and `stats::solverTime`, in total and at the current instruction. -/
  forks : Nat := 0
  solverTime : Nat := 0
  forksHere : Nat := 0
  solverTimeHere : Nat := 0
  /-- The same two of the `callPathNode` of the current stack frame, if it has one. -/
  callPath : Option (Nat × Nat) := none

def ForkEnv.branchingPermitted (env : ForkEnv) (state : SymState T σ) : Bool :=
  !((env.maxMemoryInhibit && env.atMemoryLimit) || state.forkDisabled || env.inhibitForking ||
    env.maxForks.any (· ≤ env.forks))

/-- One of the `MaxStatic*Pct` limits is reached.  The limit on the solver time of the call path is guarded by
`MaxStaticCPForkPct`. -/
def ForkEnv.staticLimitReached (env : ForkEnv) : Bool :=
  !(env.maxStaticForkPct = 1 && env.maxStaticSolvePct = 1 && env.maxStaticCPForkPct = 1 &&
    env.maxStaticCPSolvePct = 1) &&
  !(env.forks < env.maxStaticPctCheckDelay) &&
  ((env.maxStaticForkPct < 1 && env.forks * env.maxStaticForkPct < env.forksHere) ||
    (env.maxStaticCPForkPct < 1 && env.callPath.any fun cp => env.forks * env.maxStaticCPForkPct < cp.1) ||
    (env.maxStaticSolvePct < 1 && env.solverTime * env.maxStaticSolvePct < env.solverTimeHere) ||
    (env.maxStaticCPForkPct < 1 && env.callPath.any fun cp => env.solverTime * env.maxStaticCPSolvePct < cp.2))

namespace SymState

/-- `Executor::addConstraint`; a constant that is not true is a fatal error. -/
def addConstraint (B : Backend T) (state : SymState T σ) (condition : T.Expr) : Option (SymState T σ) :=
  match T.constant? condition with
  | some v => if v = 1 then some state else none
  | none => some { state with constraints := B.addConstraint state.constraints condition }

/-- `ExecutionState::branch`: the copy and the original both go one deeper. -/
def branch (state : SymState T σ) : SymState T σ := { state with depth := state.depth + 1 }

def maxStaticPctChecks (B : Backend T) (env : ForkEnv) (current : SymState T σ) (condition : T.Expr) :
    Option (SymState T σ × T.Expr) :=
  if (T.constant? condition).isSome then some (current, condition)
  else if env.staticLimitReached then
    let value := T.const (B.getValue current.constraints condition) (T.width condition)
    (current.addConstraint B (T.eq value condition)).map (·, value)
  else some (current, condition)

end SymState

/-- The pair of states that `fork` returns, and the states that it terminates itself. -/
structure ForkResult (T : ExprTheory) (σ : Type) where
  trueState : Option (SymState T σ)
  falseState : Option (SymState T σ)
  terminated : List (SymState T σ) := []

/-- `Executor::fork`; `coin` is the random choice of a side when branching is not permitted. -/
def fork (B : Backend T) (env : ForkEnv) (coin : Bool) (current : SymState T σ) (condition : T.Expr) :
    Option (ForkResult T σ) := do
  let (current, condition) ← current.maxStaticPctChecks B env condition
  match B.evaluate current.constraints condition with
  | .true => some { trueState := some current, falseState := none }
  | .false => some { trueState := none, falseState := some current }
  | .unknown =>
    if !env.branchingPermitted current then
      if coin then do
        let s ← current.addConstraint B condition
        some { trueState := some s, falseState := none }
      else do
        let s ← current.addConstraint B (T.isZero condition)
        some { trueState := none, falseState := some s }
    else do
      let trueState ← current.branch.addConstraint B condition
      let falseState ← current.branch.addConstraint B (T.isZero condition)
      if env.maxDepth ≠ 0 ∧ env.maxDepth ≤ trueState.depth then
        some { trueState := none, falseState := none, terminated := [trueState, falseState] }
      else some { trueState := some trueState, falseState := some falseState }

/-- The copies of a state, each made of a random earlier one. -/
def branchCopies (rng : Nat → Nat) (state : SymState T σ) : Nat → List (SymState T σ)
  | 0 => [state]
  | n + 1 =>
    let result := branchCopies rng state n
    let i := rng (n + 1) % (n + 1)
    match result[i]? with
    | none => result
    | some es => result.set i es.branch ++ [es.branch]

/-- `Executor::branch`.  Without permission one condition is picked, and the others get no state. -/
def branch (B : Backend T) (env : ForkEnv) (rng : Nat → Nat) (state : SymState T σ) (conditions : List T.Expr) :
    Option (List (Option (SymState T σ))) :=
  if conditions = [] then none
  else
    let result :=
      if !env.branchingPermitted state then
        (List.range conditions.length).map fun i => if i = rng 0 % conditions.length then some state else none
      else (branchCopies rng state (conditions.length - 1)).map some
    (result.zip conditions).mapM fun (es, condition) =>
      match es with
      | none => some none
      | some es => (es.addConstraint B condition).map some

/-- A `switch`: the values of its cases are distinct and have the width of its condition. -/
structure SwitchInst where
  width : Nat
  cases : List (Nat × BlockID)
  defaultDest : BlockID
  nodup : (cases.map (·.1)).Nodup
  cases_lt : ∀ c ∈ cases, c.1 < 2 ^ width

def SwitchInst.successor (si : SwitchInst) (value : Nat) : BlockID :=
  ((si.cases.find? (·.1 = value)).map (·.2)).getD si.defaultDest

/-- `defaultValue`, `branchTargets` and `bbOrder`. -/
structure SwitchTargets (T : ExprTheory) where
  defaultValue : T.Expr
  branchTargets : BlockID → Option T.Expr
  bbOrder : List BlockID

namespace SwitchTargets

def addCase (B : Backend T) (constraints : List T.Expr) (cond : T.Expr) (defaultDest : BlockID)
    (t : SwitchTargets T) (case : Nat × BlockID) : SwitchTargets T :=
  let isMatch := T.eq cond (T.const case.1 (T.width cond))
  if case.2 = defaultDest then t
  else
    let defaultValue := T.and t.defaultValue (T.isZero isMatch)
    if B.mayBeTrue constraints isMatch then
      { defaultValue
        branchTargets := Function.update t.branchTargets case.2
          (some (T.or isMatch ((t.branchTargets case.2).getD (T.const 0 1))))
        bbOrder := if (t.branchTargets case.2).isSome then t.bbOrder else t.bbOrder ++ [case.2] }
    else { t with defaultValue }

def addDefault (B : Backend T) (constraints : List T.Expr) (defaultDest : BlockID) (t : SwitchTargets T) :
    SwitchTargets T :=
  if B.mayBeTrue constraints t.defaultValue then
    if (t.branchTargets defaultDest).isSome then t
    else
      { t with
        branchTargets := Function.update t.branchTargets defaultDest (some t.defaultValue)
        bbOrder := t.bbOrder ++ [defaultDest] }
  else t

/-- The targets of a `switch` on `cond`, for its cases in the order of `expressionOrder`. -/
def ofSwitch (B : Backend T) (constraints : List T.Expr) (cond : T.Expr) (defaultDest : BlockID)
    (expressionOrder : List (Nat × BlockID)) : SwitchTargets T :=
  (expressionOrder.foldl (addCase B constraints cond defaultDest)
    { defaultValue := T.const 1 1, branchTargets := fun _ => none, bbOrder := [] }).addDefault B constraints defaultDest

def conditions (t : SwitchTargets T) : List T.Expr :=
  t.bbOrder.map fun bb => (t.branchTargets bb).getD (T.const 0 1)

end SwitchTargets

/-- The handler of a `switch` on a symbolic condition: the resulting states with the blocks they are transferred
to. -/
def executeSymbolicSwitch (B : Backend T) (env : ForkEnv) (rng : Nat → Nat) (state : SymState T σ) (si : SwitchInst)
    (expressionOrder : List (Nat × BlockID)) (cond : T.Expr) : Option (List (BlockID × SymState T σ)) :=
  let t := SwitchTargets.ofSwitch B state.constraints cond si.defaultDest expressionOrder
  (branch B env rng state t.conditions).map fun branches =>
    (t.bbOrder.zip branches).filterMap fun (bb, es) => es.map (bb, ·)

end CgsKlee
