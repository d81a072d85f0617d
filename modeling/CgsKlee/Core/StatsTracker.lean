import CgsKlee.Lib.Passes
import CgsKlee.Lib.ShortestDerivations

/-!
# Distances to uncovered instructions

`StatsTracker::computeReachableUncovered` computes for every instruction the shortest path to a return of its function
(`minDistToReturn`) and to an uncovered instruction (`minDistToUncovered`), and from these the distances that the
frames of the states have on return.  The tables are indexed by the ids of `InstructionInfoTable`; zero stands for
"unreachable".  The lengths through functions are `unsigned`; the entries of the tables have 64 bits, which do not
overflow with less than `2 ^ 32` instructions.
-/

namespace CgsKlee

open Derivations (relax)

inductive CalledOperand (Fn : Type)
  | inlineAsm
  | direct (target : Fn)
  | indirect
deriving DecidableEq

inductive InstKind (Fn : Type)
  | call (operand : CalledOperand Fn)
  | ret
  | other
deriving DecidableEq

/-- A function is a declaration or starts with an instruction. -/
inductive FunctionBody (Inst : Type)
  | declaration (doesNotReturn : Bool)
  | definition (first : Inst)
deriving DecidableEq

/-- The parts of a `KModule` that the distances depend on. -/
structure TrackedModule (Inst Fn : Type) where
  /-- The instructions in the order of the module. -/
  instructions : List Inst
  mem_instructions : ∀ i, i ∈ instructions
  kind : Inst → InstKind Fn
  /-- `getSuccs`: the next instruction, or the first ones of the successors of the block. -/
  getSuccs : Inst → List Inst
  parent : Inst → Fn
  body : Fn → FunctionBody Inst
  parent_first : ∀ f i, body f = .definition i → parent i = f
  escapingFunctions : List Fn

/-- `InstructionInfoTable`: the order in which the ids are given, first to the instructions. -/
structure InfoTable (Inst Fn : Type) where
  infos : List Inst
  functionInfos : List Fn
  mem_infos : ∀ i, i ∈ infos
  mem_functionInfos : ∀ f, f ∈ functionInfos

/-- What stays between the calls: the static variables and the indexed statistics. -/
structure StatsTables (Fn : Type) where
  init : Bool
  functionShortestPath : Fn → Nat
  minDistToReturn : Nat → Nat
  minDistToUncovered : Nat → Nat

def StatsTables.start {Fn : Type} : StatsTables Fn := ⟨true, fun _ => 0, fun _ => 0, fun _ => 0⟩

variable {Inst Fn : Type} [DecidableEq Inst] [DecidableEq Fn]

namespace InfoTable

section Instructions

omit [DecidableEq Fn]

def id (infos : InfoTable Inst Fn) (i : Inst) : Nat := infos.infos.idxOf i

theorem id_lt (infos : InfoTable Inst Fn) (i : Inst) : infos.id i < infos.infos.length :=
  List.idxOf_lt_length_iff.mpr (infos.mem_infos i)

theorem id_inj {infos : InfoTable Inst Fn} {i j : Inst} : infos.id i = infos.id j ↔ i = j := by
  constructor
  · intro h
    exact (List.idxOf_inj (infos.mem_infos i)).mp h
  · exact congrArg infos.id

def row (infos : InfoTable Inst Fn) (table : Nat → Nat) (i : Inst) : Nat := table (infos.id i)

theorem row_update (infos : InfoTable Inst Fn) (table : Nat → Nat) (i : Inst) (n : Nat) :
    infos.row (Function.update table (infos.id i) n) = Function.update (infos.row table) i n := by
  funext j
  unfold row
  by_cases hj : j = i
  · subst hj
    rw [Function.update_self, Function.update_self]
  · rw [Function.update_of_ne (mt id_inj.mp hj), Function.update_of_ne hj]

/-- The statistic `uncoveredInstructions`: one for the instructions that are uncovered. -/
def uncoveredInstructions (infos : InfoTable Inst Fn) (uncovered : Inst → Bool) (n : Nat) : Nat :=
  match infos.infos[n]? with
  | some i => if uncovered i then 1 else 0
  | none => 0

theorem row_uncoveredInstructions (infos : InfoTable Inst Fn) (uncovered : Inst → Bool) (i : Inst) :
    infos.row (infos.uncoveredInstructions uncovered) i = if uncovered i then 1 else 0 := by
  have hget : infos.infos[infos.id i]? = some i := by
    rw [List.getElem?_eq_getElem (infos.id_lt i)]
    exact congrArg some (List.getElem_idxOf (infos.id_lt i))
  unfold row uncoveredInstructions
  rw [hget]

end Instructions

def functionId (infos : InfoTable Inst Fn) (f : Fn) : Nat := infos.infos.length + infos.functionInfos.idxOf f

theorem functionId_ne_id (infos : InfoTable Inst Fn) (f : Fn) (i : Inst) : infos.functionId f ≠ infos.id i := by
  have := infos.id_lt i
  unfold functionId
  omega

end InfoTable

namespace TrackedModule

variable (m : TrackedModule Inst Fn)

def callTargets (operand : CalledOperand Fn) : List Fn :=
  match operand with
  -- we can never call through here so assume no targets
  | .inlineAsm => []
  | .direct target => [target]
  | .indirect => m.escapingFunctions

def isFirst (i : Inst) : Bool :=
  match m.body (m.parent i) with
  | .declaration _ => false
  | .definition first => decide (i = first)

/-- `bestThrough`, an `unsigned`: the shortest path through the instruction. -/
def bestThrough (functionShortestPath : Fn → Nat) (i : Inst) : Nat :=
  match m.kind i with
  | .call operand =>
    (m.callTargets operand).foldl (fun best f => relax 1 best (functionShortestPath f) % 2 ^ 32) 0
  | _ => 1

def initialShortestPath (f : Fn) : Nat :=
  match m.body f with
  | .declaration doesNotReturn => if doesNotReturn then 0 else 1
  | .definition _ => 0

def initialReturn (i : Inst) : Nat :=
  match m.kind i with
  | .ret => 1
  | _ => 0

variable (infos : InfoTable Inst Fn)

/-- The body of the loop that computes `minDistToReturn`, if it changes anything. -/
def returnStep (i : Inst) (s : (Nat → Nat) × (Fn → Nat)) : Option ((Nat → Nat) × (Fn → Nat)) :=
  let through := m.bestThrough s.2 i
  if through = 0 then none
  else
    let cur := infos.row s.1 i
    let best := (m.getSuccs i).foldl (fun best j => relax through best (infos.row s.1 j)) cur
    let f := m.parent i
    -- a function may be a single return, whose distance does not change
    if best ≠ cur ∨ m.isFirst i = true ∧ s.2 f ≠ best then
      some (Function.update s.1 (infos.id i) best,
        if m.isFirst i then Function.update s.2 f (best % 2 ^ 32) else s.2)
    else none

def setAll (values : Inst → Nat) (table : Nat → Nat) : Nat → Nat :=
  m.instructions.foldl (fun table i => Function.update table (infos.id i) (values i)) table

/-- The body of the loop that computes `minDistToUncovered`, if it changes anything. -/
def uncoveredStep (functionShortestPath : Fn → Nat) (i : Inst) (table : Nat → Nat) : Option (Nat → Nat) :=
  let cur := infos.row table i
  let through := m.bestThrough functionShortestPath i
  let best :=
    match m.kind i with
    | .call operand =>
      (m.callTargets operand).foldl (fun best f =>
        match m.body f with
        | .declaration _ => best
        | .definition _ => relax 1 best (table (infos.functionId f))) cur
    | _ => cur
  let best :=
    if through = 0 then best
    else (m.getSuccs i).foldl (fun best j => relax through best (infos.row table j)) best
  if best ≠ cur then some (Function.update table (infos.id i) best) else none

/-- The tables of `computeReachableUncovered`, with at most `fuel` passes in each loop. -/
def computeReachableUncovered (fuel : Nat) (uncovered : Inst → Bool) (s : StatsTables Fn) :
    Option (StatsTables Fn) := do
  let s ←
    if s.init then do
      let (minDistToReturn, functionShortestPath) ← Passes.repeatPass (m.returnStep infos) m.instructions.reverse fuel
        (m.setAll infos m.initialReturn s.minDistToReturn, m.initialShortestPath)
      some { s with init := false, functionShortestPath, minDistToReturn }
    else some s
  let minDistToUncovered ← Passes.repeatPass (m.uncoveredStep infos s.functionShortestPath) m.instructions.reverse fuel
    (m.setAll infos (infos.row (infos.uncoveredInstructions uncovered)) s.minDistToUncovered)
  some { s with minDistToUncovered }

omit [DecidableEq Fn] in
theorem foldl_update_apply (values : Inst → Nat) (is : List Inst) (table : Nat → Nat) (n : Nat) :
    (∀ i ∈ is, infos.id i ≠ n) → is.foldl (fun table i => Function.update table (infos.id i) (values i)) table n =
      table n := by
  induction is generalizing table with
  | nil => exact fun _ => rfl
  | cons i is ih =>
    intro h
    obtain ⟨hi, his⟩ := List.forall_mem_cons.mp h
    rw [List.foldl_cons, ih _ his, Function.update_of_ne hi.symm]

omit [DecidableEq Fn] in
theorem row_foldl_update (values : Inst → Nat) {is : List Inst} {j : Inst} (hj : j ∈ is) (table : Nat → Nat) :
    infos.row (is.foldl (fun table i => Function.update table (infos.id i) (values i)) table) j = values j := by
  induction is generalizing table with
  | nil => cases hj
  | cons i is ih =>
    rw [List.foldl_cons]
    by_cases hmem : j ∈ is
    · exact ih hmem _
    · obtain rfl : j = i := (List.mem_cons.mp hj).resolve_right hmem
      unfold InfoTable.row
      rw [foldl_update_apply, Function.update_self]
      exact fun i hi heq => hmem (InfoTable.id_inj.mp heq ▸ hi)

omit [DecidableEq Fn] in
theorem row_setAll (values : Inst → Nat) (table : Nat → Nat) : infos.row (m.setAll infos values table) = values := by
  funext i
  exact row_foldl_update infos values (m.mem_instructions i) table

theorem setAll_functionId (values : Inst → Nat) (table : Nat → Nat) (f : Fn) :
    m.setAll infos values table (infos.functionId f) = table (infos.functionId f) :=
  foldl_update_apply infos values _ table _ fun i _ h => infos.functionId_ne_id f i h.symm

end TrackedModule

end CgsKlee
