import CgsKlee.Core.Types
import Mathlib.Algebra.GroupWithZero.Nat

/-!
# Inter-procedural dependency analysis: the stores that decide a branch

The first program of the repository, the analysis `IDA`, matches every branch of the module with the stores that
may change the variables of its condition.  This module embeds the matching loop of
`InterproceduralDependencyAnalysis::runOnModule` with both its producers of variables: `findStoresForBranch`, for a
variable whose stores are found by type, and `findStoresForBranchOnCG`, for a parameter, whose values are looked
for in the callers.

What is computed before the loop is its input, `Analysis`: the stores and branches with their data dependencies,
the call graph, and the answers of `extractDataDependency` and of LLVM's reachability.  All hashed containers of
the input are lists in the order of their iteration, and no order is assumed.
-/

namespace CgsKlee.Ida

structure StructPointer where
  type : Nat
  offset : Int
deriving DecidableEq, Repr

/-- `DataDep`, by its `node_type`.  `extractDataDependency` records these four kinds; nothing is ever recorded as
`rn_null`, and the code that would record an `rn_otherParam` is commented out. -/
inductive DataDep
  | localVariable (local_var : Nat)
  | globalVariable (global_var : Nat)
  | nonPointerParam (nsp_param : Nat)
  | structPointerParam (sp_list : List StructPointer)
deriving DecidableEq, Repr

structure StoreDep where
  inst : InstID
  data_dep : DataDep
deriving DecidableEq, Repr

structure BranchDep where
  inst : InstID
  func : FuncID
  data_dep_set : List DataDep
deriving DecidableEq, Repr

/-- `VD2SDDep`: a source variable and its stores.  The pointer `data_dep` is uninitialised (`none`) until it is
written. -/
structure VD2SDDep where
  id : Nat
  data_dep : Option DataDep
  storeDeps : List StoreDep
deriving DecidableEq, Repr

structure BD2VDDep where
  branch_dep : BranchDep
  id : BranchID
  store_num : Nat
  varDeps : List VD2SDDep
deriving DecidableEq, Repr

/-- A call instruction and the function that holds it, the source of an edge of the call graph. -/
structure CallInst where
  id : InstID
  func : FuncID
deriving DecidableEq, Repr

/-- An instruction of the module, as far as the metadata is concerned: the condition of a `br` is its predicate if
it is an `icmp`. -/
inductive InstKind
  | store
  | br (cond : Option Pred)
  | switch (cases : List Signed)
  | other
deriving DecidableEq, Repr

def InstKind.isBranch : InstKind → Bool
  | .br _ | .switch _ => true
  | .store | .other => false

/-- The module and what is known of it when stores and branches are matched. -/
structure Analysis where
  prog : List (FuncID × List (InstID × InstKind))
  /-- `_SDMap`. -/
  sdMap : List (FuncID × List StoreDep)
  /-- `_FBD`. -/
  fbd : List (FuncID × List BranchDep)
  /-- The `in_edges` of the nodes of `_CG`. -/
  callGraph : List (FuncID × List CallInst)
  /-- `dyn_cast<Instruction>(cur_inst->getOperand(param_index))`. -/
  operand : InstID → Nat → Option InstID
  extractDataDependency : InstID → List DataDep
  isPotentiallyReachable : InstID → InstID → Bool
  /-- A `StoreDep` is made for a store of the module, at most one for each. -/
  stores_mem : ∀ sd ∈ sdMap.flatMap (·.2), (sd.inst, InstKind.store) ∈ prog.flatMap (·.2)
  stores_nodup : ((sdMap.flatMap (·.2)).map (·.inst)).Nodup
  /-- A `BranchDep` is made for a `br` or a `switch` of the module, at most one for each. -/
  branches_mem : ∀ bd ∈ fbd.flatMap (·.2), ∃ kind, (bd.inst, kind) ∈ prog.flatMap (·.2) ∧ kind.isBranch
  branches_nodup : ((fbd.flatMap (·.2)).map (·.inst)).Nodup

namespace Analysis

def insts (an : Analysis) : List (InstID × InstKind) := an.prog.flatMap (·.2)

def stores (an : Analysis) : List StoreDep := an.sdMap.flatMap (·.2)

def storesOf (an : Analysis) (F : FuncID) : List StoreDep := ((an.sdMap.find? (·.1 = F)).map (·.2)).getD []

def inEdges (an : Analysis) (F : FuncID) : List CallInst := ((an.callGraph.find? (·.1 = F)).map (·.2)).getD []

end Analysis

def insertStore (storeDeps : List StoreDep) (SD : StoreDep) : List StoreDep :=
  if SD ∈ storeDeps then storeDeps else storeDeps ++ [SD]

/-- The loop over a set of stores that inserts the matching ones. -/
def insertStores (p : StoreDep → Bool) (SDSet storeDeps : List StoreDep) : List StoreDep :=
  SDSet.foldl (fun storeDeps SD => if p SD then insertStore storeDeps SD else storeDeps) storeDeps

/-- `isContainStructPointerList`: both lists are compared from their ends, the second up to its length. -/
def isContainStructPointerList (splist_1 splist_2 : List StructPointer) : Bool :=
  if splist_1.length < splist_2.length then false
  else (splist_1.reverse.zip splist_2.reverse).all fun (sp1, sp2) => sp1 = sp2

def findStoresForBranch (an : Analysis) (BD : BranchDep) (data_dep : DataDep) (storeDeps : List StoreDep) :
    List StoreDep :=
  match data_dep with
  | .localVariable v =>
    insertStores (fun SD => SD.data_dep = .localVariable v && an.isPotentiallyReachable SD.inst BD.inst)
      (an.storesOf BD.func) storeDeps
  | .globalVariable v => insertStores (fun SD => SD.data_dep = .globalVariable v) an.stores storeDeps
  | .structPointerParam sp_list =>
    insertStores (fun SD =>
      match SD.data_dep with
      | .structPointerParam sp_list' => isContainStructPointerList sp_list' sp_list
      | _ => false) an.stores storeDeps
  | .nonPointerParam _ => storeDeps

/-- The variables of the loop of `findStoresForBranchOnCG`.  The back of `to_trace_insts` comes first. -/
structure Trace where
  to_trace_insts : List CallInst := []
  traced_funcs : List FuncID := []
  func_param_index : InstID → Nat := fun _ => 0
  storeDeps : List StoreDep := []
  data_dep : Option DataDep := none

def Trace.addCaller (param_index : Nat) (t : Trace) (ci : CallInst) : Trace :=
  if ci.func ∈ t.traced_funcs then t
  else
    { t with
      to_trace_insts := ci :: t.to_trace_insts
      traced_funcs := ci.func :: t.traced_funcs
      func_param_index := Function.update t.func_param_index ci.id param_index }

/-- The body of the loop, for the call `cur_inst` that has been taken from `to_trace_insts`. -/
def Trace.visit (an : Analysis) (BD : BranchDep) (t : Trace) (cur_inst : CallInst) : Trace :=
  match an.operand cur_inst.id (t.func_param_index cur_inst.id) with
  | none => t
  | some call_op =>
    match an.extractDataDependency call_op with
    | [] => t
    | .nonPointerParam param_index :: _ => (an.inEdges cur_inst.func).foldl (addCaller param_index) t
    | data_dep :: _ =>
      let storeDeps :=
        match data_dep with
        -- no reachability here, the store and the branch are in different functions
        | .localVariable v =>
          insertStores (fun SD => SD.data_dep = .localVariable v) (an.storesOf cur_inst.func) t.storeDeps
        | _ => findStoresForBranch an BD data_dep t.storeDeps
      -- since one function can be called with different values for the same parameter
      { t with traced_funcs := t.traced_funcs.filter (· ≠ cur_inst.func), storeDeps, data_dep := some data_dep }

def Trace.run (an : Analysis) (BD : BranchDep) : Nat → Trace → Option Trace
  | 0, _ => none
  | fuel + 1, t =>
    match t.to_trace_insts with
    | [] => some t
    | cur_inst :: rest => Trace.run an BD fuel (Trace.visit an BD { t with to_trace_insts := rest } cur_inst)

/-- No function is expanded twice, so that the loop visits every edge of the call graph at most once. -/
def Analysis.traceBound (an : Analysis) : Nat := (an.callGraph.map (·.2.length)).sum + 1

def findStoresForBranchOnCG (an : Analysis) (BD : BranchDep) (nsp_param : Nat) : Option (List VD2SDDep) :=
  let start := (an.inEdges BD.func).foldl (Trace.addCaller nsp_param) { traced_funcs := [BD.func] }
  (Trace.run an BD an.traceBound start).map fun t =>
    if t.storeDeps = [] then [] else [{ id := 0, data_dep := t.data_dep, storeDeps := t.storeDeps }]

/-- The loop over `BD->data_dep_set`; `BD_var_idx` numbers the variables of `findStoresForBranch` only. -/
def matchVariable (an : Analysis) (BD : BranchDep) (acc : Nat × List VD2SDDep) (data_dep : DataDep) :
    Option (Nat × List VD2SDDep) :=
  let (BD_var_idx, varDeps) := acc
  match data_dep with
  | .nonPointerParam nsp_param =>
    (findStoresForBranchOnCG an BD nsp_param).map fun vsDeps => (BD_var_idx, varDeps ++ vsDeps)
  | _ =>
    some (BD_var_idx + 1, varDeps ++
      [{ id := BD_var_idx, data_dep := some data_dep, storeDeps := findStoresForBranch an BD data_dep [] }])

def matchBranch (an : Analysis) (BD : BranchDep) (id : BranchID) : Option BD2VDDep :=
  (BD.data_dep_set.foldlM (matchVariable an BD) (0, [])).map fun (_, varDeps) =>
    { branch_dep := BD, id, store_num := (varDeps.map (·.storeDeps.length)).sum, varDeps }

/-- The loop of `runOnModule` that fills `_BD2VDMap`. -/
def runOnModule (an : Analysis) : Option (List BD2VDDep) :=
  (an.fbd.flatMap (·.2)).zipIdx.mapM fun (BD, i) => matchBranch an BD (i + 1)

end CgsKlee.Ida
