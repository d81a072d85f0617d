import Mathlib.Logic.Function.Basic

/-!
# The data that concrete-constraint guided search works on

The search is spread over three objects of the source that share their memory: an `ExecutionState` (the fields
`reachStore`, `reachBranch`, `branchInfos`, `storeValues`, `coveredNew` and the program counters), the `Executor`
(the dependency metadata, the work lists of branches and the flags through which it talks to the searcher) and the
`CGSSearcher` (two vectors of states and a cache).  `World` is that shared memory.

Pointers are numbers.  A hashed container is a list when the code iterates over it, in the order in which it does,
and a function when the code only looks keys up.  `signed` and `unsigned` are `BitVec 32`.
-/

namespace CgsKlee

abbrev StateId := Nat
abbrev BranchID := Nat
abbrev StoreID := Nat
abbrev InstID := Nat
abbrev BlockID := Nat
abbrev FuncID := Nat

/-- The C type `signed`; a value of type `unsigned` is kept in the same 32 bits. -/
abbrev Signed := BitVec 32

instance : LawfulBEq Signed := inferInstance

structure BranchInfo where
  reachStoreID : StoreID
  targetBranchID : BranchID
deriving DecidableEq, Repr

/-- The fields of `ExecutionState` that the guided search reads or writes. -/
structure ExecState where
  reachStore : Bool := false
  reachBranch : Bool := false
  branchInfos : List BranchInfo := []
  storeValues : List (StoreID × Signed) := []
  coveredNew : Bool := false
  pc : InstID := 0
  prevPC : InstID := 0
deriving DecidableEq, Repr

inductive Pred
  | eq | ne | ugt | uge | ult | ule | sgt | sge | slt | sle
deriving DecidableEq, Repr

/-- The arithmetic operations that the `br` handler recognises in front of a comparison. -/
inductive ArithOp
  | and | or
deriving DecidableEq, Repr

/-- `BDDep::type`: `0` for a `br`, `1` for a `switch`. -/
inductive BranchType
  | br | switch
deriving DecidableEq, Repr

/-- `Executor::BDDep`.  `unCoveredPred` is `none` as long as no predicate has been recorded in it. -/
structure BDDep where
  type : BranchType
  stores : List StoreID
  pred : Pred := .eq
  arithOp : Option ArithOp := none
  arithVar : Signed := 0
  unCoveredPred : Option Pred := none
  var : Signed := 0
  constant : Signed := 0
  unCoveredValues : List Signed := []
deriving DecidableEq, Repr

/-- An operand of an instruction, as far as the handlers look at it. -/
inductive Operand
  | inst (i : InstID)
  | constantInt (value : BitVec 64)
  | other
deriving DecidableEq, Repr

/-- The opcodes that the handlers tell apart. -/
inductive Opcode
  | br | switch | icmp | and | or | other
deriving DecidableEq, Repr

structure Inst where
  opcode : Opcode
  parent : BlockID
  operands : List Operand
deriving DecidableEq, Repr

/-- The module: its instructions and the function of every basic block. -/
structure KModule where
  insts : List Inst
  funcOf : BlockID → FuncID

namespace KModule

def inst (m : KModule) (i : InstID) : Inst := m.insts.getD i ⟨.other, 0, []⟩

/-- `I->getParent()->getParent()`. -/
def functionOf (m : KModule) (i : InstID) : FuncID := m.funcOf (m.inst i).parent

end KModule

/-- The memory shared by the `Executor`, its states and the `CGSSearcher`. -/
structure World where
  -- the `ExecutionState` objects
  heap : StateId → ExecState
  -- `Executor`: module and metadata
  kmodule : KModule
  bdDep : BranchID → Option BDDep
  id2bi : BranchID → Option InstID
  bi2id : InstID → Option BranchID
  id2si : StoreID → Option InstID
  si2id : InstID → StoreID
  storetTobranches : StoreID → List BranchID
  storesWithSameVar : StoreID → Option (List StoreID)
  funcStores : FuncID → List InstID
  -- `Executor`: options
  targetBranchNum : Nat
  maxReachBranchCount : Nat
  -- `Executor`: work lists and flags
  updateTargetBranch : Bool
  newFullyCoveredBranch : Bool
  newPartlyCoveredBranch : Bool
  fullyCoveredBranches : List BranchID
  partlyCoveredBranches : List BranchID
  targetBranches : List BranchID
  invalidBranches : List BranchID
  reachBranchCount : BranchID → Option Nat
  invalidStoreValues : BranchID → Option (List Signed)
  newBranchNumFromStore : Nat
  -- `StatisticManager`: the counters indexed by instruction
  trueBranches : InstID → Nat
  falseBranches : InstID → Nat
  fullBranches : InstID → Nat
  -- `CGSSearcher`
  states : List StateId
  branchStates : List StateId
  validStoreValues : BranchID → List Signed
  /-- History variable, not in the source: the values that `isNewStoreValue` put into the cache of a branch
  without testing them. -/
  unchecked : List (BranchID × Signed)

/-- An Executor without metadata and without states. -/
instance : Inhabited World where
  default :=
    { heap := fun _ => {}, kmodule := ⟨[], fun _ => 0⟩, bdDep := fun _ => none, id2bi := fun _ => none
      bi2id := fun _ => none, id2si := fun _ => none, si2id := fun _ => 0, storetTobranches := fun _ => []
      storesWithSameVar := fun _ => none, funcStores := fun _ => [], targetBranchNum := 0, maxReachBranchCount := 0
      updateTargetBranch := false, newFullyCoveredBranch := false, newPartlyCoveredBranch := false
      fullyCoveredBranches := [], partlyCoveredBranches := [], targetBranches := [], invalidBranches := []
      reachBranchCount := fun _ => none, invalidStoreValues := fun _ => none, newBranchNumFromStore := 0
      trueBranches := fun _ => 0, falseBranches := fun _ => 0, fullBranches := fun _ => 0, states := []
      branchStates := [], validStoreValues := fun _ => [], unchecked := [] }

namespace World

def setState (w : World) (s : StateId) (e : ExecState) : World :=
  { w with heap := Function.update w.heap s e }

@[simp] theorem setState_heap_self (w : World) (s : StateId) (e : ExecState) :
    (w.setState s e).heap s = e := by
  simp [setState]

@[simp] theorem setState_heap_of_ne (w : World) {s t : StateId} (e : ExecState) (h : t ≠ s) :
    (w.setState s e).heap t = w.heap t := by
  simp [setState, h]

end World

/-- `map.find(sid)` of an association list. -/
def findValue (m : List (StoreID × Signed)) (sid : StoreID) : Option Signed :=
  (m.find? fun e => e.1 = sid).map (·.2)

/-- `map[sid] = value` of an association list. -/
def assignValue (m : List (StoreID × Signed)) (sid : StoreID) (value : Signed) : List (StoreID × Signed) :=
  if m.any (fun e => e.1 = sid) then m.map fun e => if e.1 = sid then (sid, value) else e
  else m ++ [(sid, value)]

end CgsKlee
