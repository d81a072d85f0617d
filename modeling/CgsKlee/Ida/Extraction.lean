import CgsKlee.Ida.Dependency
import CgsKlee.Ida.Metadata

/-!
# Where a value comes from

`BranchDependencyAnalysis::extractDataDependency` goes back from an instruction along its operands, and from a local
variable to a store that may have written it, until it comes to a global variable, to a local variable that is not
written with a value of its own, or to a parameter of the function.  The function is given by its instructions; LLVM's
reachability between two instructions, with blocks to be avoided, is an input.
-/

namespace CgsKlee.Ida

/-- The type of a parameter, as far as it is looked at. -/
inductive ArgType
  | nonPointer | structPointer | otherPointer
deriving DecidableEq, Repr

inductive Value (n : Nat)
  | inst (i : Fin n)
  | globalVariable (g : Nat)
  | argument (index : Nat) (type : ArgType)
  | constantInt (value : BitVec 64)
  | other
deriving DecidableEq, Repr

/-- The instructions that are told apart; a load, a cast, a `phi` or a `select` is `other`. -/
inductive IROpcode
  | alloca | getElementPtr | store | call | switch | icmp | other
deriving DecidableEq, Repr

structure Instruction (n : Nat) where
  opcode : IROpcode
  operands : List (Value n)
  parent : BlockID
  /-- `getOperand(0)->getType()` of a GEP. -/
  pointerType : Nat := 0
  /-- The stores among the users of an `alloca`. -/
  users : List (Fin n) := []
deriving Repr

/-- The instructions of a function and what the analysis asks LLVM about them. -/
structure DefUse (n : Nat) where
  inst : Fin n → Instruction n
  /-- `getBBLabel`, as an `unsigned`. -/
  bbLabel : BlockID → BitVec 32
  /-- `isPotentiallyReachable(From, To, &ExclusionSet, DT, LI)` -/
  isPotentiallyReachable : Fin n → Fin n → List BlockID → Bool
  /-- The variable `result` of `selectStoreInst` before it is written. -/
  uninitialised : Option (Fin n) := none

/-- The variables of the loop.  The back of `to_trace_insts` comes first.  The set has pointers to records, so that two
records may be equal. -/
structure Extraction (n : Nat) where
  data_dep_set : List DataDep := []
  sp_list : List StructPointer := []
  last_AI : Option (Fin n) := none
  to_trace_insts : List (Fin n) := []
  traced_insts : List (Fin n) := []

namespace DefUse

variable {n : Nat} (D : DefUse n)

/-- `abs((int)from_bb - (int)to_bb)` -/
def distance (From To : Fin n) : Nat :=
  ((D.bbLabel (D.inst From).parent).toInt - (D.bbLabel (D.inst To).parent).toInt).natAbs

def nearest (To : Fin n) (result : Option (Fin n)) (min_bb_dist : Nat) : List (Fin n) → Option (Fin n)
  | [] => result
  | From :: reachStores =>
    if D.distance From To < min_bb_dist then nearest To (some From) (D.distance From To) reachStores
    else nearest To result min_bb_dist reachStores

/-- The second loop of `selectStoreInst`: the stores that reach `To` without passing through a block of another one. -/
def reachStores (To : Fin n) (ExclusionSet : List BlockID) : List (Fin n) → List (Fin n)
  | [] => []
  | From :: Froms =>
    let BB := (D.inst From).parent
    let others := ExclusionSet.filter (· ≠ BB)
    let rest := reachStores To (BB :: others) Froms
    if D.isPotentiallyReachable From To others then From :: rest else rest

def selectStoreInst (Froms : List (Fin n)) (To : Fin n) : Option (Fin n) :=
  let bb_threshold := min Froms.length 32
  let ExclusionSet := (Froms.reverse.take bb_threshold).map fun From => (D.inst From).parent
  match D.reachStores To ExclusionSet (Froms.take bb_threshold) with
  | [] => none
  | [From] => some From
  | reachStores => D.nearest To D.uninitialised 0xffff reachStores

def eraseLast (s : Extraction n) : Extraction n :=
  match s.last_AI with
  | none => s
  | some AI =>
    if .localVariable AI ∈ s.data_dep_set then
      { s with data_dep_set := s.data_dep_set.erase (.localVariable AI), last_AI := none }
    else s

def push (s : Extraction n) (i : Fin n) : Extraction n :=
  if i ∈ s.traced_insts then s else { s with to_trace_insts := i :: s.to_trace_insts }

/-- The dependency is added unless it is there. -/
def addNew (s : Extraction n) (d : DataDep) : Extraction n :=
  if d ∈ s.data_dep_set then s else { s with data_dep_set := s.data_dep_set ++ [d] }

def addArgument (s : Extraction n) (index : Nat) (type : ArgType) : Extraction n :=
  let s := eraseLast s
  let s := match type with
    | .nonPointer => if index ≠ 0xff then addNew s (.nonPointerParam index) else s
    | .structPointer => if s.sp_list ≠ [] then addNew s (.structPointerParam s.sp_list) else s
    | .otherPointer => s
  { s with sp_list := [], traced_insts := [] }

def storedData (SI : Fin n) : Value n := (D.inst SI).operands.headD .other

/-- The store is not one of a constant, and its block is not behind that of the instruction that is analysed. -/
def isCandidate (root SI : Fin n) : Bool :=
  match D.storedData SI with
  | .constantInt _ => false
  | _ => (D.bbLabel (D.inst root).parent).toNat ≥ (D.bbLabel (D.inst SI).parent).toNat

/-- The loop over the stores to a local variable: the first parameter that is stored, or else the stores that the search
may go on with. -/
def localStores (root : Fin n) : List (Fin n) → (Nat × ArgType) ⊕ List (Fin n)
  | [] => .inr []
  | SI :: users =>
    match D.storedData SI with
    | .argument index type => .inl (index, type)
    | _ =>
      match localStores root users with
      | .inl arg => .inl arg
      | .inr store_insts => .inr (if D.isCandidate root SI then SI :: store_insts else store_insts)

def nextStore (cur_inst : Fin n) (store_insts : List (Fin n)) : Option (Fin n) :=
  match store_insts with
  | [SI] => if D.isPotentiallyReachable SI cur_inst [] then some SI else none
  | _ => D.selectStoreInst store_insts cur_inst

def visitLocal (root cur_inst AI : Fin n) (s : Extraction n) : Extraction n :=
  let s := if .localVariable AI ∈ s.data_dep_set then s
    else { s with last_AI := some AI, data_dep_set := s.data_dep_set ++ [.localVariable AI] }
  match D.localStores root (D.inst AI).users with
  | .inl (index, type) => addArgument s index type
  | .inr [] => s
  | .inr store_insts =>
    match D.nextStore cur_inst store_insts with
    | none => eraseLast s
    | some SI => push (eraseLast s) SI

def visitOperands (root cur_inst : Fin n) : List (Value n) → Extraction n → Extraction n
  | [], s => s
  | .globalVariable g :: _, s =>
    { s with data_dep_set := s.data_dep_set ++ [.globalVariable g], sp_list := [], traced_insts := [] }
  | .inst i :: operands, s =>
    if (D.inst i).opcode = .alloca then visitOperands root cur_inst operands (D.visitLocal root cur_inst i s)
    else visitOperands root cur_inst operands (push s i)
  | _ :: operands, s => visitOperands root cur_inst operands s

/-- The offset of a GEP: an `unsigned` that is kept in an `int`. -/
def gepOffset : Option (Value n) → Int
  | some (.constantInt value) => (value.setWidth 32).toInt
  | _ => -1

def endsTrace (root cur_inst : Fin n) : Bool :=
  match (D.inst cur_inst).opcode with
  | .call | .switch => true
  | .icmp => cur_inst ≠ root
  | _ => false

/-- A GEP that does not have two indices. -/
def isPointerArithmetic (i : Fin n) : Bool := (D.inst i).opcode = .getElementPtr ∧ (D.inst i).operands.length ≠ 3

/-- The body of the loop behind the tests, for an instruction that has been taken from the list. -/
def visit (root cur_inst : Fin n) (s : Extraction n) : Extraction n :=
  let I := D.inst cur_inst
  if D.isPointerArithmetic cur_inst then
    match I.operands.head? with
    | some (.inst i) => { s with to_trace_insts := i :: s.to_trace_insts }
    | _ => s
  else
    match I.opcode with
    | .getElementPtr =>
      D.visitOperands root cur_inst I.operands
        { s with sp_list := s.sp_list ++ [⟨I.pointerType, gepOffset I.operands[2]?⟩] }
    | .store =>
      match D.storedData cur_inst with
      | .inst i => push s i
      | _ => s
    | _ => D.visitOperands root cur_inst I.operands s

def extractLoop (root : Fin n) (isStoreInst : Bool) : Nat → (Fin n → Nat) → Extraction n → Option (List DataDep)
  | 0, _, _ => none
  | fuel + 1, instCount, s =>
    match s.to_trace_insts with
    | [] => some s.data_dep_set
    | cur_inst :: rest =>
      if instCount cur_inst + 1 > 10 then some s.data_dep_set
      else if D.endsTrace root cur_inst then some s.data_dep_set
      else
        let instCount := Function.update instCount cur_inst (instCount cur_inst + 1)
        let s := D.visit root cur_inst
          { s with to_trace_insts := rest, traced_insts := insertNew s.traced_insts cur_inst }
        if isStoreInst ∧ s.data_dep_set.length = 1 ∧ ¬ D.isPointerArithmetic cur_inst then some s.data_dep_set
        else extractLoop root isStoreInst fuel instCount s

/-- Every instruction is taken at most ten times. -/
def extractBound (_ : DefUse n) : Nat := 11 * n + 1

def extractDataDependency (_inst : Fin n) (isStoreInst : Bool) : Option (List DataDep) :=
  D.extractLoop _inst isStoreInst D.extractBound (fun _ => 0) { to_trace_insts := [_inst] }

end DefUse

end CgsKlee.Ida
