import CgsKlee.Core.UncoveredPred

/-!
# The instruction handlers of the Executor

The parts of `Executor::executeInstruction` that the guided search adds to `Br`, `Switch` and `Store`, and
`StatsTracker::markBranchVisited`, on whose counters the `Br` handler relies.  A handler returns `none` where the
source fails an assertion or dereferences a null pointer.
-/

namespace CgsKlee

namespace World

/-- `StatsTracker::markBranchVisited` for the instruction `inst`. -/
def markBranchVisited (w : World) (inst : InstID) (visitedTrue visitedFalse : Bool) : World :=
  let hasTrue := w.trueBranches inst
  let hasFalse := w.falseBranches inst
  let newTrue := visitedTrue && hasTrue == 0
  let w := if newTrue then
      { w with
        trueBranches := Function.update w.trueBranches inst (hasTrue + 1)
        fullBranches := if hasFalse ≠ 0 then Function.update w.fullBranches inst (w.fullBranches inst + 1)
          else w.fullBranches }
    else w
  let hasTrue := if newTrue then 1 else hasTrue
  if visitedFalse && hasFalse == 0 then
    { w with
      falseBranches := Function.update w.falseBranches inst (hasFalse + 1)
      fullBranches := if hasTrue ≠ 0 then Function.update w.fullBranches inst (w.fullBranches inst + 1)
        else w.fullBranches }
  else w

/-- `cur` has just executed the branch `bid`: set `reachBranch` if it is one of its targets, and give the branch up
after `maxReachBranchCount` such visits. -/
def reachTarget (w : World) (cur : StateId) (bid : BranchID) : World :=
  if (w.heap cur).branchInfos.any (fun b => b.targetBranchID = bid) then
    let count := (w.reachBranchCount bid).getD 0 + 1
    { w.setState cur { w.heap cur with reachBranch := true } with
      reachBranchCount := Function.update w.reachBranchCount bid (some count)
      invalidBranches := if count > w.maxReachBranchCount then w.invalidBranches.insert bid else w.invalidBranches }
  else w

/-- Count that the partly covered branch `bid` was found; the answer is `false` if it has been found too often and is
given up. -/
def countReach (w : World) (bid : BranchID) : World × Bool :=
  match w.reachBranchCount bid with
  | none => ({ w with reachBranchCount := Function.update w.reachBranchCount bid (some 1) }, true)
  | some n =>
    let w := { w with reachBranchCount := Function.update w.reachBranchCount bid (some (n + 1)) }
    if n + 1 > w.maxReachBranchCount then ({ w with invalidBranches := w.invalidBranches.insert bid }, false)
    else (w, true)

/-- Put a partly covered branch into `targetBranches`, or into `partlyCoveredBranches` if there is no room. -/
def addTarget (w : World) (bid : BranchID) : World :=
  if w.targetBranches.length < w.targetBranchNum then
    { w with targetBranches := w.targetBranches ++ [bid], newPartlyCoveredBranch := true }
  else { w with partlyCoveredBranches := w.partlyCoveredBranches ++ [bid] }

/-- A branch is fully covered: note it once, and let the last partly covered branch take its place among the
targets. -/
def coverBranch (w : World) (bid : BranchID) : World :=
  if bid ∈ w.fullyCoveredBranches then w
  else
    let w := { w with fullyCoveredBranches := w.fullyCoveredBranches ++ [bid] }
    let w := if bid ∈ w.targetBranches then
        match w.partlyCoveredBranches.getLast? with
        | some next =>
          { w with
            targetBranches := w.targetBranches.erase bid ++ [next]
            partlyCoveredBranches := w.partlyCoveredBranches.dropLast
            newPartlyCoveredBranch := true }
        | none => { w with targetBranches := w.targetBranches.erase bid }
      else { w with partlyCoveredBranches := w.partlyCoveredBranches.erase bid }
    { w with newFullyCoveredBranch := true }

end World

namespace KModule

def icmpOperands (m : KModule) (bi : InstID) : Option (Operand × Operand) :=
  match (m.inst bi).operands with
  | .inst c :: _ =>
    match (m.inst c).opcode, (m.inst c).operands with
    | .icmp, [op1, op2] => some (op1, op2)
    | _, _ => none
  | _ => none

def isConstantInt : Operand → Bool
  | .constantInt _ => true
  | _ => false

def instOperands : List Operand → List InstID
  | [] => []
  | .inst i :: ops => i :: instOperands ops
  | _ :: ops => instOperands ops

def arithConstant : List Operand → Option Signed
  | [.constantInt _, .constantInt _] => none
  | [.constantInt c, _] => some (c.setWidth 32)
  | [_, .constantInt c] => some (c.setWidth 32)
  | _ => none

/-- The loop that looks for an `and` or `or` on the def-use chain of a branch inside its basic block `bb`.  The head
of `instVec` is the back of the vector. -/
def findArith (m : KModule) (bb : BlockID) : Nat → List InstID → List InstID → Option (ArithOp × Signed)
  | 0, _, _ => none
  | _ + 1, [], _ => none
  | fuel + 1, cur :: instVec, used =>
    if cur ∈ used then findArith m bb fuel instVec used
    else
      let I := m.inst cur
      if I.parent ≠ bb then none
      else
        match I.opcode with
        | .and => (arithConstant I.operands).map fun c => (.and, c)
        | .or => (arithConstant I.operands).map fun c => (.or, c)
        | _ => findArith m bb fuel ((instOperands I.operands).reverse ++ instVec) (cur :: used)

/-- Every instruction pushes its operands at most once, so this bounds the iterations of `findArith`. -/
def arithFuel (m : KModule) : Nat := (m.insts.map fun I => I.operands.length).sum + 2

end KModule

namespace BDDep

/-- Record the arithmetic operation in front of the comparison, if there is one. -/
def recordArith (d : BDDep) (arith : Option (ArithOp × Signed)) : BDDep :=
  match arith with
  | some (op, c) => { d with arithOp := some op, arithVar := c }
  | none => d

def coverCase (d : BDDep) (value : Signed) : BDDep :=
  { d with unCoveredValues := d.unCoveredValues.filter fun v => v ≠ value }

end BDDep

/-- The entry `d` of the branch `inst` after its uncovered side has been recorded for the values `c1` and `c2` of the
compared operands. -/
def KModule.recordEntry (m : KModule) (inst : InstID) (d : BDDep) (c1 c2 : BitVec 64) : Option BDDep :=
  match m.icmpOperands inst with
  | none => none
  | some (op1, op2) =>
    (d.record (KModule.isConstantInt op1) (KModule.isConstantInt op2) (signedOf c1) (signedOf c2)).map fun d =>
      d.recordArith (m.findArith (m.inst inst).parent m.arithFuel [inst] [])

namespace World

/-- Record the uncovered side of the branch `bid`, carried by `inst`, and make it a target.  `v1` and `v2` are the
runtime values of the compared operands, `none` if they are not constant. -/
def recordBranch (w : World) (inst : InstID) (bid : BranchID) (d : BDDep) (v1 v2 : Option (BitVec 64)) :
    Option World :=
  match v1, v2 with
  | some c1, some c2 =>
    (w.kmodule.recordEntry inst d c1 c2).map fun d =>
      { w with bdDep := Function.update w.bdDep bid (some d) }.addTarget bid
  | _, _ =>
    if (w.kmodule.icmpOperands inst).isSome then some { w with invalidBranches := w.invalidBranches.insert bid }
    else none

/-- The statistics of branches, if they are kept for the function (`tracked`). -/
def branchStats (w : World) (inst : InstID) (visitedTrue visitedFalse tracked : Bool) : World :=
  if tracked then w.markBranchVisited inst visitedTrue visitedFalse else w

/-- The `Br` case for a constant condition: `cur` takes the first successor iff `taken`. -/
def executeBr (w : World) (cur : StateId) (inst : InstID) (taken tracked : Bool) (v1 v2 : Option (BitVec 64)) :
    Option World :=
  let w := w.branchStats inst taken (!taken) tracked
  match w.bi2id inst with
  | none => some w
  | some bid =>
    let w := w.reachTarget cur bid
    if w.fullBranches inst ≠ 0 then some (w.coverBranch bid)
    else if bid ∈ w.invalidBranches ∨ bid ∈ w.targetBranches ∨ bid ∈ w.partlyCoveredBranches then some w
    else
      match w.bdDep bid with
      | none => none
      | some d =>
        if d.stores = [] then some w
        else
          match w.countReach bid with
          | (w, false) => some w
          | (w, true) => w.recordBranch inst bid d v1 v2

/-- The `Br` case for a condition that is not constant: the branch is no longer considered. -/
def executeSymbolicBr (w : World) (inst : InstID) (visitedTrue visitedFalse tracked : Bool) : World :=
  let w := w.branchStats inst visitedTrue visitedFalse tracked
  { w with bi2id := Function.update w.bi2id inst none }

/-- The `Switch` case for a constant condition `value`. -/
def executeSwitch (w : World) (cur : StateId) (inst : InstID) (value : BitVec 64) : Option World :=
  match w.bi2id inst with
  | none => some w
  | some bid =>
    match w.bdDep bid with
    | none => none
    | some d =>
      let w := w.reachTarget cur bid
      let d := d.coverCase (signedOf value)
      let w := { w with bdDep := Function.update w.bdDep bid (some d) }
      if d.unCoveredValues = [] then some (w.coverBranch bid)
      else if bid ∈ w.invalidBranches ∨ bid ∈ w.targetBranches ∨ bid ∈ w.partlyCoveredBranches then some w
      else if d.stores = [] then some w
      else
        match w.countReach bid with
        | (w, false) => some w
        | (w, true) => some (w.addTarget bid)

/-- Drop the first remembered value of a store to the same variable, if it is another value, and the first target
that came from that store. -/
def dropSameVar (e : ExecState) (related : List StoreID) (value : Signed) : ExecState :=
  match e.storeValues.find? (fun p => p.1 ∈ related ∧ p.2 ≠ value) with
  | none => e
  | some p =>
    { e with
      storeValues := e.storeValues.eraseP fun p => p.1 ∈ related ∧ p.2 ≠ value
      branchInfos := e.branchInfos.eraseP fun b => b.reachStoreID = p.1 }

def storeTarget (cur : StateId) (sid : StoreID) (value : Signed) (w : World) (bid : BranchID) : Option World :=
  let values := (w.invalidStoreValues bid).getD []
  let w := { w with invalidStoreValues := Function.update w.invalidStoreValues bid (some values) }
  if value ∈ values then some w
  else
    match w.bdDep bid with
    | none => none
    | some d =>
      if sid ∈ d.stores then
        some { w.setState cur { w.heap cur with
            reachStore := true, reachBranch := false,
            branchInfos := (w.heap cur).branchInfos ++ [⟨sid, bid⟩] } with
          newBranchNumFromStore := w.newBranchNumFromStore + 1 }
      else some w

/-- The state remembers the value of the store `sid`; `iter` is the order in which the handler meets the entries of
`storeValues`. -/
def rememberStore (w : World) (cur : StateId) (sid : StoreID) (value : Signed) (iter : List (StoreID × Signed)) :
    World :=
  let e := { w.heap cur with storeValues := iter }
  let e := match w.storesWithSameVar sid with
    | none => e
    | some related => dropSameVar e related value
  w.setState cur { e with storeValues := assignValue e.storeValues sid value }

/-- The `Store` handler, after `executeMemoryOperation`.  `value` is the stored value if it is constant. -/
def executeStore (w : World) (cur : StateId) (inst : InstID) (isPointer : Bool) (value : Option (BitVec 64))
    (iter : List (StoreID × Signed)) : Option World :=
  let sid := w.si2id inst
  match value with
  | none => some w
  | some v =>
    if sid = 0 ∨ isPointer then some w
    else
      let value := signedOf v
      w.targetBranches.foldlM (storeTarget cur sid value) (w.rememberStore cur sid value iter)

end World

end CgsKlee
