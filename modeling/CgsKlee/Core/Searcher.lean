import CgsKlee.Core.UncoveredPred
import CgsKlee.Lib.Loops

/-!
# `CGSSearcher`

The searcher keeps the live states in two vectors, `states` and `branchStates`; the states of the second one have a
target branch and are preferred.  `update` follows the source block by block.  A function returns `none` where the
source erases at `end()`, reads the back of an empty vector, forms an iterator out of range or dereferences a null
pointer.
-/

namespace CgsKlee

namespace World

def selectState (w : World) : Option StateId :=
  match w.branchStates with
  | s :: _ => some s
  | [] => w.states.head?

def empty (w : World) : Bool := w.states.isEmpty && w.branchStates.isEmpty

def moveToBranchStates (w : World) (s : StateId) : World :=
  if s ∈ w.states then { w with states := w.states.erase s, branchStates := w.branchStates ++ [s] } else w

/-- `state->storeValues[sid]`, which inserts `0` for a missing key. -/
def readStoreValue (w : World) (state : StateId) (sid : StoreID) : Signed × World :=
  match findValue (w.heap state).storeValues sid with
  | some v => (v, w)
  | none =>
    (0, w.setState state { w.heap state with storeValues := assignValue (w.heap state).storeValues sid 0 })

/-- The two caches of a branch, with `value` inserted into the one that `isValid` names. -/
def cacheValue (w : World) (bid : BranchID) (isValid : Bool) (value : Signed) : World :=
  if isValid then
    { w with validStoreValues :=
        Function.update w.validStoreValues bid ((w.validStoreValues bid).insert value) }
  else
    { w with invalidStoreValues :=
        Function.update w.invalidStoreValues bid (some (((w.invalidStoreValues bid).getD []).insert value)) }

def isNewStoreValue (w : World) (state : StateId) (bid : BranchID) (sid : StoreID) : Option (Bool × World) :=
  let (value, w) := w.readStoreValue state sid
  match w.invalidStoreValues bid with
  | none =>
    -- the first value seen for the branch is taken to be the one that covered it
    some (true, { w.cacheValue bid false value with unchecked := w.unchecked ++ [(bid, value)] })
  | some invalid =>
    if value ∈ invalid then some (false, w.cacheValue bid false value)
    else if value ∈ w.validStoreValues bid then some (true, w.cacheValue bid true value)
    else
      match w.bdDep bid with
      | none => none
      | some d => some (d.findNew value, w.cacheValue bid (d.findNew value) (d.testedValue value))

/-- The first loop of `handlePartlyCoveredBranch`: one store of the branch. -/
def addTargetInfo (current : Option StateId) (bid : BranchID) (w : World) (sid : StoreID) : Option World :=
  match current with
  | none => none
  | some cur =>
    let w? := if (findValue (w.heap cur).storeValues sid).isSome then
        (w.isNewStoreValue cur bid sid).map (·.2)
      else some w
    w?.map fun w =>
      w.setState cur { w.heap cur with branchInfos := (w.heap cur).branchInfos ++ [⟨sid, bid⟩] }

/-- A state of `states` in the last loop of `handlePartlyCoveredBranch`; it leaves the vector if its value of the
store is new. -/
def visitState (current : Option StateId) (bid : BranchID) (sid : StoreID) (w : World) (state : StateId) :
    Option (Bool × World) :=
  if some state = current then some (false, w)
  else if (findValue (w.heap state).storeValues sid).isSome then
    match w.isNewStoreValue state bid sid with
    | none => none
    | some (false, w) => some (false, w)
    | some (true, w) =>
      some (true, w.setState state { w.heap state with
        reachBranch := false, reachStore := false,
        branchInfos := (w.heap state).branchInfos ++ [⟨sid, bid⟩] })
  else some (false, w)

/-- The last loop of `handlePartlyCoveredBranch`: the states whose value of the store `sid` is new. -/
def visitStates (current : Option StateId) (bid : BranchID) (w : World) (sid : StoreID) : Option World :=
  match Loops.sweep (visitState current bid sid) w.states w with
  | none => none
  | some (kept, moved, w) => some { w with states := kept, branchStates := w.branchStates ++ moved }

def handlePartlyCoveredBranch (w : World) (current : Option StateId) (targetBID : BranchID) : Option World :=
  match w.bdDep targetBID with
  | none => none
  | some d =>
    match d.stores.foldlM (addTargetInfo current targetBID) w with
    | none => none
    | some w =>
      let w := match current with
        | some cur => w.moveToBranchStates cur
        | none => w
      d.stores.foldlM (visitStates current targetBID) w

/-- The first loop of `handleFullyCoveredBranch`: unlink one store from the covered branch; a store without further
branches is forgotten. -/
def unlinkStore (func : FuncID) (coveredBID : BranchID) (acc : World × List StoreID) (sid : StoreID) :
    World × List StoreID :=
  let (w, removeSv) := acc
  let branches := (w.storetTobranches sid).filter fun b => b ≠ coveredBID
  let w := { w with storetTobranches := Function.update w.storetTobranches sid branches }
  if branches = [] then
    let stores := (w.funcStores func).filter fun SI => some SI ≠ w.id2si sid
    ({ w with funcStores := Function.update w.funcStores func stores }, removeSv ++ [sid])
  else (w, removeSv)

/-- A state of `branchStates` in the second loop of `handleFullyCoveredBranch`; it leaves the vector if it has no
target any more. -/
def visitCovered (current : StateId) (coveredBID : BranchID) (removeSv : List StoreID) (w : World)
    (state : StateId) : Option (Bool × World) :=
  let e := w.heap state
  let e := { e with
    storeValues := e.storeValues.filter fun p => p.1 ∉ removeSv
    branchInfos := e.branchInfos.eraseP fun b => b.targetBranchID = coveredBID }
  some (state ≠ current && e.branchInfos.isEmpty, w.setState state e)

def handleFullyCoveredBranch (w : World) (current : StateId) (coveredBID : BranchID) : Option World :=
  match w.id2bi coveredBID, w.bdDep coveredBID with
  | some I, some d =>
    let (w, removeSv) := d.stores.foldl (unlinkStore (w.kmodule.functionOf I) coveredBID) (w, [])
    match Loops.sweep (visitCovered current coveredBID removeSv) w.branchStates w with
    | none => none
    | some (kept, moved, w) => some { w with branchStates := kept, states := w.states ++ moved }
  | _, _ => none

/-- The rotation: after a fork the current state goes to the back of the vector it is taken from. -/
def rotate (w : World) (current : StateId) (added : List StateId) : Option World :=
  if added = [] then some w
  else if w.branchStates = [] then
    if current ∈ w.states then some { w with states := w.states.erase current ++ [current] } else none
  else
    if current ∈ w.branchStates then
      some { w with branchStates := w.branchStates.erase current ++ [current] }
    else none

/-- The current state has reached a target and a branch has become fully covered. -/
def targetCovered (w : World) (current : StateId) : Option World :=
  match w.fullyCoveredBranches.getLast? with
  | none => none
  | some coveredBID =>
    match w.handleFullyCoveredBranch current coveredBID with
    | none => none
    | some w =>
      let w := if (w.heap current).branchInfos = [] ∧ current ∈ w.branchStates then
          { w with branchStates := w.branchStates.erase current, states := current :: w.states }
        else w
      some { w with newFullyCoveredBranch := false }

/-- Erase the target of the branch that the current state has just left.  `BI2ID` is read with `operator[]`, and a
`switch` is not a `BranchInst`. -/
def dropTarget (w : World) (current : StateId) : World :=
  let prev := (w.heap current).prevPC
  let isBranchInst := (w.kmodule.inst prev).opcode = .br
  let pastBID := if isBranchInst then (w.bi2id prev).getD 0 else 0
  let bInfos := (w.heap current).branchInfos.eraseP fun b => b.targetBranchID = pastBID
  { w.setState current { w.heap current with branchInfos := bInfos } with
    bi2id := if isBranchInst then Function.update w.bi2id prev (some pastBID) else w.bi2id }

/-- The current state has reached a target without covering it: the target is dropped. -/
def targetMissed (w : World) (current : StateId) : World :=
  let w := w.dropTarget current
  if (w.heap current).branchInfos = [] ∧ current ∈ w.branchStates then
    { w with branchStates := w.branchStates.erase current, states := w.states ++ [current] }
  else w

def reachBranchBlock (w : World) (current : StateId) : Option World :=
  if (w.heap current).reachBranch then
    let w? := if w.newFullyCoveredBranch then w.targetCovered current else some (w.targetMissed current)
    w?.map fun w => w.setState current { w.heap current with reachBranch := false }
  else some w

/-- One of the new targets of the current state in the `reachStore` block; it is erased if its value is not new. -/
def visitInfo (current : StateId) (w : World) (bInfo : BranchInfo) : Option (Bool × World) :=
  match w.isNewStoreValue current bInfo.targetBranchID bInfo.reachStoreID with
  | none => none
  | some (true, w) => some (false, w.moveToBranchStates current)
  | some (false, w) => some (true, w)

/-- The `reachStore` block.  The start iterator is in range only if there are at least `newBranchNumFromStore`
targets. -/
def reachStoreBlock (w : World) (current : StateId) : Option World :=
  if (w.heap current).reachStore then
    let bInfos := (w.heap current).branchInfos
    if w.newBranchNumFromStore > bInfos.length then none
    else
      let istart := bInfos.length - w.newBranchNumFromStore
      match Loops.sweep (visitInfo current) (bInfos.drop istart) w with
      | none => none
      | some (kept, _, w) =>
        some { w.setState current { w.heap current with
            branchInfos := bInfos.take istart ++ kept, reachStore := false } with
          newBranchNumFromStore := 0 }
  else some w

def newPartlyBlock (w : World) (current : StateId) : Option World :=
  match w.targetBranches.getLast? with
  | some targetBID =>
    if w.newPartlyCoveredBranch then
      (w.handlePartlyCoveredBranch (some current) targetBID).map fun w => { w with newPartlyCoveredBranch := false }
    else some w
  | none => some w

/-- A state of `branchStates` when the targets are replaced: it loses its targets, and leaves the vector unless it
has covered new code. -/
def visitRefresh (w : World) (state : StateId) : Option (Bool × World) :=
  some (!(w.heap state).coveredNew, w.setState state { w.heap state with branchInfos := [] })

/-- The loop that moves partly covered branches to the targets. -/
def promoteBranches (current : Option StateId) : Nat → World → Option World
  | 0, w => some w
  | n + 1, w =>
    match w.partlyCoveredBranches.getLast? with
    | none => some w
    | some bid =>
      let w := { w with
        partlyCoveredBranches := w.partlyCoveredBranches.dropLast
        targetBranches := w.targetBranches ++ [bid] }
      match w.handlePartlyCoveredBranch current bid with
      | none => none
      | some w => promoteBranches current n w

/-- The block that replaces the target branches. -/
def refreshBlock (w : World) (current : Option StateId) : Option World :=
  if w.updateTargetBranch then
    match Loops.sweep visitRefresh w.branchStates w with
    | none => none
    | some (kept, moved, w) =>
      let w := { w with branchStates := kept, states := w.states ++ moved, targetBranches := [] }
      (promoteBranches current w.targetBranchNum w).map fun w => { w with updateTargetBranch := false }
  else some w

/-- Whether an added state goes to `branchStates`: it has a target, or its block holds a store of the function of
`current` that some branch still depends on. -/
def isPreferred (w : World) (current state : StateId) : Bool :=
  !(w.heap state).branchInfos.isEmpty ||
    (w.funcStores (w.kmodule.functionOf (w.heap current).pc)).any fun SI =>
      !(w.storetTobranches (w.si2id SI)).isEmpty &&
        (w.kmodule.inst SI).parent == (w.kmodule.inst (w.heap state).pc).parent

def insertState (current : Option StateId) (w : World) (state : StateId) : World :=
  match current with
  | none => { w with states := w.states ++ [state] }
  | some cur =>
    if w.isPreferred cur state then { w with branchStates := w.branchStates ++ [state] }
    else { w with states := w.states ++ [state] }

def removeState (w : World) (state : StateId) : World :=
  if state ∈ w.branchStates then { w with branchStates := w.branchStates.erase state }
  else { w with states := w.states.erase state }

/-- The part of `update` for a current state that was not removed. -/
def updateCurrent (w : World) (current : StateId) (added : List StateId) : Option World :=
  (w.rotate current added).bind fun w =>
  (w.reachBranchBlock current).bind fun w =>
  (w.reachStoreBlock current).bind fun w =>
  w.newPartlyBlock current

def update (w : World) (current : Option StateId) (added removed : List StateId) : Option World :=
  let w? := match current with
    | some cur => if cur ∈ removed then some w else w.updateCurrent cur added
    | none => some w
  w?.bind fun w =>
  (w.refreshBlock current).map fun w =>
    removed.foldl removeState (added.foldl (insertState current) w)

end World

end CgsKlee
