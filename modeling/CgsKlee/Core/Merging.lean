import CgsKlee.Core.SearcherStack

/-!
# Merge regions

A state that runs into `klee_open_merge` gets a `MergeHandler` on its stack, which its forks share.  At
`klee_close_merge` the top handler pauses the state, or merges it into a state that is already there.  When the last
reference to a handler goes away, its destructor continues the paused states.

`Machine` has the members of the `MergingSearcher`, of the handlers and of the `Executor` that hold states.  The
underlying searcher is the list of the states that it has: it was given them and not told to remove them.  A handler
lives while it is on the stack of an `ExecutionState` object, that is, of a state in `states` or in `addedStates`.
Whether two states can be merged, and which open states are quick, are inputs.  A function returns `none` where an
assertion fails, also one of the underlying searcher, or where a deleted state is used.
-/

namespace CgsKlee.Merging

open SearcherStack (eraseFound)

abbrev HandlerId := Nat

structure MergeHandler where
  openStates : List StateId
  reachedCloseMerge : List (InstID × List StateId)
  deriving DecidableEq

namespace MergeHandler

/-- The states that wait at one of the `klee_close_merge` instructions. -/
def waiting (h : MergeHandler) : List StateId := h.reachedCloseMerge.flatMap (·.2)

end MergeHandler

/-- `reachedCloseMerge[mp].push_back(es)` -/
def pushReached (mp : InstID) (es : StateId) : List (InstID × List StateId) → List (InstID × List StateId)
  | [] => [(mp, [es])]
  | group :: groups => if group.1 = mp then (mp, group.2 ++ [es]) :: groups else group :: pushReached mp es groups

/-- `std::swap(*it, list.back()); list.pop_back();` at the place of `x`. -/
def swapPop (list : List Nat) (x : Nat) : Option (List Nat) :=
  match list.getLast? with
  | none => none
  | some back => if x ∈ list then some (list.set (list.idxOf x) back).dropLast else none

structure Machine where
  -- `Executor`
  states : List StateId
  addedStates : List StateId := []
  removedStates : List StateId := []
  /-- The state that is being executed. -/
  current : Option StateId := none
  -- `MergingSearcher`
  base : List StateId
  pausedStates : List StateId := []
  inCloseMerge : List StateId := []
  mergeGroups : List HandlerId := []
  -- the `MergeHandler` objects; the next one to be allocated
  handler : HandlerId → MergeHandler := fun _ => ⟨[], []⟩
  nextHandler : HandlerId := 0
  -- `ExecutionState`
  openMergeStack : StateId → List HandlerId := fun _ => []

namespace Machine

def setHandler (m : Machine) (h : HandlerId) (handler : MergeHandler) : Machine :=
  { m with handler := Function.update m.handler h handler }

def setStack (m : Machine) (es : StateId) (handlers : List HandlerId) : Machine :=
  { m with openMergeStack := Function.update m.openMergeStack es handlers }

/-! ## `MergingSearcher` -/

def updateBase (m : Machine) (addedStates removedStates : List StateId) : Option Machine :=
  (removedStates.foldlM eraseFound (m.base ++ addedStates)).map fun base => { m with base }

def pauseState (m : Machine) (state : StateId) : Option Machine :=
  if state ∈ m.pausedStates then none
  else updateBase { m with pausedStates := m.pausedStates ++ [state] } [] [state]

def continueState (m : Machine) (state : StateId) : Option Machine :=
  if state ∈ m.pausedStates then updateBase { m with pausedStates := m.pausedStates.erase state } [state] [] else none

def updateSearcher (m : Machine) : Option Machine :=
  if m.current.any (· ∈ m.pausedStates) then some m else m.updateBase m.addedStates m.removedStates

/-! ## `MergeHandler` -/

def addOpenState (es : StateId) (m : Machine) (h : HandlerId) : Machine :=
  m.setHandler h { m.handler h with openStates := (m.handler h).openStates ++ [es] }

def removeOpenState (es : StateId) (m : Machine) (h : HandlerId) : Option Machine :=
  (swapPop (m.handler h).openStates es).map fun openStates => m.setHandler h { m.handler h with openStates }

def releaseState (m : Machine) (state : StateId) : Option Machine :=
  (m.continueState state).map fun m => { m with inCloseMerge := m.inCloseMerge.erase state }

def releaseStates (m : Machine) (h : HandlerId) : Option Machine :=
  ((m.handler h).waiting.foldlM releaseState m).map fun m =>
    m.setHandler h { m.handler h with reachedCloseMerge := [] }

def destroyHandler (m : Machine) (h : HandlerId) : Option Machine :=
  match swapPop m.mergeGroups h with
  | none => none
  | some mergeGroups => releaseStates { m with mergeGroups } h

def dropRef (m : Machine) (h : HandlerId) : Option Machine :=
  if (m.states ++ m.addedStates).any fun es => h ∈ m.openMergeStack es then some m else m.destroyHandler h

def deleteState (m : Machine) (es : StateId) : Option Machine :=
  match (m.openMergeStack es).foldlM (removeOpenState es) m with
  | none => none
  | some m' => (m.openMergeStack es).foldlM dropRef (m'.setStack es [])

/-! ## `Executor` -/

def terminateState (m : Machine) (state : StateId) : Option Machine :=
  if state ∈ m.addedStates then deleteState { m with addedStates := m.addedStates.erase state } state
  else some { m with removedStates := m.removedStates ++ [state] }

def eraseState (m : Machine) (es : StateId) : Option Machine :=
  if es ∈ m.states then deleteState { m with states := m.states.erase es } es else none

def updateStates (m : Machine) : Option Machine :=
  match m.updateSearcher with
  | none => none
  | some m =>
    (m.removedStates.foldlM eraseState { m with states := m.states ++ m.addedStates, addedStates := [] }).map
      fun m => { m with removedStates := [], current := none }

/-- A fork: the copy constructor of `ExecutionState` opens the regions for the new state, too. -/
def branch (m : Machine) (state new : StateId) : Machine :=
  let m := (m.openMergeStack state).foldl (addOpenState new) (m.setStack new (m.openMergeStack state))
  { m with addedStates := m.addedStates ++ [new] }

def handleOpenMerge (m : Machine) (state : StateId) : Machine :=
  let h := m.nextHandler
  { (m.setHandler h ⟨[state], []⟩).setStack state (m.openMergeStack state ++ [h]) with
    mergeGroups := m.mergeGroups ++ [h]
    nextHandler := h + 1 }

def waitAt (m : Machine) (h : HandlerId) (es : StateId) (mp : InstID) : Option Machine :=
  pauseState (m.setHandler h { m.handler h with
    reachedCloseMerge := pushReached mp es (m.handler h).reachedCloseMerge }) es

/-- `MergeHandler::addClosedState`; `merge` tells which of the waiting states can be merged with `es`. -/
def addClosedState (m : Machine) (h : HandlerId) (es : StateId) (mp : InstID) (merge : StateId → Bool) :
    Option Machine :=
  match m.removeOpenState es h with
  | none => none
  | some m =>
    match (m.handler h).reachedCloseMerge.find? (·.1 = mp) with
    | none => m.waitAt h es mp
    | some (_, cpv) =>
      if cpv.any merge then
        (m.terminateState es).map fun m => { m with inCloseMerge := m.inCloseMerge.erase es }
      else m.waitAt h es mp

def handleCloseMerge (m : Machine) (state : StateId) (mp : InstID) (merge : StateId → Bool) : Option Machine :=
  match (m.openMergeStack state).getLast? with
  | none => some m
  | some h =>
    if state ∈ m.inCloseMerge then none
    else
      match addClosedState { m with inCloseMerge := state :: m.inCloseMerge } h state mp merge with
      | none => none
      | some m =>
        if state ∈ m.states ++ m.addedStates then
          dropRef (m.setStack state (m.openMergeStack state).dropLast) h
        else none

/-! ## `selectState` -/

/-- What `selectState` reads: an option, whether an open state is quick enough, and the choice of the underlying
searcher. -/
structure SelectInput where
  useIncompleteMerge : Bool := false
  quick : HandlerId → StateId → Bool := fun _ _ => true
  choice : Nat := 0

def getPrioritizeState (m : Machine) (inp : SelectInput) (h : HandlerId) : Option StateId :=
  (m.handler h).openStates.find? fun es => es ∉ m.inCloseMerge && inp.quick h es

/-- The loop over the merge groups. -/
def prioritize (inp : SelectInput) : List HandlerId → Machine → Option (Option StateId × Machine)
  | [], m => some (none, m)
  | h :: hs, m =>
    if (m.handler h).reachedCloseMerge = [] then prioritize inp hs m
    else
      match m.getPrioritizeState inp h with
      | some es => some (some es, m)
      | none =>
        match m.releaseStates h with
        | none => none
        | some m => prioritize inp hs m

def selectState (m : Machine) (inp : SelectInput) : Option (StateId × Machine) :=
  if m.base = [] then none
  else
    match prioritize inp (if inp.useIncompleteMerge then m.mergeGroups else []) m with
    | none => none
    | some (some es, m) => some (es, m)
    | some (none, m) => (m.base[inp.choice % m.base.length]?).map (·, m)

/-! ## Runs -/

inductive Event
  | select (inp : SelectInput)
  | branch (state new : StateId)
  | openMerge (state : StateId)
  | closeMerge (state : StateId) (mp : InstID) (merge : StateId → Bool)
  | terminate (state : StateId)
  | updateStates

def step (m : Machine) : Event → Option Machine
  | .select inp => (m.selectState inp).map fun (es, m) => { m with current := some es }
  | .branch state new => some (m.branch state new)
  | .openMerge state => some (m.handleOpenMerge state)
  | .closeMerge state mp merge => m.handleCloseMerge state mp merge
  | .terminate state => m.terminateState state
  | .updateStates => m.updateStates

/-- A state that executes an instruction: the current one, or one that the instruction has forked.  It does not go on
after it was terminated or paused. -/
def Acts (m : Machine) (state : StateId) : Prop :=
  (m.current = some state ∨ m.current.isSome ∧ state ∈ m.addedStates) ∧ state ∉ m.removedStates ∧
    state ∉ m.pausedStates

/-- What the executor can do.  In the main loop a state is selected, executes an instruction, and the states are
updated.  An instruction terminates its own states; `checkMemoryUsage` and `doDumpStates` terminate any states before
an update without a current state. -/
def Allowed (m : Machine) : Event → Prop
  | .select _ => m.current = none ∧ m.removedStates = [] ∧ m.states ≠ []
  | .branch state new => m.Acts state ∧ new ∉ m.states ++ m.addedStates
  | .openMerge state => m.Acts state
  | .closeMerge state _ _ => m.Acts state
  | .terminate state => state ∉ m.removedStates ∧
      (m.current = some state ∨ m.current.isSome ∧ state ∈ m.addedStates ∨ m.current = none ∧ state ∈ m.states)
  | .updateStates => True

def init (initialStates : List StateId) : Machine := { states := initialStates, base := initialStates }

/-- The machines that the events of `Allowed` lead to. -/
inductive Reachable (initialStates : List StateId) : Machine → Prop
  | start : Reachable initialStates (init initialStates)
  | step {m m' : Machine} {e : Event} (h : Reachable initialStates m) (hok : m.Allowed e)
      (hstep : m.step e = some m') : Reachable initialStates m'

end Machine

end CgsKlee.Merging
