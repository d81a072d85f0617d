import CgsKlee.Core.Run

/-!
# The searchers that `constructUserSearcher` builds around `CGSSearcher`

With `cgs` as the first core searcher, the options of the command line can put further core searchers next to it
(`InterleavedSearcher`), keep a selected state for a while (`BatchingSearcher`) and pause states that run for too
long (`IterativeDeepeningTimeSearcher`).  Each wrapper calls `selectState` and `update` of the searcher below it.

`UserSearcher` holds the members of all searcher objects, and the methods of a wrapper that is not there pass on to
the next one.  Random numbers and the readings of the clock are inputs.
-/

namespace CgsKlee

/-- `Searcher::CoreSearchType` without `CGS`; a further `cgs` would be a null pointer. -/
inductive CoreSearchType
  | dfs | bfs | randomState | randomPath | nursCovNew | nursMD2U | nursDepth | nursRP | nursICnt | nursCPICnt | nursQC
deriving DecidableEq, Repr

structure SearchOptions where
  /-- `CoreSearch` after its first entry, which is `cgs`. -/
  coreSearch : List CoreSearchType
  useBatchingSearch : Bool
  batchTime : Nat
  batchInstructions : Nat
  useIterativeDeepeningTimeSearch : Bool
deriving DecidableEq, Repr

/-- How a run of the searchers goes wrong: `eraseEnd` is the `erase` of an `end()` iterator in the rotation of
`CGSSearcher::update`, `other` is any failed assertion or bad access elsewhere. -/
inductive Fault
  | eraseEnd | other
deriving DecidableEq, Repr

/-- What is missing fails elsewhere. -/
def orFail {α : Type} : Option α → Except Fault α
  | none => .error .other
  | some a => .ok a

/-- The members of the searcher objects.  Times are in microseconds. -/
structure UserSearcher where
  /-- The shared memory with the members of `CGSSearcher`. -/
  world : World
  /-- The other searchers of `InterleavedSearcher::searchers`, each with its states. -/
  searchers : List (CoreSearchType × List StateId)
  index : Nat := 1
  -- `BatchingSearcher`
  lastState : Option StateId := none
  lastStartTime : Nat := 0
  lastStartInstructions : Nat := 0
  timeBudget : Nat
  -- `IterativeDeepeningTimeSearcher`
  startTime : Nat := 0
  time : Nat := 1000000
  pausedStates : List StateId := []

/-- The rotation of `CGSSearcher::update` finds the current state in the vector from which it erases it. -/
def World.findsCurrent (w : World) (current : Option StateId) (added removed : List StateId) : Bool :=
  match current with
  | none => true
  | some cur => cur ∈ removed || added.isEmpty ||
      if w.branchStates = [] then cur ∈ w.states else cur ∈ w.branchStates

/-- `CGSSearcher::update`, with its rotation told apart. -/
def World.updateCGS (w : World) (current : Option StateId) (added removed : List StateId) : Except Fault World :=
  if w.findsCurrent current added removed then orFail (w.update current added removed) else .error .eraseEnd

/-- `selectState` of another core searcher; the random ones can return any of their states. -/
def CoreSearchType.selectState (type : CoreSearchType) (choice : Nat) (states : List StateId) : Option StateId :=
  match type with
  | .dfs => states.getLast?
  | .bfs => states.head?
  | _ => states[choice % states.length]?

def eraseState (states : List StateId) (state : StateId) : Except Fault (List StateId) :=
  if state ∈ states then .ok (states.erase state) else .error .other

/-- `bfs` moves a current state that has forked to the back. -/
def CoreSearchType.rotate (type : CoreSearchType) (current : Option StateId) (added removed states : List StateId) :
    Except Fault (List StateId) :=
  match type, current with
  | .bfs, some cur =>
    if added ≠ [] ∧ cur ∉ removed then (eraseState states cur).map (· ++ [cur]) else .ok states
  | _, _ => .ok states

def CoreSearchType.update (type : CoreSearchType) (current : Option StateId) (added removed states : List StateId) :
    Except Fault (List StateId) := do
  let states ← type.rotate current added removed states
  removed.foldlM eraseState (states ++ added)

namespace UserSearcher

def selectCore (o : SearchOptions) (s : UserSearcher) (choice : Nat) : Except Fault (StateId × UserSearcher) :=
  if o.coreSearch = [] then (orFail s.world.selectState).map (·, s)
  else
    let i := s.index - 1
    let index := if i = 0 then s.searchers.length + 1 else i
    if i = 0 then (orFail s.world.selectState).map (·, { s with index })
    else
      match s.searchers[i - 1]? with
      | none => .error .other
      | some (type, states) => (orFail (type.selectState choice states)).map (·, { s with index })

def updateCore (s : UserSearcher) (current : Option StateId) (added removed : List StateId) :
    Except Fault UserSearcher := do
  let world ← s.world.updateCGS current added removed
  let searchers ← s.searchers.mapM fun (type, states) => (type.update current added removed states).map (type, ·)
  .ok { s with world, searchers }

def budgetSpent (o : SearchOptions) (s : UserSearcher) (now instructions : Nat) : Bool :=
  (0 < s.timeBudget && s.timeBudget < now - s.lastStartTime) ||
    (0 < o.batchInstructions && o.batchInstructions < instructions - s.lastStartInstructions)

def selectBatching (o : SearchOptions) (s : UserSearcher) (now instructions choice : Nat) :
    Except Fault (StateId × UserSearcher) :=
  if !o.useBatchingSearch then s.selectCore o choice
  else
    match s.lastState, s.budgetSpent o now instructions with
    | some last, false => .ok (last, s)
    | last?, _ =>
      let delta := now - s.lastStartTime
      let s := if last?.isSome ∧ s.timeBudget * 11 < delta * 10 then { s with timeBudget := delta } else s
      (s.selectCore o choice).map fun (state, s) => (state, { s with
        lastState := some state, lastStartTime := now, lastStartInstructions := instructions })

def updateBatching (o : SearchOptions) (s : UserSearcher) (current : Option StateId) (added removed : List StateId) :
    Except Fault UserSearcher :=
  let drop := o.useBatchingSearch && s.lastState.any (· ∈ removed)
  updateCore { s with lastState := if drop then none else s.lastState } current added removed

/-- `IterativeDeepeningTimeSearcher::selectState`, the outermost one. -/
def selectState (o : SearchOptions) (s : UserSearcher) (now instructions choice : Nat) :
    Except Fault (StateId × UserSearcher) :=
  (s.selectBatching o now instructions choice).map fun (state, s) =>
    (state, if o.useIterativeDeepeningTimeSearch then { s with startTime := now } else s)

def pauseCurrent (o : SearchOptions) (s : UserSearcher) (current : Option StateId) (removed : List StateId)
    (elapsed : Nat) : Except Fault UserSearcher :=
  match current with
  | some cur =>
    if cur ∉ removed ∧ s.time < elapsed then
      let pausedStates := if cur ∈ s.pausedStates then s.pausedStates else s.pausedStates ++ [cur]
      updateBatching o { s with pausedStates } none [] [cur]
    else .ok s
  | none => .ok s

/-- No states left in the underlying searcher: fill it with the paused states, in the order of their addresses. -/
def resumePaused (o : SearchOptions) (s : UserSearcher) (order : List StateId → List StateId) :
    Except Fault UserSearcher :=
  if s.world.empty then
    (updateBatching o { s with time := s.time * 2 } none (order s.pausedStates) []).map fun s =>
      { s with pausedStates := [] }
  else .ok s

/-- `IterativeDeepeningTimeSearcher::update`, the outermost one. -/
def update (o : SearchOptions) (s : UserSearcher) (now : Nat) (order : List StateId → List StateId)
    (current : Option StateId) (added removed : List StateId) : Except Fault UserSearcher :=
  if !o.useIterativeDeepeningTimeSearch then s.updateBatching o current added removed
  else do
    let elapsed := now - s.startTime
    -- paused states are unknown to the underlying searcher
    let alt := removed.filter (· ∉ s.pausedStates)
    let s ← updateBatching o { s with pausedStates := s.pausedStates.filter (· ∉ removed) } current added alt
    let s ← s.pauseCurrent o current removed elapsed
    s.resumePaused o order

/-- The call of `update` after `checkMemoryUsage`. -/
def checkMemory (o : SearchOptions) (s : UserSearcher) (now : Nat) (order : List StateId → List StateId) :
    Option (List StateId) → Except Fault UserSearcher
  | none => .ok s
  | some killed => s.update o now order none [] killed

def construct (o : SearchOptions) (w : World) : UserSearcher :=
  { world := w, searchers := o.coreSearch.map (·, []), timeBudget := o.batchTime }

end UserSearcher

/-- The inputs of an iteration that the wrappers read: the clock when they are called, a random number, and the
order of the addresses of the paused states. -/
structure SearchIteration extends Iteration where
  selectTime : Nat := 0
  updateTime : Nat := 0
  memoryTime : Nat := 0
  choice : Nat := 0
  order : List StateId → List StateId := id

/-- The searchers, the live states, `stats::instructions` and the clock. -/
structure SearchConfig where
  searcher : UserSearcher
  live : List StateId
  instructions : Nat := 0
  clock : Nat := 0

namespace SearchConfig

def select (o : SearchOptions) (c : SearchConfig) (it : SearchIteration) : Except Fault (StateId × UserSearcher) :=
  c.searcher.selectState o it.selectTime c.instructions it.choice

/-- One iteration of the main loop of `Executor::run`. -/
def step (o : SearchOptions) (c : SearchConfig) (it : SearchIteration) : Except Fault SearchConfig := do
  let (cur, s) ← c.select o it
  let w ← orFail (it.action.execute (s.world.begin cur it.toIteration) cur)
  let s ← UserSearcher.update o { s with world := w } it.updateTime it.order (some cur) it.added it.removed
  let s ← s.checkMemory o it.memoryTime it.order it.memory
  .ok
    { searcher := { s with world := { s.world with updateTargetBranch := it.refresh || s.world.updateTargetBranch } }
      live := updateLive (updateLive c.live it.added it.removed) [] (it.memory.getD [])
      instructions := c.instructions + 1
      clock := it.memoryTime }

structure Allowed (o : SearchOptions) (c : SearchConfig) (it : SearchIteration) : Prop where
  admissible : Admissible c.live it.added it.removed
  killed : ∀ s ∈ it.memory.getD [], s ∈ updateLive c.live it.added it.removed
  opcode : it.action.Fits c.searcher.world.kmodule
  order : ∀ cur s, c.select o it = .ok (cur, s) → it.action.Meets (c.searcher.world.heap cur).storeValues
  clock : c.clock ≤ it.selectTime ∧ it.selectTime ≤ it.updateTime ∧ it.updateTime ≤ it.memoryTime
  addresses : ∀ l, (it.order l).Perm l

def Start (o : SearchOptions) (c : SearchConfig) : Prop :=
  ∃ w now order, Loaded w ∧ c.live.Nodup ∧ (∀ l : List StateId, (order l).Perm l) ∧ c.instructions = 0 ∧ now ≤ c.clock ∧
    (UserSearcher.construct o w).update o now order none c.live [] = .ok c.searcher

def Run (o : SearchOptions) (c : SearchConfig) : Prop :=
  ∃ c₀, Start o c₀ ∧ Relation.ReflTransGen (fun c c' => ∃ it, Allowed o c it ∧ c.step o it = .ok c') c₀ c

end SearchConfig

end CgsKlee
