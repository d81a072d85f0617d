import CgsKlee.Core.Partition
import CgsKlee.Core.UserSearcher

/-!
# Stacks of searchers without `CGSSearcher`

`constructUserSearcher` puts an optional `IterativeDeepeningTimeSearcher` over an optional `BatchingSearcher` over one
core searcher, or over an `InterleavedSearcher` of several.  Here the core searchers are those that keep a list of
states of their own: `DFSSearcher`, `BFSSearcher`, `RandomSearcher` and `WeightedRandomSearcher`.

Random numbers, weights, the counter of instructions and every reading of the clock are inputs.  A function returns
`none` where an assertion fails or an empty container is read.
-/

namespace CgsKlee.SearcherStack

inductive WeightType
  | depth | rp | queryCost | instCount | cpInstCount | minDistToUncovered | coveringNew
  deriving DecidableEq, Repr

def WeightType.updateWeights : WeightType → Bool
  | .depth | .rp => false
  | .instCount | .cpInstCount | .queryCost | .minDistToUncovered | .coveringNew => true

/-! ## `DiscretePDF`

The keys of the tree with their weights.  `choose` walks down the tree by sums of the weights, and ends at one of the
keys whatever the weights are. -/

abbrev DiscretePDF (W : Type) := List (StateId × W)

namespace DiscretePDF

variable {W : Type}

def keys (pdf : DiscretePDF W) : List StateId := pdf.map (·.1)

def insert (pdf : DiscretePDF W) (item : StateId) (weight : W) : Option (DiscretePDF W) :=
  if item ∈ pdf.keys then none else some (pdf ++ [(item, weight)])

def update (pdf : DiscretePDF W) (item : StateId) (weight : W) : Option (DiscretePDF W) :=
  if item ∈ pdf.keys then some (pdf.map fun e => if e.1 = item then (item, weight) else e) else none

def remove (pdf : DiscretePDF W) (item : StateId) : Option (DiscretePDF W) :=
  if item ∈ pdf.keys then some (pdf.eraseP fun e => e.1 = item) else none

def choose (pdf : DiscretePDF W) (choice : Nat) : Option StateId := (pdf.keys)[choice % pdf.length]?

end DiscretePDF

/-! ## Core searchers -/

inductive CoreSearcher (W : Type)
  | dfs (states : List StateId)
  | bfs (states : List StateId)
  | random (states : List StateId)
  | weightedRandom (type : WeightType) (states : DiscretePDF W)

/-- `states.erase(std::find(states.begin(), states.end(), state))` -/
def eraseFound (states : List StateId) (state : StateId) : Option (List StateId) :=
  if state ∈ states then some (states.erase state) else none

/-- The removal of one state in `DFSSearcher::update`. -/
def removeDfs (states : List StateId) (state : StateId) : Option (List StateId) :=
  match states.getLast? with
  | none => none
  | some back => if state = back then some states.dropLast else eraseFound states state

/-- The removal of one state in `BFSSearcher::update`. -/
def removeBfs (states : List StateId) (state : StateId) : Option (List StateId) :=
  match states with
  | [] => none
  | front :: rest => if state = front then some rest else eraseFound states state

/-- The current state of `BFSSearcher::update` goes to the back if it has forked. -/
def rotateBfs (states : List StateId) (current : Option StateId) (addedStates removedStates : List StateId) :
    Option (List StateId) :=
  match current with
  | none => some states
  | some cur =>
    if addedStates ≠ [] ∧ cur ∉ removedStates then (eraseFound states cur).map (· ++ [cur]) else some states

/-- The current state of `WeightedRandomSearcher::update` gets a new weight. -/
def reweigh {W : Type} (type : WeightType) (getWeight : WeightType → StateId → W) (states : DiscretePDF W)
    (current : Option StateId) (removedStates : List StateId) : Option (DiscretePDF W) :=
  match current with
  | none => some states
  | some cur =>
    if type.updateWeights ∧ cur ∉ removedStates then states.update cur (getWeight type cur) else some states

namespace CoreSearcher

variable {W : Type}

def held : CoreSearcher W → List StateId
  | dfs states | bfs states | random states => states
  | weightedRandom _ states => states.keys

def selectState (s : CoreSearcher W) (choice : Nat) : Option StateId :=
  match s with
  | dfs states => states.getLast?
  | bfs states => states.head?
  | random states => states[choice % states.length]?
  | weightedRandom _ states => states.choose choice

def update (getWeight : WeightType → StateId → W) (s : CoreSearcher W) (current : Option StateId)
    (addedStates removedStates : List StateId) : Option (CoreSearcher W) :=
  match s with
  | dfs states => (removedStates.foldlM removeDfs (states ++ addedStates)).map dfs
  | bfs states => do
    let states ← rotateBfs states current addedStates removedStates
    let states ← removedStates.foldlM removeBfs (states ++ addedStates)
    return bfs states
  | random states => (removedStates.foldlM eraseFound (states ++ addedStates)).map random
  | weightedRandom type states => do
    let states ← reweigh type getWeight states current removedStates
    let states ← addedStates.foldlM (fun pdf state => pdf.insert state (getWeight type state)) states
    let states ← removedStates.foldlM DiscretePDF.remove states
    return weightedRandom type states

def empty : CoreSearcher W → Bool
  | dfs states | bfs states | random states => states.isEmpty
  | weightedRandom _ states => List.isEmpty states

end CoreSearcher

def getNewSearcher (W : Type) : CoreSearchType → Option (CoreSearcher W)
  | .dfs => some (.dfs [])
  | .bfs => some (.bfs [])
  | .randomState => some (.random [])
  | .randomPath => none
  | .nursCovNew => some (.weightedRandom .coveringNew [])
  | .nursMD2U => some (.weightedRandom .minDistToUncovered [])
  | .nursDepth => some (.weightedRandom .depth [])
  | .nursRP => some (.weightedRandom .rp [])
  | .nursICnt => some (.weightedRandom .instCount [])
  | .nursCPICnt => some (.weightedRandom .cpInstCount [])
  | .nursQC => some (.weightedRandom .queryCost [])

/-! ## `InterleavedSearcher` -/

inductive Base (W : Type)
  | core (searcher : CoreSearcher W)
  | interleaved (searchers : List (CoreSearcher W)) (index : Nat)

namespace Base

variable {W : Type}

def cores : Base W → List (CoreSearcher W)
  | core searcher => [searcher]
  | interleaved searchers _ => searchers

def selectState (s : Base W) (choice : Nat) : Option (StateId × Base W) :=
  match s with
  | core searcher => (searcher.selectState choice).map (·, s)
  | interleaved searchers index => do
    let index := index - 1
    let searcher ← searchers[index]?
    let state ← searcher.selectState choice
    return (state, interleaved searchers (if index = 0 then searchers.length else index))

def update (getWeight : WeightType → StateId → W) (s : Base W) (current : Option StateId)
    (addedStates removedStates : List StateId) : Option (Base W) :=
  match s with
  | core searcher => (searcher.update getWeight current addedStates removedStates).map core
  | interleaved searchers index =>
    (searchers.mapM fun s : CoreSearcher W => s.update getWeight current addedStates removedStates).map
      (interleaved · index)

def empty : Base W → Bool
  | core searcher => searcher.empty
  | interleaved searchers _ => searchers.head?.all (·.empty)

end Base

/-! ## `BatchingSearcher` -/

/-- What `selectState` reads: the clock at each of its calls, `stats::instructions` and a random number. -/
structure SelectInput where
  budgetTime : Int := 0
  deltaTime : Int := 0
  lastStartTime : Int := 0
  startTime : Int := 0
  instructions : BitVec 64 := 0
  choice : Nat := 0

/-- What `update` reads: the clock, the weights of the states, and the order of a `std::set` of pointers. -/
structure UpdateInput (W : Type) where
  now : Int
  getWeight : WeightType → StateId → W
  order : List StateId → List StateId

/-- The members of a `BatchingSearcher`.  Times are in microseconds. -/
structure BatchingSearcher (W : Type) where
  baseSearcher : Base W
  timeBudget : Int
  instructionBudget : BitVec 32
  lastState : Option StateId := none
  lastStartTime : Int := 0
  lastStartInstructions : BitVec 32 := 0

namespace BatchingSearcher

variable {W : Type}

/-- One of the budgets of the last state is used up. -/
def budgetSpent (s : BatchingSearcher W) (inp : SelectInput) : Bool :=
  (0 < s.timeBudget && s.timeBudget < inp.budgetTime - s.lastStartTime) ||
    (0 < s.instructionBudget &&
      s.instructionBudget.setWidth 64 < inp.instructions - s.lastStartInstructions.setWidth 64)

/-- The time budget grows if the last state has used much more. -/
def raiseBudget (s : BatchingSearcher W) (inp : SelectInput) : Int :=
  let delta := inp.deltaTime - s.lastStartTime
  if s.lastState.isSome ∧ s.timeBudget * 11 / 10 < delta then delta else s.timeBudget

def selectState (s : BatchingSearcher W) (inp : SelectInput) : Option (StateId × BatchingSearcher W) :=
  match s.lastState, s.budgetSpent inp with
  | some last, false => some (last, s)
  | _, _ => do
    let (state, base) ← s.baseSearcher.selectState inp.choice
    return (state, { s with
      baseSearcher := base
      timeBudget := s.raiseBudget inp
      lastState := some state
      lastStartTime := inp.lastStartTime
      lastStartInstructions := inp.instructions.setWidth 32 })

def update (getWeight : WeightType → StateId → W) (s : BatchingSearcher W) (current : Option StateId)
    (addedStates removedStates : List StateId) : Option (BatchingSearcher W) := do
  let lastState := if s.lastState.any (· ∈ removedStates) then none else s.lastState
  let base ← s.baseSearcher.update getWeight current addedStates removedStates
  return { s with baseSearcher := base, lastState }

end BatchingSearcher

inductive Batched (W : Type)
  | plain (searcher : Base W)
  | batching (searcher : BatchingSearcher W)

namespace Batched

variable {W : Type}

def base : Batched W → Base W
  | plain searcher => searcher
  | batching searcher => searcher.baseSearcher

def selectState (s : Batched W) (inp : SelectInput) : Option (StateId × Batched W) :=
  match s with
  | plain searcher => (searcher.selectState inp.choice).map fun (state, s) => (state, plain s)
  | batching searcher => (searcher.selectState inp).map fun (state, s) => (state, batching s)

def update (getWeight : WeightType → StateId → W) (s : Batched W) (current : Option StateId)
    (addedStates removedStates : List StateId) : Option (Batched W) :=
  match s with
  | plain searcher => (searcher.update getWeight current addedStates removedStates).map plain
  | batching searcher => (searcher.update getWeight current addedStates removedStates).map batching

def empty (s : Batched W) : Bool := s.base.empty

end Batched

/-! ## `IterativeDeepeningTimeSearcher` -/

structure IterativeDeepeningTimeSearcher (W : Type) where
  baseSearcher : Batched W
  startTime : Int := 0
  time : Int := 1000000
  pausedStates : List StateId := []

namespace IterativeDeepeningTimeSearcher

variable {W : Type}

def selectState (s : IterativeDeepeningTimeSearcher W) (inp : SelectInput) :
    Option (StateId × IterativeDeepeningTimeSearcher W) := do
  let (state, base) ← s.baseSearcher.selectState inp
  return (state, { s with baseSearcher := base, startTime := inp.startTime })

/-- One removed state of the loop in `update`: a paused state is unknown to the underlying searcher. -/
def filterPaused (acc : List StateId × List StateId) (state : StateId) : List StateId × List StateId :=
  let (pausedStates, alt) := acc
  if state ∈ pausedStates then (pausedStates.erase state, alt.filter (· ≠ state)) else (pausedStates, alt)

def updateBase (inp : UpdateInput W) (s : IterativeDeepeningTimeSearcher W) (current : Option StateId)
    (addedStates removedStates : List StateId) : Option (IterativeDeepeningTimeSearcher W) :=
  if removedStates ≠ [] then do
    let (pausedStates, alt) := removedStates.foldl filterPaused (s.pausedStates, removedStates)
    let base ← s.baseSearcher.update inp.getWeight current addedStates alt
    return { s with baseSearcher := base, pausedStates }
  else do
    let base ← s.baseSearcher.update inp.getWeight current addedStates removedStates
    return { s with baseSearcher := base }

/-- The second part of `update`: the current state is paused if its time is exceeded. -/
def pauseCurrent (inp : UpdateInput W) (elapsed : Int) (s : IterativeDeepeningTimeSearcher W)
    (current : Option StateId) (removedStates : List StateId) : Option (IterativeDeepeningTimeSearcher W) :=
  match current with
  | none => some s
  | some cur =>
    if cur ∉ removedStates ∧ s.time < elapsed then do
      let base ← s.baseSearcher.update inp.getWeight none [] [cur]
      return { s with baseSearcher := base, pausedStates := s.pausedStates.insert cur }
    else some s

def resumePaused (inp : UpdateInput W) (s : IterativeDeepeningTimeSearcher W) :
    Option (IterativeDeepeningTimeSearcher W) :=
  if s.baseSearcher.empty then do
    let base ← s.baseSearcher.update inp.getWeight none (inp.order s.pausedStates) []
    return { s with baseSearcher := base, time := s.time * 2, pausedStates := [] }
  else some s

def update (inp : UpdateInput W) (s : IterativeDeepeningTimeSearcher W) (current : Option StateId)
    (addedStates removedStates : List StateId) : Option (IterativeDeepeningTimeSearcher W) := do
  let elapsed := inp.now - s.startTime
  let s ← s.updateBase inp current addedStates removedStates
  let s ← s.pauseCurrent inp elapsed current removedStates
  s.resumePaused inp

def empty (s : IterativeDeepeningTimeSearcher W) : Bool := s.baseSearcher.empty && s.pausedStates.isEmpty

end IterativeDeepeningTimeSearcher

/-! ## The whole stack -/

/-- What `constructUserSearcher` returns. -/
inductive Stack (W : Type)
  | plain (searcher : Batched W)
  | deepening (searcher : IterativeDeepeningTimeSearcher W)

namespace Stack

variable {W : Type}

def batched : Stack W → Batched W
  | plain searcher => searcher
  | deepening searcher => searcher.baseSearcher

def cores (s : Stack W) : List (CoreSearcher W) := s.batched.base.cores

def paused : Stack W → List StateId
  | plain _ => []
  | deepening searcher => searcher.pausedStates

def selectState (s : Stack W) (inp : SelectInput) : Option (StateId × Stack W) :=
  match s with
  | plain searcher => (searcher.selectState inp).map fun (state, s) => (state, plain s)
  | deepening searcher => (searcher.selectState inp).map fun (state, s) => (state, deepening s)

def update (inp : UpdateInput W) (s : Stack W) (current : Option StateId) (addedStates removedStates : List StateId) :
    Option (Stack W) :=
  match s with
  | plain searcher => (searcher.update inp.getWeight current addedStates removedStates).map plain
  | deepening searcher => (searcher.update inp current addedStates removedStates).map deepening

def empty : Stack W → Bool
  | plain searcher => searcher.empty
  | deepening searcher => searcher.empty

end Stack

/-- The command line options that `constructUserSearcher` reads. -/
structure Options where
  coreSearch : List CoreSearchType
  useBatchingSearch : Bool
  batchTime : Int
  batchInstructions : BitVec 32
  useIterativeDeepeningTimeSearch : Bool

def constructUserSearcher (W : Type) (o : Options) : Option (Stack W) := do
  let searchers ← o.coreSearch.mapM (getNewSearcher W)
  let first ← searchers.head?
  let base : Base W := if 1 < o.coreSearch.length then .interleaved searchers 1 else .core first
  let batched : Batched W :=
    if o.useBatchingSearch then
      .batching { baseSearcher := base, timeBudget := o.batchTime, instructionBudget := o.batchInstructions }
    else .plain base
  return if o.useIterativeDeepeningTimeSearch then .deepening { baseSearcher := batched } else .plain batched

/-! ## Runs -/

/-- What the executor does with the searcher: one round of its main loop up to `updateStates(&state)`, or an update
without a current state. -/
inductive Event (W : Type)
  | round (sel : SelectInput) (upd : UpdateInput W) (addedStates removedStates : List StateId)
  | update (upd : UpdateInput W) (addedStates removedStates : List StateId)

namespace Event

variable {W : Type}

def upd : Event W → UpdateInput W
  | round _ upd _ _ | update upd _ _ => upd

def added : Event W → List StateId
  | round _ _ addedStates _ | update _ addedStates _ => addedStates

def removed : Event W → List StateId
  | round _ _ _ removedStates | update _ _ removedStates => removedStates

end Event

/-- The searcher and the live states. -/
structure Config (W : Type) where
  searcher : Stack W
  live : List StateId

namespace Config

variable {W : Type}

def step (c : Config W) : Event W → Option (Config W)
  | .round sel upd addedStates removedStates => do
    let (cur, s) ← c.searcher.selectState sel
    let s ← s.update upd (some cur) addedStates removedStates
    return ⟨s, updateLive c.live addedStates removedStates⟩
  | .update upd addedStates removedStates => do
    let s ← c.searcher.update upd none addedStates removedStates
    return ⟨s, updateLive c.live addedStates removedStates⟩

/-- Added states are fresh and removed states are live, and no state is in the two lists twice.  The main loop goes on
while a state is live.  A `std::set` lists its elements in some order. -/
structure Allowed (c : Config W) (e : Event W) : Prop where
  added_nodup : e.added.Nodup
  added_fresh : ∀ state ∈ e.added, state ∉ c.live
  removed_nodup : e.removed.Nodup
  removed_live : ∀ state ∈ e.removed, state ∈ c.live
  order : ∀ states, (e.upd.order states).Perm states
  running : ∀ sel upd added removed, e = .round sel upd added removed → c.live ≠ []

/-- The configurations of a run, which starts with a new searcher and no states. -/
inductive Reachable (o : Options) : Config W → Prop
  | start {s : Stack W} (h : constructUserSearcher W o = some s) : Reachable o ⟨s, []⟩
  | step {c c' : Config W} {e : Event W} (h : Reachable o c) (hok : c.Allowed e) (hstep : c.step e = some c') :
      Reachable o c'

end Config

end CgsKlee.SearcherStack
