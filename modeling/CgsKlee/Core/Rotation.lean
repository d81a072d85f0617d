import CgsKlee.Core.UserSearcher

/-!
# The rotation of `CGSSearcher` under the wrappers

After a fork `CGSSearcher::update` erases the current state from the vector from which its own `selectState` would
have taken it, without a check that it is there.  Without a batching searcher and without a second core searcher
the current state is the one that `CGSSearcher` has just selected, and it is there.  Every other combination of
options has a run in which the wrapper returns a state of `states` while `branch_states` is not empty.
-/

namespace CgsKlee

def Safe {α : Type} (x : Except Fault α) : Prop := x ≠ .error .eraseEnd

section Safe

variable {α β : Type}

theorem safe_ok (a : α) : Safe (.ok a : Except Fault α) := by
  intro h
  cases h

theorem safe_other : Safe (.error .other : Except Fault α) := by
  intro h
  cases h

theorem safe_orFail (x : Option α) : Safe (orFail x) := by
  cases x with
  | none => exact safe_other
  | some a => exact safe_ok a

theorem Safe.bind {x : Except Fault α} {f : α → Except Fault β} (hx : Safe x) (hf : ∀ a, x = .ok a → Safe (f a)) :
    Safe (x >>= f) := by
  cases x with
  | error e =>
    cases e with
    | eraseEnd => exact (hx rfl).elim
    | other => exact safe_other
  | ok a => exact hf a rfl

theorem Safe.map {x : Except Fault α} (f : α → β) (hx : Safe x) : Safe (x.map f) := by
  cases x with
  | error e =>
    cases e with
    | eraseEnd => exact (hx rfl).elim
    | other => exact safe_other
  | ok a => exact safe_ok _

theorem safe_mapM {f : α → Except Fault β} (hf : ∀ a, Safe (f a)) (l : List α) : Safe (l.mapM f) := by
  induction l with
  | nil => exact safe_ok _
  | cons a l ih =>
    rw [List.mapM_cons]
    exact (hf a).bind fun _ _ => ih.bind fun _ _ => safe_ok _

theorem safe_foldlM {f : β → α → Except Fault β} (hf : ∀ b a, Safe (f b a)) (l : List α) (b : β) :
    Safe (l.foldlM f b) := by
  induction l generalizing b with
  | nil => exact safe_ok _
  | cons a l ih =>
    rw [List.foldlM_cons]
    exact (hf b a).bind fun _ _ => ih _

end Safe

theorem safe_eraseState (states : List StateId) (state : StateId) : Safe (eraseState states state) := by
  unfold eraseState
  split
  · exact safe_ok _
  · exact safe_other

theorem CoreSearchType.safe_update (type : CoreSearchType) (current : Option StateId)
    (added removed states : List StateId) : Safe (type.update current added removed states) := by
  unfold CoreSearchType.update
  refine Safe.bind ?_ fun _ _ => safe_foldlM safe_eraseState _ _
  unfold CoreSearchType.rotate
  split
  · split
    · exact (safe_eraseState _ _).map _
    · exact safe_ok _
  · exact safe_ok _

namespace UserSearcher

variable {o : SearchOptions} {s : UserSearcher} {current : Option StateId} {added removed : List StateId}

theorem safe_updateCore (h : s.world.findsCurrent current added removed) :
    Safe (s.updateCore current added removed) := by
  unfold updateCore
  refine Safe.bind ?_ fun w _ => Safe.bind (safe_mapM (fun e => ?_) _) fun _ _ => safe_ok _
  · unfold World.updateCGS
    rw [if_pos h]
    exact safe_orFail _
  · exact (CoreSearchType.safe_update _ _ _ _ _).map _

theorem safe_updateBatching (h : s.world.findsCurrent current added removed) :
    Safe (s.updateBatching o current added removed) := safe_updateCore h

theorem safe_update {now : Nat} {order : List StateId → List StateId}
    (h : ∀ removed, s.world.findsCurrent current added removed) :
    Safe (s.update o now order current added removed) := by
  unfold update
  split
  · exact safe_updateBatching (h removed)
  · refine Safe.bind (safe_updateBatching (h _)) fun s₁ _ => Safe.bind ?_ fun s₂ _ => ?_
    · unfold pauseCurrent
      split
      · split
        · exact safe_updateBatching rfl
        · exact safe_ok _
      · exact safe_ok _
    · unfold resumePaused
      split
      · exact Safe.map _ (safe_updateBatching rfl)
      · exact safe_ok _

theorem selectState_eq {s' : UserSearcher} {now instructions choice : Nat} {cur : StateId}
    (hb : o.useBatchingSearch = false) (hs : o.coreSearch = [])
    (h : s.selectState o now instructions choice = .ok (cur, s')) :
    s.world.selectState = some cur ∧ s'.world = s.world := by
  unfold selectState selectBatching selectCore at h
  rw [hb, hs] at h
  simp only [Bool.not_false, if_true] at h
  cases hw : s.world.selectState with
  | none => simp [hw, orFail, Except.map] at h
  | some e =>
    simp only [hw, orFail, Except.map, Except.ok.injEq, Prod.mk.injEq] at h
    obtain ⟨rfl, rfl⟩ := h
    refine ⟨rfl, ?_⟩
    split <;> rfl

end UserSearcher

theorem World.findsCurrent_of_selectState {w : World} {cur : StateId} (h : w.selectState = some cur)
    (added removed : List StateId) : w.findsCurrent (some cur) added removed := by
  unfold World.selectState at h
  simp only [World.findsCurrent, Bool.or_eq_true]
  right
  split
  · rename_i hb
    rw [hb] at h
    simpa using List.mem_of_head? h
  · rename_i hb
    obtain ⟨a, l, hl⟩ := List.exists_cons_of_ne_nil hb
    rw [hl] at h ⊢
    cases h
    simp

namespace SearchConfig

variable {o : SearchOptions} {c : SearchConfig} {it : SearchIteration}

theorem safe_select : Safe (c.select o it) := by
  have hcore : ∀ s : UserSearcher, Safe (s.selectCore o it.choice) := by
    intro s
    unfold UserSearcher.selectCore
    split
    · exact (safe_orFail _).map _
    · dsimp only
      split
      · exact (safe_orFail _).map _
      · split
        · exact safe_other
        · exact (safe_orFail _).map _
  unfold select UserSearcher.selectState UserSearcher.selectBatching
  refine Safe.map _ ?_
  split
  · exact hcore _
  · split
    · exact safe_ok _
    · exact (hcore _).map _

theorem safe_step
    (h : ∀ cur s, c.select o it = .ok (cur, s) → s.world.selectState = some cur) : Safe (c.step o it) := by
  unfold step
  refine safe_select.bind fun ⟨cur, s⟩ hsel => (safe_orFail _).bind fun w hw => Safe.bind ?_ fun s₂ _ => ?_
  · apply UserSearcher.safe_update
    intro removed
    have hexec : it.action.execute (s.world.begin cur it.toIteration) cur = some w := by
      cases hx : it.action.execute (s.world.begin cur it.toIteration) cur with
      | none =>
        rw [hx] at hw
        cases hw
      | some w' =>
        rw [hx] at hw
        cases hw
        rfl
    -- the handlers do not touch the vectors of the searcher
    have hframe := Action.execute_frame hexec
    have hcur : w.selectState = some cur := by
      have hs := h cur s hsel
      have hv : w.states = s.world.states ∧ w.branchStates = s.world.branchStates := by
        rw [hframe.rest]
        exact ⟨rfl, rfl⟩
      unfold World.selectState at hs ⊢
      rw [hv.1, hv.2]
      exact hs
    exact World.findsCurrent_of_selectState hcur _ _
  · refine Safe.bind ?_ fun _ _ => safe_ok _
    unfold UserSearcher.checkMemory
    split
    · exact safe_ok _
    · exact UserSearcher.safe_update fun _ => rfl

end SearchConfig

/-! ### With a wrapper that chooses

A `switch` with four targets; the third one holds the only store that a branch depends on. -/

def fourTargets : World :=
  { (default : World) with
    kmodule := ⟨[⟨.switch, 0, []⟩, ⟨.other, 1, []⟩, ⟨.other, 2, []⟩, ⟨.icmp, 2, [.inst 2, .constantInt 5]⟩,
      ⟨.br, 2, [.inst 3]⟩, ⟨.other, 3, []⟩, ⟨.other, 4, []⟩], fun _ => 0⟩
    bdDep := fun b => if b = 1 then some (.ofBr .eq [1]) else none
    id2bi := fun b => if b = 1 then some 4 else none
    bi2id := fun i => if i = 4 then some 1 else none
    id2si := fun s => if s = 1 then some 2 else none
    si2id := fun i => if i = 2 then 1 else 0
    storetTobranches := fun s => if s = 1 then [1] else []
    funcStores := fun _ => [2]
    targetBranchNum := 1
    maxReachBranchCount := 3 }

theorem fourTargets_loaded : Loaded fourTargets where
  reachStore _ := rfl
  reachBranch _ := rfl
  branch i b h := by
    simp only [fourTargets] at h ⊢
    split at h
    · cases h; simp [*]
    · cases h
  targetBranches := rfl
  partlyCoveredBranches := rfl
  fullyCoveredBranches := rfl
  updateTargetBranch := rfl
  newFullyCoveredBranch := rfl
  newPartlyCoveredBranch := rfl
  newBranchNumFromStore := rfl
  invalidStoreValues _ := rfl
  validStoreValues _ := rfl
  states := rfl
  branchStates := rfl

/-- The first iteration: the state `0` forks at the `switch`, and `2` is at the block with the store. -/
def forkAtSwitch : SearchIteration where
  action := .other 0
  added := [1, 2, 3]
  view := fun s => if s = 0 then (6, false) else if s = 1 then (1, false) else if s = 2 then (2, false) else (5, false)

def forkAgain : SearchIteration where
  action := .other 6
  added := [4]
  view := forkAtSwitch.view
  choice := 1

namespace UserSearcher

variable {o : SearchOptions} {s s' : UserSearcher} {current : Option StateId} {added : List StateId} {now : Nat}

private theorem updateBatching_eq (o : SearchOptions) (s : UserSearcher) (current : Option StateId)
    (added : List StateId) : s.updateBatching o current added [] = s.updateCore current added [] := by
  have hd : (o.useBatchingSearch && s.lastState.any (· ∈ ([] : List StateId))) = false := by
    cases s.lastState <;> simp
  simp only [updateBatching, hd]
  rfl

private theorem update_of_updateCore (hp : s.pausedStates = []) (ht : now - s.startTime ≤ s.time)
    (h : s.updateCore current added [] = .ok s') (ht' : s'.time = s.time) (hne : s'.world.states ≠ []) :
    s.update o now id current added [] = .ok s' := by
  unfold update
  split
  · rw [updateBatching_eq, h]
  · have hs : { s with pausedStates := s.pausedStates.filter (· ∉ ([] : List StateId)) } = s := by
      cases s
      simp_all
    have hpause : s'.pauseCurrent o current [] (now - s.startTime) = .ok s' := by
      unfold pauseCurrent
      split
      · rw [if_neg (by rw [ht']; omega)]
      · rfl
    simp only [List.filter_nil, hs, updateBatching_eq, h, bind, Except.bind, hpause]
    simp [resumePaused, World.empty, hne]

private theorem update_of_error {e : Fault} (hp : s.pausedStates = [])
    (h : s.updateCore current added [] = .error e) : s.update o now id current added [] = .error e := by
  unfold update
  split
  · rw [updateBatching_eq, h]
  · have hs : { s with pausedStates := s.pausedStates.filter (· ∉ ([] : List StateId)) } = s := by
      cases s
      simp_all
    simp only [List.filter_nil, hs, updateBatching_eq, h, bind, Except.bind]

private theorem mapM_searchers {l l' : List StateId} (h : ∀ type : CoreSearchType, type.update current added [] l = .ok l')
    (types : List CoreSearchType) :
    ((types.map (·, l)).mapM fun (e : CoreSearchType × List StateId) =>
      (e.1.update current added [] e.2).map (e.1, ·)) = .ok (types.map (·, l')) := by
  induction types with
  | nil => rfl
  | cons type types ih =>
    rw [List.map_cons, List.mapM_cons, ih, h]
    rfl

private theorem updateCore_of_world {w : World} {types : List CoreSearchType} {l l' : List StateId}
    (hs : s.searchers = types.map (·, l)) (hw : s.world.updateCGS current added [] = .ok w)
    (h : ∀ type : CoreSearchType, type.update current added [] l = .ok l') :
    s.updateCore current added [] = .ok { s with world := w, searchers := types.map (·, l') } := by
  have hm := mapM_searchers h types
  rw [← hs] at hm
  simp only [updateCore, hw, bind, Except.bind]
  rw [hm]

end UserSearcher

namespace SearchConfig

variable (o : SearchOptions)

/-- The configuration in which the main loop starts, with the initial state `0`. -/
private def atSwitch : SearchConfig where
  searcher := { UserSearcher.construct o { fourTargets with states := [0] } with
    searchers := o.coreSearch.map (·, [0]) }
  live := [0]

private theorem atSwitch_start : Start o (atSwitch o) := by
  refine ⟨fourTargets, 0, id, fourTargets_loaded, by simp [atSwitch], fun l => List.Perm.refl l, rfl, Nat.le_refl _, ?_⟩
  refine UserSearcher.update_of_updateCore rfl (by simp) ?_ rfl (List.cons_ne_nil 0 [])
  exact UserSearcher.updateCore_of_world rfl rfl fun type => by cases type <;> rfl

private theorem atSwitch_select : ∃ s, (atSwitch o).select o forkAtSwitch = .ok (0, s) ∧
    s.world = { fourTargets with states := [0] } ∧ s.searchers = o.coreSearch.map (·, [0]) ∧
    (o.coreSearch ≠ [] → s.index = o.coreSearch.length + 1) ∧ s.pausedStates = [] ∧ s.startTime = 0 ∧
    s.time = 1000000 ∧
    (o.useBatchingSearch → s.lastState = some 0 ∧ s.lastStartTime = 0 ∧ s.lastStartInstructions = 0) := by
  obtain ⟨types, batching, time, instructions, deepening⟩ := o
  cases batching <;> cases deepening <;> cases types with
  | nil => exact ⟨_, rfl, rfl, rfl, by simp, rfl, rfl, rfl, by simp [atSwitch, forkAtSwitch]⟩
  | cons type types =>
    exact ⟨_, rfl, rfl, rfl, by simp [atSwitch, UserSearcher.construct], rfl, rfl, rfl,
      by simp [atSwitch, forkAtSwitch]⟩

private theorem atSwitch_step : ∃ c, (atSwitch o).step o forkAtSwitch = .ok c ∧
    c.searcher.world.states = [0, 1, 3] ∧ c.searcher.world.branchStates = [2] ∧ c.live = [0, 1, 2, 3] ∧
    c.instructions = 1 ∧ c.clock = 0 ∧ c.searcher.world.kmodule = fourTargets.kmodule ∧
    c.searcher.searchers = o.coreSearch.map (·, [0, 1, 2, 3]) ∧
    (o.coreSearch ≠ [] → c.searcher.index = o.coreSearch.length + 1) ∧ c.searcher.pausedStates = [] ∧
    (o.useBatchingSearch → c.searcher.lastState = some 0 ∧ c.searcher.lastStartTime = 0 ∧
      c.searcher.lastStartInstructions = 0) := by
  obtain ⟨s, hsel, hw, hs, hindex, hp, hstart, htime, hlast⟩ := atSwitch_select o
  obtain ⟨w, hu, hst, hbr, hk⟩ : ∃ w, ({ fourTargets with states := [0] }.begin 0 forkAtSwitch.toIteration).updateCGS
      (some 0) [1, 2, 3] [] = .ok w ∧ w.states = [0, 1, 3] ∧ w.branchStates = [2] ∧
      w.kmodule = fourTargets.kmodule := ⟨_, rfl, rfl, rfl, rfl⟩
  have hcore : UserSearcher.updateCore { s with world := s.world.begin 0 forkAtSwitch.toIteration } (some 0)
      [1, 2, 3] [] = .ok { s with world := w, searchers := o.coreSearch.map (·, [0, 1, 2, 3]) } :=
    UserSearcher.updateCore_of_world hs (by rw [hw]; exact hu) fun type => by cases type <;> rfl
  have hupdate : UserSearcher.update o { s with world := s.world.begin 0 forkAtSwitch.toIteration } 0 id (some 0)
      [1, 2, 3] [] = .ok { s with world := w, searchers := o.coreSearch.map (·, [0, 1, 2, 3]) } :=
    UserSearcher.update_of_updateCore hp (by simp) hcore rfl (by simp [hst])
  refine ⟨⟨{ s with
    world := { w with updateTargetBranch := false || w.updateTargetBranch }
    searchers := o.coreSearch.map (·, [0, 1, 2, 3]) }, [0, 1, 2, 3], 1, 0⟩, ?_, hst, hbr, rfl, rfl, rfl, hk, rfl, hindex,
    hp, hlast⟩
  simp only [step, hsel, bind, Except.bind]
  have hexec : orFail (forkAtSwitch.action.execute (s.world.begin 0 forkAtSwitch.toIteration) 0) =
    .ok (s.world.begin 0 forkAtSwitch.toIteration) := rfl
  simp only [hexec]
  have hupdate' : UserSearcher.update o { s with world := s.world.begin 0 forkAtSwitch.toIteration }
      forkAtSwitch.updateTime forkAtSwitch.order (some 0) forkAtSwitch.added forkAtSwitch.removed =
      .ok { s with world := w, searchers := o.coreSearch.map (·, [0, 1, 2, 3]) } := hupdate
  simp only [hupdate']
  rfl

private theorem atSwitch_allowed : Allowed o (atSwitch o) forkAtSwitch where
  admissible := show Admissible [0] [1, 2, 3] [] by decide
  killed := by simp [forkAtSwitch]
  opcode := trivial
  order _ _ _ := trivial
  clock := ⟨Nat.le_refl _, Nat.le_refl _, Nat.le_refl _⟩
  addresses l := List.Perm.refl l

private theorem forked_select {c : SearchConfig} (hc : c.instructions = 1)
    (hs : c.searcher.searchers = o.coreSearch.map (·, [0, 1, 2, 3]))
    (hindex : o.coreSearch ≠ [] → c.searcher.index = o.coreSearch.length + 1)
    (hlast : o.useBatchingSearch → c.searcher.lastState = some 0 ∧ c.searcher.lastStartTime = 0 ∧
      c.searcher.lastStartInstructions = 0) (h : ¬(o.coreSearch = [] ∧ o.useBatchingSearch = false)) :
    ∃ cur s, c.select o forkAgain = .ok (cur, s) ∧ cur ≠ 2 ∧ s.world = c.searcher.world ∧
      s.pausedStates = c.searcher.pausedStates := by
  obtain ⟨cur, s, hsel, hne, hworld, hpaused⟩ : ∃ cur s,
      c.searcher.selectBatching o forkAgain.selectTime c.instructions forkAgain.choice = .ok (cur, s) ∧ cur ≠ 2 ∧
      s.world = c.searcher.world ∧ s.pausedStates = c.searcher.pausedStates := by
    unfold UserSearcher.selectBatching
    cases hb : o.useBatchingSearch with
    | true =>
      -- the memoized state is still within its budgets
      obtain ⟨hl, ht, hi⟩ := hlast hb
      have hspent : c.searcher.budgetSpent o forkAgain.selectTime c.instructions = false := by
        simp only [UserSearcher.budgetSpent, ht, hi, hc, forkAgain]
        simp
        omega
      rw [hl, hspent]
      exact ⟨0, c.searcher, rfl, by decide, rfl, rfl⟩
    | false =>
      -- it is the turn of the last searcher
      have hne : o.coreSearch ≠ [] := fun h' => h ⟨h', hb⟩
      obtain ⟨types, last, hlastType⟩ := List.eq_nil_or_concat o.coreSearch |>.resolve_left hne
      have hlen : o.coreSearch.length = types.length + 1 := by simp [hlastType]
      have hget : c.searcher.searchers[types.length]? = some (last, [0, 1, 2, 3]) := by
        simp [hs, hlastType]
      obtain ⟨cur, hcur, hne'⟩ : ∃ cur, last.selectState forkAgain.choice [0, 1, 2, 3] = some cur ∧ cur ≠ 2 := by
        cases last <;> exact ⟨_, rfl, by decide⟩
      have hsub : c.searcher.index - 1 = types.length + 1 := by rw [hindex hne, hlen]; omega
      simp only [Bool.not_false, if_true, UserSearcher.selectCore, if_neg hne, hsub, Nat.add_sub_cancel, hget,
        Nat.succ_ne_zero, if_false, hcur, orFail, Except.map]
      exact ⟨cur, _, rfl, hne', rfl, rfl⟩
  unfold select UserSearcher.selectState
  rw [hsel]
  refine ⟨cur, _, rfl, hne, ?_, ?_⟩
  · split <;> exact hworld
  · split <;> exact hpaused

private theorem exists_eraseEnd (h : ¬(o.coreSearch = [] ∧ o.useBatchingSearch = false)) :
    ∃ c it, Run o c ∧ Allowed o c it ∧ c.step o it = .error .eraseEnd := by
  obtain ⟨c, hstep, hst, hbr, hlive, hc, hclock, hk, hs, hindex, hp, hlast⟩ := atSwitch_step o
  obtain ⟨cur, s, hsel, hne, hw, hp'⟩ := forked_select o hc hs hindex hlast h
  refine ⟨c, forkAgain, ⟨atSwitch o, atSwitch_start o,
    Relation.ReflTransGen.single ⟨forkAtSwitch, atSwitch_allowed o, hstep⟩⟩, ?_, ?_⟩
  · refine ⟨?_, by simp [forkAgain], trivial, fun _ _ _ => trivial, ?_, fun l => List.Perm.refl l⟩
    · rw [hlive]
      show Admissible [0, 1, 2, 3] [4] []
      decide
    · rw [hclock]
      exact ⟨Nat.le_refl _, Nat.le_refl _, Nat.le_refl _⟩
  · -- the rotation looks for the current state among the preferred states
    have hfind : (s.world.begin cur forkAgain.toIteration).findsCurrent (some cur) [4] [] = false := by
      have hbr' : (s.world.begin cur forkAgain.toIteration).branchStates = [2] := by
        rw [hw]
        exact hbr
      simp [World.findsCurrent, hbr', hne]
    have hcore : UserSearcher.updateCore { s with world := s.world.begin cur forkAgain.toIteration } (some cur) [4] []
        = .error .eraseEnd := by
      simp only [UserSearcher.updateCore, World.updateCGS, hfind]
      rfl
    have hupdate : UserSearcher.update o { s with world := s.world.begin cur forkAgain.toIteration }
        forkAgain.updateTime forkAgain.order (some cur) forkAgain.added forkAgain.removed = .error .eraseEnd :=
      UserSearcher.update_of_error (hp'.trans hp) hcore
    have hexec : orFail (forkAgain.action.execute (s.world.begin cur forkAgain.toIteration) cur) =
      .ok (s.world.begin cur forkAgain.toIteration) := rfl
    simp only [step, hsel, bind, Except.bind, hexec, hupdate]

/-- The rotation finds the current state in every iteration of every run exactly if `cgs` is the only core searcher
and the batching searcher is off. -/
theorem rotation_safe_iff (o : SearchOptions) :
    (∀ c it, Run o c → Allowed o c it → c.step o it ≠ .error .eraseEnd) ↔
      o.coreSearch = [] ∧ o.useBatchingSearch = false := by
  constructor
  · intro hsafe
    by_contra h
    obtain ⟨c, it, hrun, hallowed, hstep⟩ := exists_eraseEnd o h
    exact hsafe c it hrun hallowed hstep
  · rintro ⟨hcore, hb⟩ c it - -
    refine safe_step fun cur s hsel => ?_
    obtain ⟨hcur, hw⟩ := UserSearcher.selectState_eq hb hcore hsel
    rw [hw]
    exact hcur

/-- `--search=cgs --use-batching-search`, with the default budgets. -/
def batchingOptions : SearchOptions where
  coreSearch := []
  useBatchingSearch := true
  batchTime := 5000000
  batchInstructions := 10000
  useIterativeDeepeningTimeSearch := false

/-- A batching searcher keeps the state `0` after the fork, while `branch_states` has the state `2`. -/
theorem not_rotation_safe_batching :
    ∃ c it, Run batchingOptions c ∧ Allowed batchingOptions c it ∧ c.step batchingOptions it = .error .eraseEnd :=
  exists_eraseEnd batchingOptions (by decide)

end SearchConfig

end CgsKlee
