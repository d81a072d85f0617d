import CgsKlee.Core.MergingInv

/-!
# Runs with merging

Every event of the executor keeps the invariant of the handlers, unless it runs into one of three defects: a paused
state is terminated, a state that is not yet in the searcher runs into `klee_close_merge`, or an instruction after which
its state is paused has also added or removed states.
-/

namespace CgsKlee.Merging.Machine

open SearcherStack (eraseFound eraseFound_spec removeStates_spec)

variable {m m' : Machine} {h : HandlerId} {es state new : StateId} {extra : List HandlerId} {gone : List StateId}

/-- The events that do not run into the defects. -/
def Safe (m : Machine) : Event → Prop
  | .closeMerge state _ _ => state ∉ m.addedStates
  | .terminate state => state ∉ m.pausedStates
  | .updateStates => ∀ cur, m.current = some cur → cur ∈ m.pausedStates → m.addedStates = [] ∧ m.removedStates = []
  | _ => True

structure Pending (m : Machine) : Prop where
  removedNodup : m.removedStates.Nodup
  removedLive : ∀ es ∈ m.removedStates, es ∈ m.states
  removedPaused : ∀ es ∈ m.removedStates, es ∉ m.pausedStates
  currentLive : ∀ cur, m.current = some cur → cur ∈ m.states
  addedNone : m.current = none → m.addedStates = []

structure Good (m : Machine) : Prop extends Pending m where
  inv : Inv [] [] m

theorem Inv.congr (hi : Inv extra gone m) (removedStates : List StateId) (current : Option StateId) :
    Inv extra gone { m with removedStates, current } :=
  ⟨hi.objects, hi.split, hi.closing, hi.groups, hi.bound, hi.alive, hi.sorted, hi.openNodup, hi.openMem, hi.waiting,
    hi.deeper⟩

theorem Pending.frame (hg : Pending m) (hf : Frame m m') : Pending m' := by
  refine ⟨?_, ?_, ?_, ?_, ?_⟩
  · rw [hf.removedStates]
    exact hg.removedNodup
  · rw [hf.removedStates, hf.states]
    exact hg.removedLive
  · rw [hf.removedStates]
    exact fun es hes hp => hg.removedPaused es hes (hf.paused es hp)
  · rw [hf.current, hf.states]
    exact hg.currentLive
  · rw [hf.current, hf.addedStates]
    exact hg.addedNone

theorem good_init {initialStates : List StateId} (h : initialStates.Nodup) : Good (init initialStates) := by
  refine ⟨⟨.nil, ?_, ?_, ?_, fun _ => rfl⟩, ?_, ?_, .refl _, .nil, ?_, ?_, ?_, ?_, ?_, .refl _, ?_⟩ <;> simp [init, h]

/-! ## `selectState` -/

theorem Inv.base_ne_nil (hi : Inv [] [] m) (hadd : m.addedStates = []) (hne : m.states ≠ []) : m.base ≠ [] := by
  intro hbase
  have hsplit : m.pausedStates.Perm m.states := by
    have := hi.split
    rwa [hbase, List.nil_append, List.append_nil] at this
  -- induction on the distance of a handler from the last one
  have hnone : ∀ n : Nat, ∀ h : Nat, h ∈ m.mergeGroups → m.nextHandler ≤ h + n → False := by
    intro n
    induction n with
    | zero =>
      intro h hh hle
      have hlt : h < m.nextHandler := hi.bound h hh
      exact Nat.not_le_of_lt hlt hle
    | succ n ih =>
      intro h hh hle
      obtain hx | ⟨es, hes, hstack⟩ := (hi.alive h).mp hh
      · cases hx
      · rw [hadd, List.append_nil] at hes
        obtain ⟨h', hh', hwait⟩ := hi.paused_iff.mp (hsplit.mem_iff.mpr hes)
        have hlt : h + 1 ≤ h' := hi.deeper h' hh' es hwait h hstack
        refine ih h' hh' (Nat.le_trans hle ?_)
        rw [Nat.add_comm n 1, ← Nat.add_assoc]
        exact Nat.add_le_add_right hlt n
  obtain ⟨es, hes⟩ := List.exists_mem_of_ne_nil _ hne
  obtain ⟨h, hh, -⟩ := hi.paused_iff.mp (hsplit.mem_iff.mpr hes)
  exact hnone m.nextHandler h hh (Nat.le_add_left _ _)

theorem Inv.prioritize (hi : Inv [] [] m) (inp : SelectInput) {hs : List HandlerId} (hadd : m.addedStates = [])
    (hbase : m.base ≠ []) (hsub : ∀ h ∈ hs, h ∈ m.mergeGroups) :
    ∃ r m', prioritize inp hs m = some (r, m') ∧ Inv [] [] m' ∧ Frame m m' ∧ m'.base ≠ [] ∧
      ∀ es, r = some es → es ∈ m.states := by
  induction hs generalizing m with
  | nil => exact ⟨none, m, rfl, hi, .refl m, hbase, fun es hes => by cases hes⟩
  | cons h hs ih =>
    have hh := hsub h (by simp)
    have hrest : ∀ x ∈ hs, x ∈ m.mergeGroups := fun x hx => hsub x (by simp [hx])
    rw [Machine.prioritize]
    by_cases hreached : (m.handler h).reachedCloseMerge = []
    · rw [if_pos hreached]
      exact ih hi hadd hbase hrest
    · rw [if_neg hreached]
      cases hprio : m.getPrioritizeState inp h with
      | some es =>
        refine ⟨some es, m, rfl, hi, .refl m, hbase, ?_⟩
        intro es' hes'
        rw [Option.some.injEq] at hes'
        have hopen := List.mem_of_find?_eq_some hprio
        have hmem := ((hi.openMem h hh es).mp hopen).1
        rw [hadd, List.append_nil] at hmem
        exact hes' ▸ hmem
      | none =>
        obtain ⟨paused, close, hrun, hi', hf⟩ := hi.releaseStates hh
        have hbase' : (m.released h m.mergeGroups paused close).base ≠ [] := by
          intro hnil
          exact hbase (List.append_eq_nil_iff.mp hnil).1
        obtain ⟨r, m', hrun', hi'', hf', hne, hstate⟩ := ih hi' hadd hbase' hrest
        refine ⟨r, m', ?_, hi'', hf.trans hf', hne, hstate⟩
        simp only [hrun]
        exact hrun'

theorem Good.select (hg : Good m) (inp : SelectInput) (hok : m.Allowed (.select inp)) :
    ∃ m', m.step (.select inp) = some m' ∧ Good m' := by
  obtain ⟨hcur, hrem, hne⟩ := hok
  have hadd := hg.addedNone hcur
  have hbase := hg.inv.base_ne_nil hadd hne
  have hsub : ∀ h ∈ (if inp.useIncompleteMerge then m.mergeGroups else []), h ∈ m.mergeGroups := by
    intro h hh
    split at hh
    · exact hh
    · cases hh
  obtain ⟨r, m₁, hrun, hi, hf, hne', hstate⟩ := hg.inv.prioritize inp hadd hbase hsub
  -- the state that is returned
  have hsel : ∃ es ∈ m.states, m.selectState inp = some (es, m₁) := by
    rw [selectState, if_neg hbase, hrun]
    cases r with
    | some es => exact ⟨es, hstate es rfl, rfl⟩
    | none =>
      have hlt := Nat.mod_lt inp.choice (List.length_pos_of_ne_nil hne')
      refine ⟨m₁.base[inp.choice % m₁.base.length], ?_, by simp [List.getElem?_eq_getElem hlt]⟩
      rw [← hf.states]
      exact hi.split.mem_iff.mp (List.mem_append_left _ (List.mem_append_left _ (List.getElem_mem hlt)))
  obtain ⟨es, hes, hsel⟩ := hsel
  have hpend := hg.toPending.frame hf
  refine ⟨{ m₁ with current := some es }, by simp [step, hsel], ⟨hpend.removedNodup, hpend.removedLive,
    hpend.removedPaused, ?_, ?_⟩, hi.congr _ _⟩
  · intro cur hc
    have hc : some es = some cur := hc
    rw [Option.some.injEq] at hc
    show cur ∈ m₁.states
    rw [hf.states]
    exact hc ▸ hes
  · intro hc
    cases hc

/-! ## A fork -/

theorem addOpenLoop_spec (new : StateId) {hs : List HandlerId} (hnodup : hs.Nodup) :
    ∃ handler, hs.foldl (addOpenState new) m = { m with handler } ∧
      (∀ h, (handler h).reachedCloseMerge = (m.handler h).reachedCloseMerge) ∧
      (∀ h ∈ hs, (handler h).openStates = (m.handler h).openStates ++ [new]) ∧
      ∀ h, h ∉ hs → handler h = m.handler h := by
  induction hs generalizing m with
  | nil => exact ⟨m.handler, rfl, fun _ => rfl, by simp, fun _ _ => rfl⟩
  | cons h hs ih =>
    obtain ⟨hnot, hnodup⟩ := List.nodup_cons.mp hnodup
    obtain ⟨handler, hrun, hreached, hopen, hother⟩ := ih (m := addOpenState new m h) hnodup
    have hne : ∀ {x}, x ≠ h → (addOpenState new m h).handler x = m.handler x := fun hne => Function.update_of_ne hne ..
    have hself : handler h = { m.handler h with openStates := (m.handler h).openStates ++ [new] } := by
      rw [hother h hnot]
      exact Function.update_self ..
    refine ⟨handler, ?_, ?_, ?_, ?_⟩
    · rw [List.foldl_cons, hrun]
      rfl
    · intro x
      by_cases hx : x = h
      · rw [hx, hself]
      · rw [hreached, hne hx]
    · intro x hx
      by_cases hxh : x = h
      · rw [hxh, hself]
      · rw [hopen x ((List.mem_cons.mp hx).resolve_left hxh), hne hxh]
    · intro x hx
      have hxh : x ≠ h := by
        rintro rfl
        exact hx (by simp)
      rw [hother x (fun hin => hx (by simp [hin])), hne hxh]

theorem Inv.branch (hi : Inv [] gone m) (hstate : state ∈ m.states ++ m.addedStates)
    (hnew : new ∉ m.states ++ m.addedStates) : Inv [] gone (m.branch state new) := by
  have hsorted := hi.sorted state hstate
  have hnodup : (m.openMergeStack state).Nodup := hsorted.imp fun hlt => Nat.ne_of_lt hlt
  obtain ⟨handler, hrun, hreached, hopen, hother⟩ :=
    addOpenLoop_spec (m := m.setStack new (m.openMergeStack state)) new hnodup
  have hwait : ∀ h, (handler h).waiting = (m.handler h).waiting := fun h => by
    rw [MergeHandler.waiting, hreached, MergeHandler.waiting]
    rfl
  have hstack_ne : ∀ {x}, x ∈ m.states ++ m.addedStates →
      Function.update m.openMergeStack new (m.openMergeStack state) x = m.openMergeStack x := by
    intro x hx
    refine Function.update_of_ne ?_ ..
    rintro rfl
    exact hnew hx
  have hmem : ∀ x, x ∈ m.states ++ (m.addedStates ++ [new]) ↔ x ∈ m.states ++ m.addedStates ∨ x = new := by
    intro x
    rw [← List.append_assoc, List.mem_append, List.mem_singleton]
  have heq : m.branch state new = { m with
      handler
      openMergeStack := Function.update m.openMergeStack new (m.openMergeStack state)
      addedStates := m.addedStates ++ [new] } := by
    rw [Machine.branch, hrun]
    rfl
  rw [heq]
  refine ⟨?_, hi.split, hi.closing, hi.groups, hi.bound, ?_, ?_, ?_, ?_, ?_, ?_⟩
  · show (m.states ++ (m.addedStates ++ [new])).Nodup
    rw [← List.append_assoc]
    refine List.nodup_append.mpr ⟨hi.objects, by simp, ?_⟩
    intro a ha b hb hab
    rw [List.mem_singleton] at hb
    exact hnew (hb ▸ hab ▸ ha)
  · intro h
    show h ∈ m.mergeGroups ↔ h ∈ [] ∨ ∃ es ∈ m.states ++ (m.addedStates ++ [new]),
      h ∈ Function.update m.openMergeStack new (m.openMergeStack state) es
    rw [hi.alive]
    constructor
    · rintro (hh | ⟨x, hx, hh⟩)
      · cases hh
      · refine .inr ⟨x, (hmem x).mpr (.inl hx), ?_⟩
        rw [hstack_ne hx]
        exact hh
    · rintro (hh | ⟨x, hx, hh⟩)
      · cases hh
      · obtain hx | rfl := (hmem x).mp hx
        · rw [hstack_ne hx] at hh
          exact .inr ⟨x, hx, hh⟩
        · rw [Function.update_self] at hh
          exact .inr ⟨state, hstate, hh⟩
  · intro x hx
    show (Function.update m.openMergeStack new (m.openMergeStack state) x).Pairwise _
    obtain hx | rfl := (hmem x).mp hx
    · rw [hstack_ne hx]
      exact hi.sorted x hx
    · rw [Function.update_self]
      exact hsorted
  · intro h hh
    show (handler h).openStates.Nodup
    by_cases hin : h ∈ m.openMergeStack state
    · rw [hopen h hin]
      refine List.nodup_append.mpr ⟨hi.openNodup h hh, by simp, ?_⟩
      intro a ha b hb hab
      rw [List.mem_singleton] at hb
      exact hnew (hb ▸ hab ▸ ((hi.openMem h hh a).mp ha).1)
    · rw [hother h hin]
      exact hi.openNodup h hh
  · intro h hh x
    show x ∈ (handler h).openStates ↔ x ∈ m.states ++ (m.addedStates ++ [new]) ∧
      h ∈ Function.update m.openMergeStack new (m.openMergeStack state) x
    have hold := hi.openMem h hh x
    rw [hmem]
    by_cases hx : x = new
    · subst hx
      rw [Function.update_self]
      by_cases hin : h ∈ m.openMergeStack state
      · rw [hopen h hin]
        simp [hin]
      · rw [hother h hin]
        refine iff_of_false (fun hx => hnew (hold.mp hx).1) fun hx => hin hx.2
    · rw [Function.update_of_ne hx]
      have hsame : x ∈ (handler h).openStates ↔ x ∈ (m.handler h).openStates := by
        by_cases hin : h ∈ m.openMergeStack state
        · rw [hopen h hin, List.mem_append, List.mem_singleton]
          exact or_iff_left hx
        · rw [hother h hin]
          rfl
      rw [hsame, hold]
      simp [hx]
  · show (m.mergeGroups.flatMap fun h => (handler h).waiting).Perm m.pausedStates
    simp only [hwait]
    exact hi.waiting
  · intro h hh x hx h' hh'
    have hx : x ∈ (m.handler h).waiting := by
      rw [← hwait]
      exact hx
    have hlive := hi.paused_live (hi.paused_iff.mpr ⟨h, hh, hx⟩)
    have hh' : h' ∈ Function.update m.openMergeStack new (m.openMergeStack state) x := hh'
    rw [hstack_ne (List.mem_append_left _ hlive)] at hh'
    exact hi.deeper h hh x hx h' hh'

theorem Acts.mem (hg : Good m) (h : m.Acts state) : state ∈ m.states ++ m.addedStates := by
  obtain ⟨hcur | ⟨-, hadd⟩, -, -⟩ := h
  · exact List.mem_append_left _ (hg.currentLive state hcur)
  · exact List.mem_append_right _ hadd

theorem Acts.current (h : m.Acts state) : m.current ≠ none := by
  obtain ⟨hcur | ⟨hsome, -⟩, -, -⟩ := h
  · rw [hcur]
    exact Option.some_ne_none state
  · exact Option.isSome_iff_ne_none.mp hsome

theorem branch_fields (m : Machine) (state new : StateId) :
    (m.branch state new).states = m.states ∧ (m.branch state new).removedStates = m.removedStates ∧
      (m.branch state new).pausedStates = m.pausedStates ∧ (m.branch state new).current = m.current := by
  have hloop : ∀ (hs : List HandlerId) (m : Machine), (hs.foldl (addOpenState new) m).states = m.states ∧
      (hs.foldl (addOpenState new) m).removedStates = m.removedStates ∧
      (hs.foldl (addOpenState new) m).pausedStates = m.pausedStates ∧
      (hs.foldl (addOpenState new) m).current = m.current := by
    intro hs
    induction hs with
    | nil => exact fun _ => ⟨rfl, rfl, rfl, rfl⟩
    | cons h hs ih => exact fun m => ih (addOpenState new m h)
  exact hloop _ _

theorem Good.branch (hg : Good m) (hok : m.Allowed (.branch state new)) :
    ∃ m', m.step (.branch state new) = some m' ∧ Good m' := by
  obtain ⟨hacts, hnew⟩ := hok
  obtain ⟨hst, hrem, hp, hcur⟩ := branch_fields m state new
  refine ⟨m.branch state new, rfl, ⟨?_, ?_, ?_, ?_, ?_⟩, hg.inv.branch (hacts.mem hg) hnew⟩
  · rw [hrem]
    exact hg.removedNodup
  · rw [hrem, hst]
    exact hg.removedLive
  · rw [hrem, hp]
    exact hg.removedPaused
  · rw [hcur, hst]
    exact hg.currentLive
  · rw [hcur]
    exact fun hnone => absurd hnone hacts.current

/-! ## `klee_open_merge` -/

theorem Inv.openMerge (hi : Inv [] gone m) (hstate : state ∈ m.states ++ m.addedStates)
    (hpaused : state ∉ m.pausedStates) : Inv [] gone (m.handleOpenMerge state) := by
  have hfresh : m.nextHandler ∉ m.mergeGroups := fun hh => Nat.lt_irrefl _ (hi.bound _ hh)
  have hbound : ∀ es ∈ m.states ++ m.addedStates, ∀ h ∈ m.openMergeStack es, h < m.nextHandler :=
    fun es hes h hh => hi.bound h ((hi.alive h).mpr (.inr ⟨es, hes, hh⟩))
  have hmem : ∀ h, h ∈ m.mergeGroups ++ [m.nextHandler] ↔ h ∈ m.mergeGroups ∨ h = m.nextHandler := by
    intro h
    rw [List.mem_append, List.mem_singleton]
  have hhandler : ∀ h ∈ m.mergeGroups, Function.update m.handler m.nextHandler ⟨[state], []⟩ h = m.handler h := by
    intro h hh
    refine Function.update_of_ne ?_ ..
    rintro rfl
    exact hfresh hh
  -- a handler on a stack
  have hstack : ∀ h es, h ∈ Function.update m.openMergeStack state (m.openMergeStack state ++ [m.nextHandler]) es ↔
      h ∈ m.openMergeStack es ∨ h = m.nextHandler ∧ es = state := by
    intro h es
    by_cases hes : es = state
    · subst hes
      rw [Function.update_self, List.mem_append, List.mem_singleton]
      simp
    · rw [Function.update_of_ne hes]
      simp [hes]
  refine ⟨hi.objects, hi.split, hi.closing, ?_, ?_, ?_, ?_, ?_, ?_, ?_, ?_⟩
  · show (m.mergeGroups ++ [m.nextHandler]).Nodup
    refine List.nodup_append.mpr ⟨hi.groups, by simp, ?_⟩
    intro a ha b hb hab
    rw [List.mem_singleton] at hb
    exact hfresh (hb ▸ hab ▸ ha)
  · intro h hh
    show h < m.nextHandler + 1
    obtain hh | rfl := (hmem h).mp hh
    · exact Nat.lt_succ_of_lt (hi.bound h hh)
    · exact Nat.lt_succ_self _
  · intro h
    show h ∈ m.mergeGroups ++ [m.nextHandler] ↔ h ∈ [] ∨ ∃ es ∈ m.states ++ m.addedStates,
      h ∈ Function.update m.openMergeStack state (m.openMergeStack state ++ [m.nextHandler]) es
    rw [hmem, hi.alive]
    simp only [hstack]
    constructor
    · rintro ((hh | ⟨es, hes, hh⟩) | rfl)
      · exact .inl hh
      · exact .inr ⟨es, hes, .inl hh⟩
      · exact .inr ⟨state, hstate, .inr ⟨rfl, rfl⟩⟩
    · rintro (hh | ⟨es, hes, hh | ⟨rfl, -⟩⟩)
      · exact .inl (.inl hh)
      · exact .inl (.inr ⟨es, hes, hh⟩)
      · exact .inr rfl
  · intro es hes
    show (Function.update m.openMergeStack state (m.openMergeStack state ++ [m.nextHandler]) es).Pairwise _
    by_cases heq : es = state
    · subst heq
      rw [Function.update_self]
      refine List.pairwise_append.mpr ⟨hi.sorted es hes, by simp, ?_⟩
      intro a ha b hb
      rw [List.mem_singleton] at hb
      exact hb ▸ hbound es hes a ha
    · rw [Function.update_of_ne heq]
      exact hi.sorted es hes
  · intro h hh
    show (Function.update m.handler m.nextHandler ⟨[state], []⟩ h).openStates.Nodup
    obtain hh | rfl := (hmem h).mp hh
    · rw [hhandler h hh]
      exact hi.openNodup h hh
    · rw [Function.update_self]
      simp
  · intro h hh es
    show es ∈ (Function.update m.handler m.nextHandler ⟨[state], []⟩ h).openStates ↔ es ∈ m.states ++ m.addedStates ∧
      h ∈ Function.update m.openMergeStack state (m.openMergeStack state ++ [m.nextHandler]) es
    rw [hstack]
    obtain hh | rfl := (hmem h).mp hh
    · have hne : h ≠ m.nextHandler := by
        rintro rfl
        exact hfresh hh
      rw [hhandler h hh, hi.openMem h hh]
      simp [hne]
    · rw [Function.update_self]
      constructor
      · intro hes
        obtain rfl := List.mem_singleton.mp hes
        exact ⟨hstate, .inr ⟨rfl, rfl⟩⟩
      · rintro ⟨hes, hh | ⟨-, rfl⟩⟩
        · exact absurd (hbound es hes _ hh) (Nat.lt_irrefl _)
        · exact List.mem_singleton.mpr rfl
  · show ((m.mergeGroups ++ [m.nextHandler]).flatMap fun h =>
      (Function.update m.handler m.nextHandler ⟨[state], []⟩ h).waiting).Perm m.pausedStates
    rw [List.flatMap_append, flatMap_waiting_update hfresh, List.flatMap_singleton, Function.update_self]
    have hnil : (⟨[state], []⟩ : MergeHandler).waiting = [] := rfl
    rw [hnil, List.append_nil]
    exact hi.waiting
  · intro h hh es hes h' hh'
    have hes : es ∈ (Function.update m.handler m.nextHandler ⟨[state], []⟩ h).waiting := hes
    have hh' : h' ∈ Function.update m.openMergeStack state (m.openMergeStack state ++ [m.nextHandler]) es := hh'
    obtain hin | rfl := (hmem h).mp hh
    · rw [hhandler h hin] at hes
      obtain hh' | ⟨-, heq⟩ := (hstack h' es).mp hh'
      · exact hi.deeper h hin es hes h' hh'
      · exact absurd (heq ▸ hi.paused_iff.mpr ⟨h, hin, hes⟩) hpaused
    · rw [Function.update_self] at hes
      cases hes

theorem Good.openMerge (hg : Good m) (hok : m.Allowed (.openMerge state)) :
    ∃ m', m.step (.openMerge state) = some m' ∧ Good m' := by
  have hacts : m.Acts state := hok
  exact ⟨m.handleOpenMerge state, rfl, ⟨hg.removedNodup, hg.removedLive, hg.removedPaused, hg.currentLive,
    fun hnone => absurd hnone hacts.current⟩, hg.inv.openMerge (hacts.mem hg) hacts.2.2⟩

/-! ## `klee_close_merge` -/

def closed (m : Machine) (h : HandlerId) (state : StateId) (handler : MergeHandler) (stack : List HandlerId)
    (base pausedStates inCloseMerge : List StateId) : Machine :=
  { m with
    base, pausedStates, inCloseMerge
    handler := Function.update m.handler h handler
    openMergeStack := Function.update m.openMergeStack state stack }

theorem Inv.closed (hi : Inv [] [] m) (hstate : state ∈ m.states ++ m.addedStates) (hpaused : state ∉ m.pausedStates)
    {stack : List HandlerId} (hstack : m.openMergeStack state = stack ++ [h]) {openStates : List StateId}
    (hopen : (m.handler h).openStates.Perm (state :: openStates)) {reached : List (InstID × List StateId)}
    {base pausedStates inCloseMerge : List StateId} (hsplit : (base ++ pausedStates).Perm m.states)
    (hclosing : inCloseMerge.Perm pausedStates)
    (hwaiting : ∀ rest, m.pausedStates.Perm ((m.handler h).waiting ++ rest) →
      ((⟨openStates, reached⟩ : MergeHandler).waiting ++ rest).Perm pausedStates)
    (hdeeper : ∀ es ∈ (⟨openStates, reached⟩ : MergeHandler).waiting, es = state ∨ es ∈ (m.handler h).waiting) :
    Inv [h] [] (m.closed h state ⟨openStates, reached⟩ stack base pausedStates inCloseMerge) := by
  have hsorted : (stack ++ [h]).Pairwise (· < ·) := hstack ▸ hi.sorted state hstate
  have hlt : ∀ x ∈ stack, x < h := fun x hx => (List.pairwise_append.mp hsorted).2.2 x hx h (by simp)
  have hh : h ∈ m.mergeGroups := (hi.alive h).mpr (.inr ⟨state, hstate, by simp [hstack]⟩)
  have hmem : ∀ x, x ∈ m.openMergeStack state ↔ x ∈ stack ∨ x = h := by
    intro x
    rw [hstack, List.mem_append, List.mem_singleton]
  have hne : ∀ {es}, es ≠ state → Function.update m.openMergeStack state stack es = m.openMergeStack es :=
    fun hne => Function.update_of_ne hne ..
  have hhandler : ∀ {x}, x ≠ h → Function.update m.handler h ⟨openStates, reached⟩ x = m.handler x :=
    fun hne => Function.update_of_ne hne ..
  have hnodup := List.nodup_cons.mp (hopen.nodup_iff.mp (hi.openNodup h hh))
  refine ⟨hi.objects, ?_, hclosing, hi.groups, hi.bound, ?_, ?_, ?_, ?_, ?_, ?_⟩
  · show (base ++ pausedStates ++ []).Perm m.states
    rw [List.append_nil]
    exact hsplit
  · intro x
    show x ∈ m.mergeGroups ↔ x ∈ [h] ∨ ∃ es ∈ m.states ++ m.addedStates,
      x ∈ Function.update m.openMergeStack state stack es
    constructor
    · intro hx
      obtain hx | ⟨es, hes, hx⟩ := (hi.alive x).mp hx
      · cases hx
      · by_cases heq : es = state
        · subst heq
          obtain hx | rfl := (hmem x).mp hx
          · exact .inr ⟨es, hes, by rw [Function.update_self]; exact hx⟩
          · exact .inl (by simp)
        · exact .inr ⟨es, hes, by rw [hne heq]; exact hx⟩
    · rintro (hx | ⟨es, hes, hx⟩)
      · exact List.mem_singleton.mp hx ▸ hh
      · refine (hi.alive x).mpr (.inr ⟨es, hes, ?_⟩)
        by_cases heq : es = state
        · subst heq
          rw [Function.update_self] at hx
          exact (hmem x).mpr (.inl hx)
        · rwa [hne heq] at hx
  · intro es hes
    show (Function.update m.openMergeStack state stack es).Pairwise _
    by_cases heq : es = state
    · subst heq
      rw [Function.update_self]
      exact (List.pairwise_append.mp hsorted).1
    · rw [hne heq]
      exact hi.sorted es hes
  · intro x hx
    show (Function.update m.handler h ⟨openStates, reached⟩ x).openStates.Nodup
    by_cases hxh : x = h
    · subst hxh
      rw [Function.update_self]
      exact hnodup.2
    · rw [hhandler hxh]
      exact hi.openNodup x hx
  · intro x hx es
    show es ∈ (Function.update m.handler h ⟨openStates, reached⟩ x).openStates ↔
      es ∈ m.states ++ m.addedStates ∧ x ∈ Function.update m.openMergeStack state stack es
    have hold := hi.openMem x hx es
    by_cases heq : es = state
    · subst heq
      rw [Function.update_self]
      by_cases hxh : x = h
      · subst hxh
        rw [Function.update_self]
        exact iff_of_false hnodup.1 fun hx => Nat.lt_irrefl _ (hlt x hx.2)
      · rw [hhandler hxh, hold, hmem]
        simp [hxh]
    · rw [hne heq]
      by_cases hxh : x = h
      · subst hxh
        rw [Function.update_self, ← hold, hopen.mem_iff, List.mem_cons]
        exact (or_iff_right heq).symm
      · rw [hhandler hxh, hold]
  · show (m.mergeGroups.flatMap fun x => (Function.update m.handler h ⟨openStates, reached⟩ x).waiting).Perm pausedStates
    have hg := List.perm_cons_erase hh
    have hnot : h ∉ m.mergeGroups.erase h := by
      rw [hi.groups.mem_erase_iff]
      exact fun hx => hx.1 rfl
    refine (hg.flatMap_right _).trans ?_
    rw [List.flatMap_cons, Function.update_self, flatMap_waiting_update hnot]
    exact hwaiting _ (hi.paused_split hg)
  · intro x hx es hwaits h' hin
    have hes : es ∈ (Function.update m.handler h ⟨openStates, reached⟩ x).waiting := hwaits
    have hh' : h' ∈ Function.update m.openMergeStack state stack es := hin
    by_cases heq : es = state
    · rw [heq, Function.update_self] at hh'
      by_cases hxh : x = h
      · exact hxh ▸ hlt h' hh'
      · rw [hhandler hxh] at hes
        exact absurd (heq ▸ hi.paused_iff.mpr ⟨x, hx, hes⟩) hpaused
    · rw [hne heq] at hh'
      by_cases hxh : x = h
      · rw [hxh, Function.update_self] at hes
        exact hxh ▸ hi.deeper h hh es ((hdeeper es hes).resolve_left heq) h' hh'
      · rw [hhandler hxh] at hes
        exact hi.deeper x hx es hes h' hh'

theorem Inv.mem_base (hi : Inv extra [] m) (hes : es ∈ m.states) (hpaused : es ∉ m.pausedStates) : es ∈ m.base := by
  have := hi.split.mem_iff.mpr hes
  rw [List.append_nil, List.mem_append] at this
  exact this.resolve_right hpaused

theorem Pending.dropRef (hp : Pending m) (hi : Inv [h] [] m) : ∃ m', m.dropRef h = some m' ∧ Good m' := by
  obtain ⟨m', hrun, hi', hf, -⟩ := hi.dropRef (by simp)
  exact ⟨m', hrun, hp.frame hf, hi'⟩

theorem Good.waitAt (hg : Good m) (hlive : state ∈ m.states) (hremoved : state ∉ m.removedStates)
    (hpaused : state ∉ m.pausedStates) {stack : List HandlerId} (hstack : m.openMergeStack state = stack ++ [h])
    {openStates : List StateId} (hopen : (m.handler h).openStates.Perm (state :: openStates)) (mp : InstID) :
    ∃ m₁, Machine.waitAt (Machine.setHandler { m with inCloseMerge := state :: m.inCloseMerge } h
        ⟨openStates, (m.handler h).reachedCloseMerge⟩) h state mp = some m₁ ∧
      m₁.states = m.states ∧ m₁.openMergeStack = m.openMergeStack ∧ Pending (m₁.setStack state stack) ∧
      Inv [h] [] (m₁.setStack state stack) := by
  have hi := hg.inv
  have hmem : state ∈ m.states ++ m.addedStates := List.mem_append_left _ hlive
  have hbaseMem := List.perm_cons_erase (hi.mem_base hlive hpaused)
  obtain ⟨base, herase, hbase⟩ := eraseFound_spec hbaseMem
  have hrun : Machine.waitAt (Machine.setHandler { m with inCloseMerge := state :: m.inCloseMerge } h
        ⟨openStates, (m.handler h).reachedCloseMerge⟩) h state mp = some { m with
      base
      pausedStates := m.pausedStates ++ [state]
      inCloseMerge := state :: m.inCloseMerge
      handler := Function.update m.handler h
        ⟨openStates, pushReached mp state (m.handler h).reachedCloseMerge⟩ } := by
    simp [Machine.waitAt, pauseState, updateBase, setHandler, hpaused, herase]
  have hsplit : (base ++ (m.pausedStates ++ [state])).Perm m.states := by
    have hold : (m.base ++ m.pausedStates).Perm m.states := by
      have := hi.split
      rwa [List.append_nil] at this
    rw [← List.append_assoc]
    refine (List.perm_append_singleton state _).trans ?_
    exact (((hbase.cons state).trans hbaseMem.symm).append_right m.pausedStates).trans hold
  have hpush := pushReached_perm mp state (m.handler h).reachedCloseMerge
  refine ⟨_, hrun, rfl, rfl, ⟨hg.removedNodup, hg.removedLive, ?_, hg.currentLive, hg.addedNone⟩, ?_⟩
  · intro es hes hp
    obtain hp | hp := List.mem_append.mp hp
    · exact hg.removedPaused es hes hp
    · exact hremoved (List.mem_singleton.mp hp ▸ hes)
  · refine hi.closed hmem hpaused hstack hopen hsplit ?_ ?_ ?_
    · exact (hi.closing.cons state).trans (List.perm_append_singleton state _).symm
    · intro rest hrest
      exact (hpush.append_right rest).trans ((hrest.symm.cons state).trans (List.perm_append_singleton state _).symm)
    · intro es hes
      exact List.mem_cons.mp (hpush.mem_iff.mp hes)

theorem Good.mergedInto (hg : Good m) (hlive : state ∈ m.states) (hadded : state ∉ m.addedStates)
    (hremoved : state ∉ m.removedStates) (hpaused : state ∉ m.pausedStates) {stack : List HandlerId}
    (hstack : m.openMergeStack state = stack ++ [h]) {openStates : List StateId}
    (hopen : (m.handler h).openStates.Perm (state :: openStates)) :
    ∃ m₁, ((Machine.setHandler { m with inCloseMerge := state :: m.inCloseMerge } h
        ⟨openStates, (m.handler h).reachedCloseMerge⟩).terminateState state).map
          (fun m => { m with inCloseMerge := m.inCloseMerge.erase state }) = some m₁ ∧
      m₁.states = m.states ∧ m₁.openMergeStack = m.openMergeStack ∧ Pending (m₁.setStack state stack) ∧
      Inv [h] [] (m₁.setStack state stack) := by
  have hi := hg.inv
  have hmem : state ∈ m.states ++ m.addedStates := List.mem_append_left _ hlive
  have hrun : ((Machine.setHandler { m with inCloseMerge := state :: m.inCloseMerge } h
        ⟨openStates, (m.handler h).reachedCloseMerge⟩).terminateState state).map
          (fun m => { m with inCloseMerge := m.inCloseMerge.erase state }) = some { m with
      removedStates := m.removedStates ++ [state]
      handler := Function.update m.handler h ⟨openStates, (m.handler h).reachedCloseMerge⟩ } := by
    simp [terminateState, setHandler, hadded]
  have hsplit : (m.base ++ m.pausedStates).Perm m.states := by
    have := hi.split
    rwa [List.append_nil] at this
  refine ⟨_, hrun, rfl, rfl, ⟨?_, ?_, ?_, hg.currentLive, hg.addedNone⟩, ?_⟩
  · refine List.nodup_append.mpr ⟨hg.removedNodup, by simp, ?_⟩
    intro a ha b hb hab
    rw [List.mem_singleton] at hb
    exact hremoved (hb ▸ hab ▸ ha)
  · intro es hes
    obtain hes | hes := List.mem_append.mp hes
    · exact hg.removedLive es hes
    · exact List.mem_singleton.mp hes ▸ hlive
  · intro es hes
    obtain hes | hes := List.mem_append.mp hes
    · exact hg.removedPaused es hes
    · exact List.mem_singleton.mp hes ▸ hpaused
  · exact (hi.closed hmem hpaused hstack hopen hsplit hi.closing (fun rest hrest => hrest.symm)
      (fun es hes => .inr hes)).congr (m.removedStates ++ [state]) m.current

theorem Good.closeMerge (hg : Good m) {mp : InstID} {merge : StateId → Bool}
    (hok : m.Allowed (.closeMerge state mp merge)) (hsafe : m.Safe (.closeMerge state mp merge)) :
    ∃ m', m.step (.closeMerge state mp merge) = some m' ∧ Good m' := by
  have hacts : m.Acts state := hok
  have hadded : state ∉ m.addedStates := hsafe
  have hmem := hacts.mem hg
  have hlive : state ∈ m.states := (List.mem_append.mp hmem).resolve_right hadded
  obtain ⟨-, hremoved, hpaused⟩ := hacts
  have hi := hg.inv
  rw [step, handleCloseMerge]
  obtain hnil | ⟨stack, h, hstack⟩ := List.eq_nil_or_concat (m.openMergeStack state)
  · rw [hnil]
    exact ⟨m, rfl, hg⟩
  rw [List.concat_eq_append] at hstack
  have hlast : (m.openMergeStack state).getLast? = some h := by simp [hstack]
  have hdrop : (m.openMergeStack state).dropLast = stack := by
    rw [hstack]
    exact List.dropLast_concat
  have hclose : state ∉ m.inCloseMerge := fun hc => hpaused (hi.closing.mem_iff.mp hc)
  have hh : h ∈ m.mergeGroups := (hi.alive h).mpr (.inr ⟨state, hmem, by simp [hstack]⟩)
  have hopenMem : state ∈ (m.handler h).openStates := (hi.openMem h hh state).mpr ⟨hmem, by simp [hstack]⟩
  obtain ⟨openStates, hswap, hperm⟩ := swapPop_spec (List.perm_cons_erase hopenMem)
  have hopen := (List.perm_cons_erase hopenMem).trans (hperm.symm.cons state)
  have hadd : ∃ m₁, addClosedState { m with inCloseMerge := state :: m.inCloseMerge } h state mp merge = some m₁ ∧
      m₁.states = m.states ∧ m₁.openMergeStack = m.openMergeStack ∧ Pending (m₁.setStack state stack) ∧
      Inv [h] [] (m₁.setStack state stack) := by
    rw [addClosedState, removeOpenState, hswap]
    simp only [Option.map_some]
    split
    · exact hg.waitAt hlive hremoved hpaused hstack hopen mp
    · split
      · exact hg.mergedInto hlive hadded hremoved hpaused hstack hopen
      · exact hg.waitAt hlive hremoved hpaused hstack hopen mp
  obtain ⟨m₁, hrun, hst, hstk, hpend, hinv⟩ := hadd
  obtain ⟨m', hdropRef, hgood⟩ := hpend.dropRef hinv
  refine ⟨m', ?_, hgood⟩
  have hmem₁ : state ∈ m₁.states ++ m₁.addedStates := by
    rw [hst]
    exact List.mem_append_left _ hlive
  rw [hlast]
  simp only [if_neg hclose, hrun, if_pos hmem₁, hstk, hdrop]
  exact hdropRef

/-! ## `terminateState` -/

theorem Good.terminate (hg : Good m) (hok : m.Allowed (.terminate state)) (hsafe : m.Safe (.terminate state)) :
    ∃ m', m.step (.terminate state) = some m' ∧ Good m' := by
  obtain ⟨hremoved, hwho⟩ := hok
  have hpaused : state ∉ m.pausedStates := hsafe
  have hi := hg.inv
  rw [step, terminateState]
  by_cases hadded : state ∈ m.addedStates
  · -- the searcher has not seen the state
    rw [if_pos hadded]
    have hw : Without state m { m with addedStates := m.addedStates.erase state } := by
      refine ⟨?_, rfl, rfl, rfl, rfl, rfl, rfl, rfl⟩
      exact ((List.perm_cons_erase hadded).append_left m.states).trans List.perm_middle
    obtain ⟨m', hrun, hi', hf⟩ := hi.deleteState hw hi.split hpaused
    have hpend : Pending { m with addedStates := m.addedStates.erase state } := by
      refine ⟨hg.removedNodup, hg.removedLive, hg.removedPaused, hg.currentLive, fun hnone => ?_⟩
      rw [hg.addedNone hnone] at hadded
      cases hadded
    exact ⟨m', hrun, hpend.frame hf, hi'⟩
  · rw [if_neg hadded]
    have hlive : state ∈ m.states := by
      obtain hcur | ⟨-, hadd⟩ | ⟨-, hlive⟩ := hwho
      · exact hg.currentLive state hcur
      · exact absurd hadd hadded
      · exact hlive
    refine ⟨_, rfl, ⟨?_, ?_, ?_, hg.currentLive, hg.addedNone⟩, hi.congr (m.removedStates ++ [state]) m.current⟩
    · refine List.nodup_append.mpr ⟨hg.removedNodup, by simp, ?_⟩
      intro a ha b hb hab
      rw [List.mem_singleton] at hb
      exact hremoved (hb ▸ hab ▸ ha)
    · intro es hes
      obtain hes | hes := List.mem_append.mp hes
      · exact hg.removedLive es hes
      · exact List.mem_singleton.mp hes ▸ hlive
    · intro es hes
      obtain hes | hes := List.mem_append.mp hes
      · exact hg.removedPaused es hes
      · exact List.mem_singleton.mp hes ▸ hpaused

/-! ## `updateStates` -/

theorem Inv.eraseStates {removed : List StateId} (hi : Inv [] removed m) (hadd : m.addedStates = []) :
    ∃ m', removed.foldlM eraseState m = some m' ∧ Inv [] [] m' ∧ m'.addedStates = [] := by
  induction removed generalizing m with
  | nil => exact ⟨m, rfl, hi, hadd⟩
  | cons es removed ih =>
    have hlive : es ∈ m.states := hi.split.mem_iff.mp (List.mem_append_right _ (by simp))
    have hpaused : es ∉ m.pausedStates := by
      intro hp
      exact (List.nodup_append.mp hi.split_nodup).2.2 es (List.mem_append_right _ hp) es (by simp) rfl
    have hw : Without es m { m with states := m.states.erase es } :=
      ⟨(List.perm_cons_erase hlive).append_right m.addedStates, rfl, rfl, rfl, rfl, rfl, rfl, rfl⟩
    have hsplit : (m.base ++ m.pausedStates ++ removed).Perm (m.states.erase es) := by
      have := (List.perm_middle.symm.trans hi.split).trans (List.perm_cons_erase hlive)
      exact this.cons_inv
    obtain ⟨m₁, hrun, hi₁, hf⟩ := hi.deleteState hw hsplit hpaused
    obtain ⟨m₂, hrun₂, hi₂, hadd₂⟩ := ih hi₁ (hf.addedStates.trans hadd)
    refine ⟨m₂, ?_, hi₂, hadd₂⟩
    rw [List.foldlM_cons, eraseState, if_pos hlive, hrun]
    exact hrun₂

theorem Good.updateSearcher (hg : Good m) (hsafe : m.Safe .updateStates) :
    ∃ m₁, m.updateSearcher = some m₁ ∧ m₁.removedStates = m.removedStates ∧
      Inv [] m.removedStates { m₁ with states := m₁.states ++ m₁.addedStates, addedStates := [] } := by
  have hi := hg.inv
  have hobjects : ((m.states ++ m.addedStates) ++ []).Nodup := by
    rw [List.append_nil]
    exact hi.objects
  have hmem : ∀ x, x ∈ m.states ++ m.addedStates ++ [] ↔ x ∈ m.states ++ m.addedStates := by simp
  -- the handlers do not see that the added states become states
  have hkeep : ∀ base, (base ++ m.pausedStates ++ m.removedStates).Perm (m.states ++ m.addedStates) →
      Inv [] m.removedStates { m with base, states := m.states ++ m.addedStates, addedStates := [] } := by
    intro base hsplit
    refine ⟨hobjects, hsplit, hi.closing, hi.groups, hi.bound, ?_, ?_, hi.openNodup, ?_, hi.waiting, hi.deeper⟩
    · intro h
      rw [hi.alive]
      simp only [hmem]
    · intro es hes
      exact hi.sorted es ((hmem es).mp hes)
    · intro h hh es
      rw [hi.openMem h hh, hmem]
  rw [Machine.updateSearcher]
  by_cases hcur : m.current.any (· ∈ m.pausedStates) = true
  · -- the current state is paused, and nothing else has happened
    rw [if_pos hcur]
    obtain ⟨cur, hc, hp⟩ : ∃ cur, m.current = some cur ∧ cur ∈ m.pausedStates := by
      cases hc : m.current with
      | none => simp [hc] at hcur
      | some cur => exact ⟨cur, rfl, by simpa [hc] using hcur⟩
    obtain ⟨hadd, hrem⟩ := hsafe cur hc hp
    refine ⟨m, rfl, rfl, hkeep m.base ?_⟩
    rw [hadd, hrem, List.append_nil m.states]
    exact hi.split
  · rw [if_neg hcur]
    have hsplit : (m.base ++ m.pausedStates).Perm m.states := by
      have := hi.split
      rwa [List.append_nil] at this
    have hnodup : (m.base ++ m.addedStates).Nodup := by
      have hbase : m.base.Nodup := (List.nodup_append.mp (hsplit.nodup_iff.mpr hi.states_nodup)).1
      refine List.nodup_append.mpr ⟨hbase, (List.nodup_append.mp hi.objects).2.1, ?_⟩
      intro a ha b hb hab
      exact (List.nodup_append.mp hi.objects).2.2 a (hsplit.mem_iff.mp (List.mem_append_left _ ha)) b hb hab
    have hperm := Bags.perm_append_filter hnodup hg.removedNodup fun es hes =>
      List.mem_append_left _ (hi.mem_base (hg.removedLive es hes) (hg.removedPaused es hes))
    obtain ⟨base, hrun, hbase⟩ := removeStates_spec eraseFound_spec hperm
    refine ⟨{ m with base }, by simp [updateBase, hrun], rfl, hkeep base ?_⟩
    calc (base ++ m.pausedStates ++ m.removedStates).Perm (m.removedStates ++ (base ++ m.pausedStates)) :=
          List.perm_append_comm
      _ = m.removedStates ++ base ++ m.pausedStates := (List.append_assoc ..).symm
      _ |>.Perm (m.base ++ m.addedStates ++ m.pausedStates) :=
          (((hbase.append_left _).trans hperm.symm).append_right m.pausedStates)
      _ |>.Perm (m.base ++ m.pausedStates ++ m.addedStates) := by
          rw [List.append_assoc, List.append_assoc]
          exact List.perm_append_comm.append_left m.base
      _ |>.Perm (m.states ++ m.addedStates) := hsplit.append_right m.addedStates

/-- What holds between two steps of the executor: the handlers and the searcher have live states only, and every live
state is either paused or in the underlying searcher. -/
structure Consistent (m : Machine) : Prop where
  opened : ∀ h ∈ m.mergeGroups, ∀ es ∈ (m.handler h).openStates, es ∈ m.states
  reached : ∀ h ∈ m.mergeGroups, ∀ group ∈ (m.handler h).reachedCloseMerge, ∀ es ∈ group.2, es ∈ m.states
  paused : ∀ es ∈ m.pausedStates, es ∈ m.states
  pausedNodup : m.pausedStates.Nodup
  either : ∀ es ∈ m.states, es ∈ m.pausedStates ∨ es ∈ m.base
  notBoth : ∀ es ∈ m.pausedStates, es ∉ m.base

theorem Good.consistent (hg : Good m) (hadd : m.addedStates = []) : Consistent m := by
  have hi := hg.inv
  have hwaiting : ∀ h ∈ m.mergeGroups, ∀ es ∈ (m.handler h).waiting, es ∈ m.states := fun h hh es hes =>
    hi.paused_live (hi.paused_iff.mpr ⟨h, hh, hes⟩)
  refine ⟨?_, ?_, fun es hes => hi.paused_live hes, hi.paused_nodup, ?_, ?_⟩
  · intro h hh es hes
    have := ((hi.openMem h hh es).mp hes).1
    rwa [hadd, List.append_nil] at this
  · intro h hh group hgroup es hes
    exact hwaiting h hh es (List.mem_flatMap.mpr ⟨group, hgroup, hes⟩)
  · intro es hes
    by_cases hp : es ∈ m.pausedStates
    · exact .inl hp
    · exact .inr (hi.mem_base hes hp)
  · intro es hp hb
    exact (List.nodup_append.mp (List.nodup_append.mp hi.split_nodup).1).2.2 es hb es hp rfl

theorem Good.updateStates (hg : Good m) (hsafe : m.Safe .updateStates) :
    ∃ m', m.step .updateStates = some m' ∧ Good m' ∧ m'.addedStates = [] := by
  obtain ⟨m₁, hrun, hrem, hi₁⟩ := hg.updateSearcher hsafe
  obtain ⟨m₂, hrun₂, hi₂, hadd₂⟩ := hi₁.eraseStates rfl
  refine ⟨{ m₂ with removedStates := [], current := none }, ?_, ⟨⟨.nil, ?_, ?_, ?_, fun _ => hadd₂⟩, hi₂.congr _ _⟩,
    hadd₂⟩
  · rw [step, Machine.updateStates, hrun]
    rw [← hrem] at hrun₂
    simp only [hrun₂, Option.map_some]
  · intro es hes
    cases hes
  · intro es hes
    cases hes
  · intro cur hc
    cases hc

/-! ## Every run -/

theorem Good.step (hg : Good m) {e : Event} (hok : m.Allowed e) (hsafe : m.Safe e) :
    ∃ m', m.step e = some m' ∧ Good m' ∧ (e = .updateStates → Consistent m') := by
  cases e with
  | select inp =>
    obtain ⟨m', hrun, hgood⟩ := hg.select inp hok
    exact ⟨m', hrun, hgood, fun he => by cases he⟩
  | branch state new =>
    obtain ⟨m', hrun, hgood⟩ := hg.branch hok
    exact ⟨m', hrun, hgood, fun he => by cases he⟩
  | openMerge state =>
    obtain ⟨m', hrun, hgood⟩ := hg.openMerge hok
    exact ⟨m', hrun, hgood, fun he => by cases he⟩
  | closeMerge state mp merge =>
    obtain ⟨m', hrun, hgood⟩ := hg.closeMerge hok hsafe
    exact ⟨m', hrun, hgood, fun he => by cases he⟩
  | terminate state =>
    obtain ⟨m', hrun, hgood⟩ := hg.terminate hok hsafe
    exact ⟨m', hrun, hgood, fun he => by cases he⟩
  | updateStates =>
    obtain ⟨m', hrun, hgood, hadd⟩ := hg.updateStates hsafe
    exact ⟨m', hrun, hgood, fun _ => hgood.consistent hadd⟩

/-- The machines of the runs whose events are all safe. -/
inductive SafeRun (initialStates : List StateId) : Machine → Prop
  | start : SafeRun initialStates (init initialStates)
  | step {m m' : Machine} {e : Event} (h : SafeRun initialStates m) (hok : m.Allowed e) (hsafe : m.Safe e)
      (hstep : m.step e = some m') : SafeRun initialStates m'

theorem SafeRun.good {initialStates : List StateId} (hnodup : initialStates.Nodup) (h : SafeRun initialStates m) :
    Good m := by
  induction h with
  | start => exact good_init hnodup
  | step _ hok hsafe hstep ih =>
    obtain ⟨m', hrun, hgood, -⟩ := ih.step hok hsafe
    rw [hstep, Option.some.injEq] at hrun
    exact hrun ▸ hgood

/-- In every run of safe events, no event fails, so that the underlying searcher is never told to remove a state that it
does not have, and after every update no terminated state is left anywhere. -/
theorem merging_consistent (initialStates : List StateId) (hnodup : initialStates.Nodup) (m : Machine)
    (h : SafeRun initialStates m) (e : Event) (hok : m.Allowed e) (hsafe : m.Safe e) :
    ∃ m', m.step e = some m' ∧ (e = .updateStates → Consistent m') := by
  obtain ⟨m', hrun, -, hcons⟩ := (h.good hnodup).step hok hsafe
  exact ⟨m', hrun, hcons⟩

/-- Two states are in a merge region; one of them waits at its end, and the other one goes on. -/
theorem merging_consistent_waiting : ∃ m, SafeRun [0] m ∧ m.pausedStates = [0] ∧
    ∃ m', m.step .updateStates = some m' ∧ Consistent m' := by
  have h₀ : SafeRun [0] (init [0]) := .start
  have h₁ := h₀.step (e := .select {}) ⟨rfl, rfl, by decide⟩ trivial rfl
  have h₂ := h₁.step (e := .openMerge 0) ⟨.inl rfl, by decide, by decide⟩ trivial rfl
  have h₃ := h₂.step (e := .branch 0 1) ⟨⟨.inl rfl, by decide, by decide⟩, by decide⟩ trivial rfl
  have h₄ := h₃.step (e := .updateStates) trivial (fun _ _ hp => absurd hp List.not_mem_nil) rfl
  have h₅ := h₄.step (e := .select {}) ⟨rfl, rfl, by decide⟩ trivial rfl
  have h₆ := h₅.step (e := .closeMerge 0 7 fun _ => false) ⟨.inl rfl, by decide, by decide⟩
    (List.not_mem_nil (a := 0)) rfl
  obtain ⟨m', hrun, hcons⟩ := merging_consistent [0] (by decide) _ h₆ .updateStates trivial fun _ _ _ => ⟨rfl, rfl⟩
  exact ⟨_, h₆, by decide, m', hrun, hcons rfl⟩

/-- With the two states as above, `checkMemoryUsage` terminates the one that waits: the underlying searcher is told to
remove a state that it does not have. -/
theorem paused_state_killed : ∃ m, Reachable [0] m ∧ m.current = none ∧ m.removedStates = [0] ∧ m.pausedStates = [0] ∧
    m.base = [1] ∧ m.step .updateStates = none := by
  have h₀ : Reachable [0] (init [0]) := .start
  have h₁ := h₀.step (e := .select {}) ⟨rfl, rfl, by decide⟩ rfl
  have h₂ := h₁.step (e := .openMerge 0) ⟨.inl rfl, by decide, by decide⟩ rfl
  have h₃ := h₂.step (e := .updateStates) trivial rfl
  have h₄ := h₃.step (e := .select {}) ⟨rfl, rfl, by decide⟩ rfl
  have h₅ := h₄.step (e := .branch 0 1) ⟨⟨.inl rfl, by decide, by decide⟩, by decide⟩ rfl
  have h₆ := h₅.step (e := .updateStates) trivial rfl
  have h₇ := h₆.step (e := .select {}) ⟨rfl, rfl, by decide⟩ rfl
  have h₈ := h₇.step (e := .closeMerge 0 7 fun _ => false) ⟨.inl rfl, by decide, by decide⟩ rfl
  have h₉ := h₈.step (e := .updateStates) trivial rfl
  have h₁₀ := h₉.step (e := .terminate 0) ⟨by decide, .inr (.inr ⟨rfl, by decide⟩)⟩ rfl
  exact ⟨_, h₁₀, rfl, by decide, by decide, by decide, rfl⟩

end CgsKlee.Merging.Machine
