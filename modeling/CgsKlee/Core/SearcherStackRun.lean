import CgsKlee.Core.SearcherStack
import CgsKlee.Lib.Bags

/-!
# No state is lost in a stack of searchers

Every core searcher of the stack has the live states that are not paused, each of them once.  The invariant goes up
through the stack: a core searcher has a list of states up to its order, the searchers above pass on the same list, and
an `IterativeDeepeningTimeSearcher` splits it into the states below and the paused ones.
-/

namespace CgsKlee.SearcherStack

variable {W : Type}

/-! ## Core searchers -/

variable {rest states removedStates live : List StateId} {current : Option StateId}

theorem eraseFound_spec {state : StateId} (h : states.Perm (state :: rest)) :
    ∃ l, eraseFound states state = some l ∧ l.Perm rest := by
  have hmem : state ∈ states := h.mem_iff.mpr (by simp)
  refine ⟨states.erase state, if_pos hmem, ?_⟩
  have := h.erase state
  rwa [List.erase_cons_head] at this

theorem removeDfs_spec {state : StateId} (h : states.Perm (state :: rest)) :
    ∃ l, removeDfs states state = some l ∧ l.Perm rest := by
  cases hlast : states.getLast? with
  | none =>
    rw [List.getLast?_eq_none_iff] at hlast
    subst hlast
    have := h.length_eq
    simp at this
  | some back =>
    rw [removeDfs, hlast]
    by_cases hback : state = back
    · subst hback
      refine ⟨states.dropLast, if_pos rfl, ?_⟩
      have hsplit : states.dropLast ++ [state] = states := List.dropLast_append_getLast? state hlast
      have hperm : (state :: states.dropLast).Perm (state :: rest) := by
        have := (List.perm_append_singleton state states.dropLast).symm
        rw [hsplit] at this
        exact this.trans h
      exact hperm.cons_inv
    · simp only [if_neg hback]
      exact eraseFound_spec h

theorem removeBfs_spec {state : StateId} (h : states.Perm (state :: rest)) :
    ∃ l, removeBfs states state = some l ∧ l.Perm rest := by
  cases states with
  | nil =>
    have := h.length_eq
    simp at this
  | cons front tail =>
    rw [removeBfs]
    by_cases hfront : state = front
    · subst hfront
      exact ⟨tail, if_pos rfl, h.cons_inv⟩
    · simp only [if_neg hfront]
      exact eraseFound_spec h

theorem rotateBfs_spec
    (hcur : ∀ cur, current = some cur → cur ∈ states) (addedStates removedStates : List StateId) :
    ∃ l, rotateBfs states current addedStates removedStates = some l ∧ l.Perm states := by
  cases current with
  | none => exact ⟨states, rfl, .refl _⟩
  | some cur =>
    rw [rotateBfs]
    split
    · have hmem := hcur cur rfl
      refine ⟨states.erase cur ++ [cur], by simp [eraseFound, hmem], ?_⟩
      exact (List.perm_append_singleton _ _).trans (List.perm_cons_erase hmem).symm
    · exact ⟨states, rfl, .refl _⟩

namespace DiscretePDF

variable {pdf : DiscretePDF W}

theorem keys_insert {item : StateId} {weight : W} (h : item ∉ pdf.keys) :
    ∃ pdf', pdf.insert item weight = some pdf' ∧ pdf'.keys.Perm (pdf.keys ++ [item]) := by
  refine ⟨pdf ++ [(item, weight)], if_neg h, ?_⟩
  simp [keys]

theorem keys_update {item : StateId} {weight : W} (h : item ∈ pdf.keys) :
    ∃ pdf', pdf.update item weight = some pdf' ∧ pdf'.keys = pdf.keys := by
  refine ⟨_, if_pos h, ?_⟩
  rw [keys, keys, List.map_map]
  refine List.map_congr_left fun e _ => ?_
  by_cases he : e.1 = item
  · simp [he]
  · simp [he]

theorem keys_remove {item : StateId} {rest : List StateId} (h : pdf.keys.Perm (item :: rest)) :
    ∃ pdf', pdf.remove item = some pdf' ∧ pdf'.keys.Perm rest := by
  have hmem : item ∈ pdf.keys := h.mem_iff.mpr (by simp)
  refine ⟨_, if_pos hmem, ?_⟩
  have hkeys : keys (pdf.eraseP fun e => e.1 = item) = pdf.keys.erase item := by
    rw [keys, keys, List.erase_eq_eraseP', List.eraseP_map]
    rfl
  have := h.erase item
  rw [List.erase_cons_head] at this
  rw [hkeys]
  exact this

end DiscretePDF

theorem reweigh_spec (type : WeightType) (getWeight : WeightType → StateId → W) {states : DiscretePDF W} (hcur : ∀ cur, current = some cur → cur ∈ states.keys) (removedStates : List StateId) :
    ∃ pdf, reweigh type getWeight states current removedStates = some pdf ∧ pdf.keys = states.keys := by
  cases current with
  | none => exact ⟨states, rfl, rfl⟩
  | some cur =>
    rw [reweigh]
    split
    · exact DiscretePDF.keys_update (hcur cur rfl)
    · exact ⟨states, rfl, rfl⟩

theorem removeStates_spec {remove : List StateId → StateId → Option (List StateId)}
    (hremove : ∀ {states rest : List StateId} {state : StateId}, states.Perm (state :: rest) →
      ∃ l, remove states state = some l ∧ l.Perm rest) (h : states.Perm (removedStates ++ rest)) :
    ∃ l, removedStates.foldlM remove states = some l ∧ l.Perm rest :=
  Bags.foldlM_remove id (fun _ _ _ => hremove) h

namespace CoreSearcher

variable {live : List StateId} {s : CoreSearcher W}

theorem update_spec (getWeight : WeightType → StateId → W) {rest : List StateId}
    {current : Option StateId} {addedStates removedStates : List StateId} (h : s.held.Perm live)
    (hcur : ∀ cur, current = some cur → cur ∈ live) (hnodup : (live ++ addedStates).Nodup)
    (hrest : (live ++ addedStates).Perm (removedStates ++ rest)) :
    ∃ s', s.update getWeight current addedStates removedStates = some s' ∧ s'.held.Perm rest := by
  have hheld : ∀ cur, current = some cur → cur ∈ s.held := fun cur hc => h.mem_iff.mpr (hcur cur hc)
  have hall := (h.append_right addedStates).trans hrest
  cases s with
  | dfs states =>
    simp only [held] at hall
    obtain ⟨l, hrun, hl⟩ := removeStates_spec removeDfs_spec hall
    exact ⟨dfs l, by simp [update, hrun], hl⟩
  | bfs states =>
    simp only [held] at hall hheld
    obtain ⟨l, hrot, hl⟩ := rotateBfs_spec hheld addedStates removedStates
    obtain ⟨l', hrun, hl'⟩ := removeStates_spec removeBfs_spec ((hl.append_right addedStates).trans hall)
    exact ⟨bfs l', by simp [update, hrot, hrun], hl'⟩
  | random states =>
    simp only [held] at hall
    obtain ⟨l, hrun, hl⟩ := removeStates_spec eraseFound_spec hall
    exact ⟨random l, by simp [update, hrun], hl⟩
  | weightedRandom type states =>
    simp only [held] at hall hheld h
    obtain ⟨pdf, hrun, hpdf⟩ := reweigh_spec type getWeight hheld removedStates
    have hins : (pdf.keys ++ addedStates).Nodup := by
      rw [hpdf]
      exact (h.append_right addedStates).nodup_iff.mpr hnodup
    obtain ⟨pdf₁, hrun₁, hpdf₁⟩ := Bags.foldlM_insert DiscretePDF.keys
      (fun pdf state => pdf.insert state (getWeight type state)) (fun _ _ => DiscretePDF.keys_insert) hins
    rw [hpdf] at hpdf₁
    obtain ⟨pdf₂, hrun₂, hpdf₂⟩ := Bags.foldlM_remove DiscretePDF.keys (fun _ _ _ => DiscretePDF.keys_remove)
      (hpdf₁.trans hall)
    exact ⟨weightedRandom type pdf₂, by simp [update, hrun, hrun₁, hrun₂], hpdf₂⟩

theorem selectState_spec (h : s.held.Perm live) (hne : live ≠ [])
    (choice : Nat) : ∃ state ∈ live, s.selectState choice = some state := by
  have hheld : s.held ≠ [] := by
    intro hnil
    rw [hnil, List.nil_perm] at h
    exact hne h
  have hpos := List.length_pos_of_ne_nil hheld
  -- a state at some place of the list
  have hget : ∀ {l : List StateId}, l = s.held → ∃ state ∈ live, l[choice % l.length]? = some state := by
    rintro l rfl
    have hlt := Nat.mod_lt choice hpos
    exact ⟨_, h.mem_iff.mp (List.getElem_mem hlt), List.getElem?_eq_getElem hlt⟩
  cases s with
  | dfs states => exact ⟨_, h.mem_iff.mp (List.getLast_mem hheld), List.getLast?_eq_some_getLast hheld⟩
  | bfs states => exact ⟨_, h.mem_iff.mp (List.head_mem hheld), List.head?_eq_some_head hheld⟩
  | random states => exact hget rfl
  | weightedRandom type states =>
    have hkeys : ∃ state ∈ live, (states.keys)[choice % states.keys.length]? = some state := hget rfl
    rwa [DiscretePDF.keys, List.length_map] at hkeys

theorem empty_iff (h : s.held.Perm live) : s.empty = true ↔ live = [] := by
  have hnil : s.held = [] ↔ live = [] := by
    constructor
    · intro hs
      rwa [hs, List.nil_perm] at h
    · rintro rfl
      exact h.eq_nil
  rw [← hnil]
  cases s with
  | dfs states => exact List.isEmpty_iff
  | bfs states => exact List.isEmpty_iff
  | random states => exact List.isEmpty_iff
  | weightedRandom type states => simp [empty, held, DiscretePDF.keys]

end CoreSearcher

/-! ## The searchers above -/

def Base.InRange : Base W → Prop
  | .core _ => True
  | .interleaved searchers index => 0 < index ∧ index ≤ searchers.length

def Base.Holds (s : Base W) (live : List StateId) : Prop := (∀ c ∈ s.cores, c.held.Perm live) ∧ s.InRange

theorem Base.update_spec (getWeight : WeightType → StateId → W) {s : Base W} {addedStates : List StateId} (h : s.Holds live)
    (hcur : ∀ cur, current = some cur → cur ∈ live) (hnodup : (live ++ addedStates).Nodup)
    (hrest : (live ++ addedStates).Perm (removedStates ++ rest)) :
    ∃ s', s.update getWeight current addedStates removedStates = some s' ∧ s'.Holds rest := by
  obtain ⟨hcores, hindex⟩ := h
  cases s with
  | core searcher =>
    obtain ⟨s', hrun, hheld⟩ := CoreSearcher.update_spec getWeight (hcores searcher (by simp [cores])) hcur hnodup hrest
    refine ⟨.core s', by simp [update, hrun], ?_, trivial⟩
    intro c hc
    obtain rfl := List.mem_singleton.mp hc
    exact hheld
  | interleaved searchers index =>
    have hall : ∀ c ∈ searchers, ∃ c', c.update getWeight current addedStates removedStates = some c' ∧
        c'.held.Perm rest := fun c hc => CoreSearcher.update_spec getWeight (hcores c hc) hcur hnodup hrest
    obtain ⟨l, hrun, hlen, hheld⟩ := Bags.mapM_of_forall hall
    refine ⟨.interleaved l index, by simp [update, hrun], hheld, ?_⟩
    rw [InRange] at hindex ⊢
    omega

theorem Base.selectState_spec {s : Base W} (h : s.Holds live) (hne : live ≠ []) (choice : Nat) :
    ∃ state ∈ live, ∃ s', s.selectState choice = some (state, s') ∧ s'.Holds live := by
  obtain ⟨hcores, hindex⟩ := h
  cases s with
  | core searcher =>
    obtain ⟨state, hmem, hsel⟩ := CoreSearcher.selectState_spec (hcores searcher (by simp [cores])) hne choice
    exact ⟨state, hmem, .core searcher, by simp [selectState, hsel], hcores, trivial⟩
  | interleaved searchers index =>
    obtain ⟨hpos, hle⟩ := hindex
    have hlt : index - 1 < searchers.length := by omega
    obtain ⟨state, hmem, hsel⟩ := CoreSearcher.selectState_spec (hcores _ (List.getElem_mem hlt)) hne choice
    refine ⟨state, hmem, .interleaved searchers (if index - 1 = 0 then searchers.length else index - 1), ?_, hcores, ?_⟩
    · simp [selectState, List.getElem?_eq_getElem hlt, hsel]
    · rw [InRange]
      split <;> omega

theorem Base.empty_iff {s : Base W} (h : s.Holds live) : s.empty = true ↔ live = [] := by
  obtain ⟨hcores, hindex⟩ := h
  cases s with
  | core searcher => exact CoreSearcher.empty_iff (hcores searcher (by simp [cores]))
  | interleaved searchers index =>
    cases searchers with
    | nil =>
      rw [InRange, List.length_nil] at hindex
      omega
    | cons searcher rest => exact CoreSearcher.empty_iff (hcores searcher (by simp [cores]))

def Batched.LastIn (live : List StateId) : Batched W → Prop
  | .plain _ => True
  | .batching searcher => ∀ last, searcher.lastState = some last → last ∈ live

def Batched.Holds (s : Batched W) (live : List StateId) : Prop := s.base.Holds live ∧ s.LastIn live

theorem Batched.update_spec (getWeight : WeightType → StateId → W) {s : Batched W} {addedStates : List StateId} (h : s.Holds live)
    (hcur : ∀ cur, current = some cur → cur ∈ live) (hnodup : (live ++ addedStates).Nodup)
    (hrest : (live ++ addedStates).Perm (removedStates ++ rest)) :
    ∃ s', s.update getWeight current addedStates removedStates = some s' ∧ s'.Holds rest := by
  obtain ⟨hbase, hlast⟩ := h
  obtain ⟨base, hrun, hheld⟩ := Base.update_spec getWeight hbase hcur hnodup hrest
  cases s with
  | plain searcher =>
    have hrun : searcher.update getWeight current addedStates removedStates = some base := hrun
    exact ⟨.plain base, by simp [update, hrun], hheld, trivial⟩
  | batching searcher =>
    refine ⟨.batching { searcher with
      baseSearcher := base
      lastState := if searcher.lastState.any (· ∈ removedStates) then none else searcher.lastState }, ?_, hheld, ?_⟩
    · have hrun : searcher.baseSearcher.update getWeight current addedStates removedStates = some base := hrun
      simp [update, BatchingSearcher.update, hrun]
    · intro last hsome
      have hsome : (if searcher.lastState.any (· ∈ removedStates) then none else searcher.lastState) = some last := hsome
      split at hsome
      · cases hsome
      · rename_i hany
        -- the last state was not removed
        have hnot : last ∉ removedStates := by
          intro hmem
          exact hany (by simp [hsome, hmem])
        have hmem := hrest.mem_iff.mp (List.mem_append_left addedStates (hlast last hsome))
        exact (List.mem_append.mp hmem).resolve_left hnot

theorem Batched.selectState_spec {s : Batched W} (h : s.Holds live) (hne : live ≠ [])
    (inp : SelectInput) : ∃ state ∈ live, ∃ s', s.selectState inp = some (state, s') ∧ s'.Holds live := by
  obtain ⟨hbase, hlast⟩ := h
  obtain ⟨state, hmem, base, hsel, hheld⟩ := Base.selectState_spec hbase hne inp.choice
  cases s with
  | plain searcher =>
    have hsel : searcher.selectState inp.choice = some (state, base) := hsel
    exact ⟨state, hmem, .plain base, by simp [selectState, hsel], hheld, trivial⟩
  | batching searcher =>
    have hsel : searcher.baseSearcher.selectState inp.choice = some (state, base) := hsel
    -- a new state is memoized
    have hnew : BatchingSearcher.selectState searcher inp =
          (searcher.baseSearcher.selectState inp.choice).bind (fun r => some (r.1, { searcher with
            baseSearcher := r.2
            timeBudget := searcher.raiseBudget inp
            lastState := some r.1
            lastStartTime := inp.lastStartTime
            lastStartInstructions := inp.instructions.setWidth 32 })) →
        ∃ state ∈ live, ∃ s', selectState (.batching searcher) inp = some (state, s') ∧ s'.Holds live := by
      intro heq
      refine ⟨state, hmem, .batching { searcher with
        baseSearcher := base
        timeBudget := searcher.raiseBudget inp
        lastState := some state
        lastStartTime := inp.lastStartTime
        lastStartInstructions := inp.instructions.setWidth 32 }, by simp [selectState, heq, hsel], hheld, ?_⟩
      intro last hsome
      have hsome : some state = some last := hsome
      exact Option.some.inj hsome ▸ hmem
    cases hl : searcher.lastState with
    | none => exact hnew (by simp [BatchingSearcher.selectState, hl])
    | some last =>
      cases hspent : searcher.budgetSpent inp with
      | true => exact hnew (by simp [BatchingSearcher.selectState, hl, hspent])
      | false =>
        exact ⟨last, hlast last hl, .batching searcher, by simp [selectState, BatchingSearcher.selectState, hl, hspent],
          hbase, hlast⟩

theorem Batched.empty_iff {s : Batched W} (h : s.Holds live) : s.empty = true ↔ live = [] :=
  Base.empty_iff h.1

/-! ## `IterativeDeepeningTimeSearcher` -/

namespace IterativeDeepeningTimeSearcher

/-- The states below and the paused ones are the states `live`. -/
def Splits (s : IterativeDeepeningTimeSearcher W) (below live : List StateId) : Prop :=
  s.baseSearcher.Holds below ∧ (below ++ s.pausedStates).Perm live

theorem filterPaused_foldl {pausedStates : List StateId} (h : pausedStates.Nodup) (removedStates alt : List StateId) :
    removedStates.foldl filterPaused (pausedStates, alt) =
      (pausedStates.filter (· ∉ removedStates), alt.filter fun x => ¬(x ∈ pausedStates ∧ x ∈ removedStates)) := by
  induction removedStates generalizing pausedStates alt with
  | nil => simp
  | cons state removedStates ih =>
    rw [List.foldl_cons, filterPaused]
    by_cases hmem : state ∈ pausedStates
    · simp only [if_pos hmem]
      rw [ih (h.erase state), h.erase_eq_filter state, List.filter_filter, List.filter_filter]
      congr 1
      · refine List.filter_congr fun x _ => ?_
        by_cases hx : x = state
        · simp [hx]
        · simp [hx]
      · refine List.filter_congr fun x _ => ?_
        by_cases hx : x = state
        · simp [hx, hmem]
        · simp [hx]
    · simp only [if_neg hmem]
      rw [ih h]
      congr 1
      · refine List.filter_congr fun x hx => ?_
        have hne : x ≠ state := by
          rintro rfl
          exact hmem hx
        simp [hne]
      · refine List.filter_congr fun x _ => ?_
        by_cases hx : x = state
        · simp [hx, hmem]
        · simp [hx]

theorem updateBase_eq (inp : UpdateInput W) {s : IterativeDeepeningTimeSearcher W} (h : s.pausedStates.Nodup)
    (current : Option StateId) (addedStates removedStates : List StateId) :
    s.updateBase inp current addedStates removedStates =
      (s.baseSearcher.update inp.getWeight current addedStates (removedStates.filter (· ∉ s.pausedStates))).map
        fun base => { s with baseSearcher := base, pausedStates := s.pausedStates.filter (· ∉ removedStates) } := by
  rw [updateBase]
  by_cases hnil : removedStates = []
  · subst hnil
    simp only [ne_eq, not_true_eq_false, if_false, List.filter_nil, List.not_mem_nil, not_false_eq_true, decide_true,
      List.filter_true]
    cases s.baseSearcher.update inp.getWeight current addedStates [] with
    | none => rfl
    | some base => rfl
  · have halt : (removedStates.filter fun x => ¬(x ∈ s.pausedStates ∧ x ∈ removedStates)) =
        removedStates.filter (· ∉ s.pausedStates) := by
      refine List.filter_congr fun x hx => ?_
      simp [hx]
    simp only [ne_eq, hnil, not_false_eq_true, if_true]
    rw [filterPaused_foldl h, halt]
    cases s.baseSearcher.update inp.getWeight current addedStates (removedStates.filter (· ∉ s.pausedStates)) with
    | none => rfl
    | some base => rfl

variable {s : IterativeDeepeningTimeSearcher W} {below live : List StateId} {current : Option StateId}
  {addedStates removedStates : List StateId}

theorem Splits.updateBase (h : s.Splits below live) (hlive : live.Nodup) (inp : UpdateInput W)
    (hcur : ∀ cur, current = some cur → cur ∈ below) (hadd : addedStates.Nodup)
    (hfresh : ∀ state ∈ addedStates, state ∉ live) (hrem : removedStates.Nodup)
    (hremlive : ∀ state ∈ removedStates, state ∈ live) :
    ∃ s', s.updateBase inp current addedStates removedStates = some s' ∧
      s'.Splits ((below ++ addedStates).filter (· ∉ removedStates)) (updateLive live addedStates removedStates) := by
  obtain ⟨hbase, hperm⟩ := h
  have hsplit : (below ++ s.pausedStates).Nodup := hperm.nodup_iff.mpr hlive
  obtain ⟨hbelow, hpaused, hdisj⟩ := List.nodup_append.mp hsplit
  have hfreshB : ∀ state ∈ addedStates, state ∉ below := fun state ha hb =>
    hfresh state ha (hperm.mem_iff.mp (List.mem_append_left _ hb))
  have hfreshP : ∀ state ∈ addedStates, state ∉ s.pausedStates := fun state ha hp =>
    hfresh state ha (hperm.mem_iff.mp (List.mem_append_right _ hp))
  have hnodup : (below ++ addedStates).Nodup :=
    List.nodup_append.mpr ⟨hbelow, hadd, fun a ha b hb hab => hfreshB b hb (hab ▸ ha)⟩
  -- what the underlying searcher is told to remove
  have halt : (below ++ addedStates).Perm (removedStates.filter (· ∉ s.pausedStates) ++
      (below ++ addedStates).filter (· ∉ removedStates)) := by
    have hsub : ∀ state ∈ removedStates.filter (· ∉ s.pausedStates), state ∈ below ++ addedStates := by
      intro state hstate
      simp only [List.mem_filter, decide_eq_true_eq] at hstate
      have hmem := hperm.mem_iff.mpr (hremlive state hstate.1)
      exact List.mem_append_left _ ((List.mem_append.mp hmem).resolve_right hstate.2)
    have hcongr : ((below ++ addedStates).filter fun b => b ∉ removedStates.filter (· ∉ s.pausedStates)) =
        (below ++ addedStates).filter (· ∉ removedStates) := by
      refine List.filter_congr fun x hx => ?_
      have hnot : x ∉ s.pausedStates := by
        obtain hx | hx := List.mem_append.mp hx
        · exact fun hp => hdisj x hx x hp rfl
        · exact hfreshP x hx
      simp [hnot]
    have := Bags.perm_append_filter hnodup (hrem.filter _) hsub
    rwa [hcongr] at this
  obtain ⟨base, hrun, hheld⟩ := Batched.update_spec inp.getWeight hbase hcur hnodup halt
  refine ⟨_, by rw [updateBase_eq inp hpaused, hrun]; rfl, hheld, ?_⟩
  show ((below ++ addedStates).filter (· ∉ removedStates) ++ s.pausedStates.filter (· ∉ removedStates)).Perm _
  rw [updateLive, ← List.filter_append]
  refine List.Perm.filter _ ?_
  calc (below ++ addedStates ++ s.pausedStates).Perm (below ++ (s.pausedStates ++ addedStates)) := by
        rw [List.append_assoc]
        exact List.perm_append_comm.append_left below
    _ = below ++ s.pausedStates ++ addedStates := (List.append_assoc ..).symm
    _ |>.Perm (live ++ addedStates) := hperm.append_right addedStates

theorem Splits.pauseCurrent (h : s.Splits below live) (hlive : live.Nodup) (inp : UpdateInput W) (elapsed : Int)
    (hcur : ∀ cur, current = some cur → cur ∉ removedStates → cur ∈ below) :
    ∃ s' below', s.pauseCurrent inp elapsed current removedStates = some s' ∧ s'.Splits below' live := by
  cases hc : current with
  | none => exact ⟨s, below, rfl, h⟩
  | some cur =>
    rw [IterativeDeepeningTimeSearcher.pauseCurrent]
    split
    · rename_i hcond
      obtain ⟨hbase, hperm⟩ := h
      have hmem := hcur cur hc hcond.1
      have hsplit : (below ++ s.pausedStates).Nodup := hperm.nodup_iff.mpr hlive
      obtain ⟨hbelow, -, hdisj⟩ := List.nodup_append.mp hsplit
      have hnot : cur ∉ s.pausedStates := fun hp => hdisj cur hmem cur hp rfl
      have hout : (below ++ []).Perm ([cur] ++ below.erase cur) := by
        rw [List.append_nil]
        exact List.perm_cons_erase hmem
      have hupd : ∃ base, s.baseSearcher.update inp.getWeight none [] [cur] = some base ∧ base.Holds (below.erase cur) :=
        Batched.update_spec inp.getWeight hbase (by simp) (by rwa [List.append_nil]) hout
      obtain ⟨base, hrun, hheld⟩ := hupd
      refine ⟨{ s with baseSearcher := base, pausedStates := s.pausedStates.insert cur }, below.erase cur,
        by simp [hrun], hheld, ?_⟩
      show (below.erase cur ++ s.pausedStates.insert cur).Perm live
      rw [List.insert_of_not_mem hnot]
      refine List.perm_middle.trans (List.Perm.trans ?_ hperm)
      exact ((List.perm_cons_erase hmem).symm.append_right s.pausedStates)
    · exact ⟨s, below, rfl, h⟩

theorem Splits.resumePaused (h : s.Splits below live) (hlive : live.Nodup) (inp : UpdateInput W)
    (horder : ∀ states, (inp.order states).Perm states) :
    ∃ s' below', s.resumePaused inp = some s' ∧ s'.Splits below' live ∧ (below' = [] → s'.pausedStates = []) := by
  obtain ⟨hbase, hperm⟩ := h
  rw [IterativeDeepeningTimeSearcher.resumePaused]
  by_cases hempty : s.baseSearcher.empty = true
  · have hnil := (Batched.empty_iff hbase).mp hempty
    subst hnil
    rw [List.nil_append] at hperm
    have hall : ([] ++ inp.order s.pausedStates).Perm live := (horder _).trans hperm
    have hupd : ∃ base, s.baseSearcher.update inp.getWeight none (inp.order s.pausedStates) [] = some base ∧
        base.Holds live := Batched.update_spec inp.getWeight hbase (by simp) (hall.nodup_iff.mpr hlive) hall
    obtain ⟨base, hrun, hheld⟩ := hupd
    refine ⟨{ s with baseSearcher := base, time := s.time * 2, pausedStates := [] }, live, by simp [hempty, hrun],
      ⟨hheld, by rw [List.append_nil]⟩, fun _ => rfl⟩
  · refine ⟨s, below, by simp [hempty], ⟨hbase, hperm⟩, fun hnil => ?_⟩
    exact absurd ((Batched.empty_iff hbase).mpr hnil) hempty

end IterativeDeepeningTimeSearcher

/-! ## The whole stack -/

namespace Stack

/-- The states below and the paused ones are the states `live`; if none is below, then none is paused. -/
def Holds (s : Stack W) (live : List StateId) : Prop :=
  ∃ below, s.batched.Holds below ∧ (below ++ s.paused).Perm live ∧ (below = [] → s.paused = [])

variable {s : Stack W} {live : List StateId} {current : Option StateId} {addedStates removedStates : List StateId}

def HasBelow (s : Stack W) (live : List StateId) (current : Option StateId) : Prop :=
  ∃ below, s.batched.Holds below ∧ (below ++ s.paused).Perm live ∧ ∀ cur, current = some cur → cur ∈ below

theorem HasBelow.update (h : s.HasBelow live current) (hlive : live.Nodup) (inp : UpdateInput W)
    (horder : ∀ states, (inp.order states).Perm states) (hadd : addedStates.Nodup)
    (hfresh : ∀ state ∈ addedStates, state ∉ live) (hrem : removedStates.Nodup)
    (hremlive : ∀ state ∈ removedStates, state ∈ live) :
    ∃ s', s.update inp current addedStates removedStates = some s' ∧
      s'.Holds (updateLive live addedStates removedStates) := by
  obtain ⟨below, hbase, hperm, hcur⟩ := h
  have hnodup : (live ++ addedStates).Nodup :=
    List.nodup_append.mpr ⟨hlive, hadd, fun a ha b hb hab => hfresh b hb (hab ▸ ha)⟩
  have hlive' : (updateLive live addedStates removedStates).Nodup := hnodup.filter _
  cases s with
  | plain searcher =>
    have hbase : searcher.Holds below := hbase
    have hperm : below.Perm live := by
      have : (below ++ []).Perm live := hperm
      rwa [List.append_nil] at this
    have hall := (hperm.append_right addedStates).trans
      (Bags.perm_append_filter hnodup hrem fun state hstate => List.mem_append_left _ (hremlive state hstate))
    obtain ⟨s', hrun, hheld⟩ := Batched.update_spec inp.getWeight hbase hcur
      ((hperm.append_right addedStates).nodup_iff.mpr hnodup) hall
    refine ⟨.plain s', by simp [Stack.update, hrun], _, hheld, ?_, fun _ => rfl⟩
    show (_ ++ []).Perm _
    rw [List.append_nil, updateLive]
  | deepening searcher =>
    have h₀ : searcher.Splits below live := ⟨hbase, hperm⟩
    obtain ⟨s₁, hrun₁, h₁⟩ := h₀.updateBase hlive inp hcur hadd hfresh hrem hremlive
    obtain ⟨s₂, below₂, hrun₂, h₂⟩ := h₁.pauseCurrent hlive' inp (inp.now - searcher.startTime) fun cur hc hnot => by
      simp only [List.mem_filter, List.mem_append, decide_eq_true_eq]
      exact ⟨.inl (hcur cur hc), hnot⟩
    obtain ⟨s₃, below₃, hrun₃, h₃, hnil⟩ := h₂.resumePaused hlive' inp horder
    refine ⟨.deepening s₃, ?_, below₃, h₃.1, h₃.2, hnil⟩
    simp [Stack.update, IterativeDeepeningTimeSearcher.update, hrun₁, hrun₂, hrun₃]

theorem Holds.selectState (h : s.Holds live) (hne : live ≠ []) (inp : SelectInput) :
    ∃ state ∈ live, ∃ s', s.selectState inp = some (state, s') ∧ s'.HasBelow live (some state) := by
  obtain ⟨below, hbase, hperm, hnil⟩ := h
  have hbelow : below ≠ [] := by
    rintro rfl
    rw [hnil rfl, List.append_nil, List.nil_perm] at hperm
    exact hne hperm
  obtain ⟨state, hmem, base, hsel, hheld⟩ := Batched.selectState_spec hbase hbelow inp
  have hstate : state ∈ live := hperm.mem_iff.mp (List.mem_append_left _ hmem)
  have hcur : ∀ cur, some state = some cur → cur ∈ below := fun cur hc => Option.some.inj hc ▸ hmem
  cases s with
  | plain searcher =>
    have hsel : searcher.selectState inp = some (state, base) := hsel
    exact ⟨state, hstate, .plain base, by simp [Stack.selectState, hsel], below, hheld, hperm, hcur⟩
  | deepening searcher =>
    have hsel : searcher.baseSearcher.selectState inp = some (state, base) := hsel
    exact ⟨state, hstate, .deepening { searcher with baseSearcher := base, startTime := inp.startTime },
      by simp [Stack.selectState, IterativeDeepeningTimeSearcher.selectState, hsel], below, hheld, hperm, hcur⟩

theorem Holds.empty_iff (h : s.Holds live) : s.empty = true ↔ live = [] := by
  obtain ⟨below, hbase, hperm, hnil⟩ := h
  have hlive : live = [] ↔ below = [] ∧ s.paused = [] := by
    constructor
    · rintro rfl
      exact List.append_eq_nil_iff.mp hperm.eq_nil
    · rintro ⟨rfl, hp⟩
      rwa [hp, List.append_nil, List.nil_perm] at hperm
  rw [hlive]
  cases s with
  | plain searcher =>
    have hempty : searcher.empty = true ↔ below = [] := Batched.empty_iff hbase
    simp [empty, hempty, paused]
  | deepening searcher =>
    have hempty : searcher.baseSearcher.empty = true ↔ below = [] := Batched.empty_iff hbase
    simp [empty, IterativeDeepeningTimeSearcher.empty, hempty, paused]

end Stack

theorem getNewSearcher_held {type : CoreSearchType} {s : CoreSearcher W} (h : getNewSearcher W type = some s) :
    s.held = [] := by
  cases type with
  | randomPath => cases h
  | _ =>
    obtain rfl := Option.some.inj h
    rfl

theorem constructUserSearcher_holds {o : Options} {s : Stack W} (h : constructUserSearcher W o = some s) :
    s.Holds [] := by
  simp only [constructUserSearcher, Option.bind_eq_bind, Option.bind_eq_some_iff, Option.pure_def,
    Option.some.injEq] at h
  obtain ⟨searchers, hmap, first, hfirst, rfl⟩ := h
  have hheld : ∀ c ∈ searchers, c.held.Perm [] := by
    intro c hc
    obtain ⟨type, -, htype⟩ := Loops.exists_of_forall₂ (Loops.mapM_forall₂ hmap) hc
    rw [getNewSearcher_held htype]
  have hbase : Base.Holds (if 1 < o.coreSearch.length then Base.interleaved searchers 1 else .core first) [] := by
    have hmem : first ∈ searchers := List.mem_of_head? hfirst
    split
    · exact ⟨hheld, Nat.one_pos, List.length_pos_of_mem hmem⟩
    · refine ⟨fun c hc => ?_, trivial⟩
      obtain rfl := List.mem_singleton.mp hc
      exact hheld c hmem
  refine ⟨[], ?_, ?_, ?_⟩
  · split <;> split
    · exact ⟨hbase, fun last hlast => by cases hlast⟩
    · exact ⟨hbase, trivial⟩
    · exact ⟨hbase, fun last hlast => by cases hlast⟩
    · exact ⟨hbase, trivial⟩
  · split <;> exact .refl _
  · intro _
    split <;> rfl

/-! ## Every run -/

namespace Config

structure Sound (c : Config W) : Prop where
  nodup : c.live.Nodup
  holds : c.searcher.Holds c.live

theorem Sound.step {c : Config W} (h : c.Sound) {e : Event W} (hok : c.Allowed e) :
    ∃ c', c.step e = some c' ∧ c'.Sound := by
  obtain ⟨hadd, hfresh, hrem, hremlive, horder, hrunning⟩ := hok
  have hlive' : (updateLive c.live e.added e.removed).Nodup := by
    refine List.Nodup.filter _ (List.nodup_append.mpr ⟨h.nodup, hadd, ?_⟩)
    intro a ha b hb hab
    exact hfresh b hb (hab ▸ ha)
  cases e with
  | round sel upd addedStates removedStates =>
    simp only [Event.added, Event.removed, Event.upd] at hadd hfresh hrem hremlive horder hlive'
    obtain ⟨cur, -, s₁, hsel, hbelow⟩ := h.holds.selectState (hrunning _ _ _ _ rfl) sel
    obtain ⟨s₂, hrun, hholds⟩ := hbelow.update h.nodup upd horder hadd hfresh hrem hremlive
    exact ⟨⟨s₂, updateLive c.live addedStates removedStates⟩, by simp [Config.step, hsel, hrun], hlive', hholds⟩
  | update upd addedStates removedStates =>
    simp only [Event.added, Event.removed, Event.upd] at hadd hfresh hrem hremlive horder hlive'
    obtain ⟨below, hbase, hperm, -⟩ := h.holds
    have hbelow : c.searcher.HasBelow c.live none := ⟨below, hbase, hperm, by simp⟩
    obtain ⟨s₂, hrun, hholds⟩ := hbelow.update h.nodup upd horder hadd hfresh hrem hremlive
    exact ⟨⟨s₂, updateLive c.live addedStates removedStates⟩, by simp [Config.step, hrun], hlive', hholds⟩

theorem Reachable.sound {o : Options} {c : Config W} (h : Reachable o c) : c.Sound := by
  induction h with
  | start h => exact ⟨.nil, constructUserSearcher_holds h⟩
  | step _ hok hstep ih =>
    obtain ⟨c', hrun, hsound⟩ := ih.step hok
    rw [hstep, Option.some.injEq] at hrun
    exact hrun ▸ hsound

/-- In every run, with every stack of searchers: each core searcher has the live states that are not paused, once; the
stack is empty iff no state is live, and selects a live state otherwise; and no update fails, so that no searcher is
told to remove or to re-rank a state that it does not have. -/
theorem stack_loses_no_state (o : Options) (c : Config W) (h : Reachable o c) :
    (∀ core ∈ c.searcher.cores, (core.held ++ c.searcher.paused).Perm c.live) ∧ c.live.Nodup ∧
    (c.searcher.empty = true ↔ c.live = []) ∧
    (c.live ≠ [] → ∀ sel, ∃ state ∈ c.live, ∃ s, c.searcher.selectState sel = some (state, s)) ∧
    ∀ e, c.Allowed e → ∃ c', c.step e = some c' := by
  have hsound := h.sound
  obtain ⟨below, hbase, hperm, hnil⟩ := hsound.holds
  refine ⟨?_, hsound.nodup, hsound.holds.empty_iff, ?_, ?_⟩
  · intro core hcore
    exact ((hbase.1.1 core hcore).append_right c.searcher.paused).trans hperm
  · intro hne sel
    obtain ⟨state, hmem, s, hsel, -⟩ := hsound.holds.selectState hne sel
    exact ⟨state, hmem, s, hsel⟩
  · intro e hok
    obtain ⟨c', hstep, -⟩ := hsound.step hok
    exact ⟨c', hstep⟩

/-- With all searchers of a stack: the initial state is selected, runs out of its time and forks. -/
theorem stack_loses_no_state_deepening : ∃ c : Config Nat,
    Reachable ⟨[.bfs, .nursCovNew], true, 5000000, 10000, true⟩ c ∧ c.live = [0, 1] ∧ c.searcher.paused = [0] ∧
    ∀ sel, ∃ state ∈ c.live, ∃ s, c.searcher.selectState sel = some (state, s) := by
  have h₀ : Reachable (W := Nat) ⟨[.bfs, .nursCovNew], true, 5000000, 10000, true⟩ _ := .start rfl
  have h₁ := h₀.step (e := .update ⟨0, fun _ _ => 1, id⟩ [0] [])
    ⟨by decide, by decide, by decide, by decide, fun _ => .refl _, fun _ _ _ _ he => by cases he⟩ rfl
  have h₂ := h₁.step (e := .round {} ⟨2000000, fun _ _ => 1, id⟩ [1] [])
    ⟨by decide, by decide, by decide, by decide, fun _ => .refl _, fun _ _ _ _ _ => by decide⟩ rfl
  refine ⟨_, h₂, by decide, by decide, ?_⟩
  exact (stack_loses_no_state _ _ h₂).2.2.2.1 (by decide)

end Config

end CgsKlee.SearcherStack
