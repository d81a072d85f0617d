import CgsKlee.Core.Handlers

/-!
# What the handlers do

`HandlerFrame` says what a handler may write.  For `Br`, `Switch` and `Store` there is one lemma each that lists what
can happen (`executeBr_cases`, `executeSwitch_cases`, `executeStore_cases`).
-/

namespace CgsKlee

/-- `w'` comes from `w` by what a handler with the current state `cur` may write. -/
structure HandlerFrame (cur : StateId) (w w' : World) : Prop where
  rest : w' = { w with
    heap := w'.heap, bdDep := w'.bdDep, bi2id := w'.bi2id, newFullyCoveredBranch := w'.newFullyCoveredBranch
    newPartlyCoveredBranch := w'.newPartlyCoveredBranch, fullyCoveredBranches := w'.fullyCoveredBranches
    partlyCoveredBranches := w'.partlyCoveredBranches, targetBranches := w'.targetBranches
    invalidBranches := w'.invalidBranches, reachBranchCount := w'.reachBranchCount
    invalidStoreValues := w'.invalidStoreValues, newBranchNumFromStore := w'.newBranchNumFromStore
    trueBranches := w'.trueBranches, falseBranches := w'.falseBranches, fullBranches := w'.fullBranches }
  heap : ∀ s, s ≠ cur → w'.heap s = w.heap s

namespace HandlerFrame

variable {cur : StateId}

theorem refl (w : World) : HandlerFrame cur w w := ⟨rfl, fun _ _ => rfl⟩

theorem trans {w₁ w₂ w₃ : World} (h₁ : HandlerFrame cur w₁ w₂) (h₂ : HandlerFrame cur w₂ w₃) :
    HandlerFrame cur w₁ w₃ :=
  ⟨h₂.rest.trans (by rw [h₁.rest]), fun s hs => (h₂.heap s hs).trans (h₁.heap s hs)⟩

end HandlerFrame

theorem KModule.recordEntry_keeps {m : KModule} {inst : InstID} {d d' : BDDep} {c1 c2 : BitVec 64}
    (h : m.recordEntry inst d c1 c2 = some d') : d'.stores = d.stores ∧ d'.unCoveredValues = d.unCoveredValues := by
  unfold KModule.recordEntry at h
  split at h
  · cases h
  · simp only [Option.map_eq_some_iff] at h
    obtain ⟨e, he, rfl⟩ := h
    have hes : e.stores = d.stores ∧ e.unCoveredValues = d.unCoveredValues := by
      unfold BDDep.record at he
      split at he <;> cases he <;> exact ⟨rfl, rfl⟩
    rw [← hes.1, ← hes.2]
    unfold BDDep.recordArith
    split <;> exact ⟨rfl, rfl⟩

namespace World

theorem setState_handlerFrame (w : World) (cur : StateId) (e : ExecState) : HandlerFrame cur w (w.setState cur e) :=
  ⟨rfl, fun _ hs => setState_heap_of_ne w e hs⟩

theorem addTarget_handlerFrame (cur : StateId) (w : World) (bid : BranchID) :
    HandlerFrame cur w (w.addTarget bid) := by
  unfold addTarget
  split <;> exact ⟨rfl, fun _ _ => rfl⟩

theorem coverBranch_handlerFrame (cur : StateId) (w : World) (bid : BranchID) :
    HandlerFrame cur w (w.coverBranch bid) := by
  unfold coverBranch
  split
  · exact HandlerFrame.refl w
  · dsimp only
    split
    · split <;> exact ⟨rfl, fun _ _ => rfl⟩
    · exact ⟨rfl, fun _ _ => rfl⟩

end World

/-- `w'` comes from `w` by the bookkeeping in front of the work lists when `cur` executes the branch `inst`: counters,
given-up branches, and the flag `reachBranch` of `cur`, which is set only if the branch has an id. -/
structure Noted (cur : StateId) (inst : InstID) (w w' : World) : Prop where
  rest : w' = { w with
    heap := w'.heap, invalidBranches := w'.invalidBranches, reachBranchCount := w'.reachBranchCount
    trueBranches := w'.trueBranches, falseBranches := w'.falseBranches, fullBranches := w'.fullBranches }
  heap : ∀ s, s ≠ cur → w'.heap s = w.heap s
  current : w'.heap cur = w.heap cur ∨
    (w.bi2id inst).isSome ∧ w'.heap cur = { w.heap cur with reachBranch := true }
  full : ∀ i, w.fullBranches i ≠ 0 → w'.fullBranches i ≠ 0
  invalid : ∀ bid ∈ w.invalidBranches, bid ∈ w'.invalidBranches

namespace Noted

variable {cur : StateId} {inst : InstID}

theorem refl (w : World) : Noted cur inst w w := ⟨rfl, fun _ _ => rfl, .inl rfl, fun _ h => h, fun _ h => h⟩

theorem bi2id {w w' : World} (h : Noted cur inst w w') : w'.bi2id = w.bi2id := by rw [h.rest]

theorem bdDep {w w' : World} (h : Noted cur inst w w') : w'.bdDep = w.bdDep := by rw [h.rest]

theorem targetBranches {w w' : World} (h : Noted cur inst w w') : w'.targetBranches = w.targetBranches := by
  rw [h.rest]

theorem partlyCoveredBranches {w w' : World} (h : Noted cur inst w w') :
    w'.partlyCoveredBranches = w.partlyCoveredBranches := by
  rw [h.rest]

theorem trans {w₁ w₂ w₃ : World} (h₁ : Noted cur inst w₁ w₂) (h₂ : Noted cur inst w₂ w₃) : Noted cur inst w₁ w₃ := by
  refine ⟨h₂.rest.trans (by rw [h₁.rest]), fun s hs => (h₂.heap s hs).trans (h₁.heap s hs), ?_,
    fun i hi => h₂.full i (h₁.full i hi), fun b hb => h₂.invalid b (h₁.invalid b hb)⟩
  rcases h₂.current with h | ⟨hb, h⟩
  · rw [h]
    exact h₁.current
  · refine .inr ⟨by rw [← h₁.bi2id]; exact hb, ?_⟩
    rcases h₁.current with h' | ⟨-, h'⟩ <;> rw [h, h']

end Noted

namespace World

theorem markBranchVisited_full (w : World) (inst : InstID) (t f : Bool) (i : InstID) (h : w.fullBranches i ≠ 0) :
    (w.markBranchVisited inst t f).fullBranches i ≠ 0 := by
  have key : ∀ g : InstID → Nat, g i ≠ 0 → Function.update g inst (g inst + 1) i ≠ 0 := fun g hg => by
    by_cases hi : i = inst
    · subst hi; simp
    · simp [hi, hg]
  unfold markBranchVisited
  dsimp only
  split
  · split
    · dsimp only
      split
      · split
        · exact key _ (key _ h)
        · exact key _ h
      · split
        · exact key _ h
        · exact h
    · dsimp only
      split
      · exact key _ h
      · exact h
  · split
    · dsimp only
      split
      · exact key _ h
      · exact h
    · exact h

theorem branchStats_noted (cur : StateId) (w : World) (inst : InstID) (t f tracked : Bool) :
    Noted cur inst w (w.branchStats inst t f tracked) := by
  unfold branchStats
  split
  · have hr : w.markBranchVisited inst t f = { w with
        trueBranches := (w.markBranchVisited inst t f).trueBranches
        falseBranches := (w.markBranchVisited inst t f).falseBranches
        fullBranches := (w.markBranchVisited inst t f).fullBranches } := by
      unfold markBranchVisited
      dsimp only
      split <;> split <;> rfl
    refine ⟨?_, fun _ _ => ?_, .inl ?_, markBranchVisited_full w inst t f, fun _ h => ?_⟩
    · rw [hr]
    · rw [hr]
    · rw [hr]
    · rw [hr]
      exact h
  · exact Noted.refl w

theorem branchStats_heap (w : World) (inst : InstID) (t f tracked : Bool) :
    (w.branchStats inst t f tracked).heap = w.heap := by
  unfold branchStats
  split
  · unfold markBranchVisited
    dsimp only
    split <;> split <;> rfl
  · rfl

theorem reachTarget_noted {w : World} {inst : InstID} (hb : (w.bi2id inst).isSome) (cur : StateId)
    (bid : BranchID) : Noted cur inst w (w.reachTarget cur bid) := by
  unfold reachTarget
  split
  · refine ⟨rfl, fun s hs => setState_heap_of_ne w _ hs, .inr ⟨hb, setState_heap_self w cur _⟩, fun _ h => h,
      fun b hb => ?_⟩
    dsimp only
    split
    · exact List.mem_insert_of_mem hb
    · exact hb
  · exact Noted.refl w

theorem countReach_noted (cur : StateId) (inst : InstID) (w : World) (bid : BranchID) :
    Noted cur inst w (w.countReach bid).1 := by
  unfold countReach
  split
  · exact ⟨rfl, fun _ _ => rfl, .inl rfl, fun _ h => h, fun _ h => h⟩
  · dsimp only
    split
    · exact ⟨rfl, fun _ _ => rfl, .inl rfl, fun _ h => h, fun _ h => List.mem_insert_of_mem h⟩
    · exact ⟨rfl, fun _ _ => rfl, .inl rfl, fun _ h => h, fun _ h => h⟩

theorem reachTarget_fullBranches (w : World) (cur : StateId) (bid : BranchID) :
    (w.reachTarget cur bid).fullBranches = w.fullBranches := by
  unfold reachTarget
  split <;> rfl

theorem countReach_fullBranches (w : World) (bid : BranchID) : (w.countReach bid).1.fullBranches = w.fullBranches := by
  unfold countReach
  split
  · rfl
  · dsimp only
    split <;> rfl

/-- What the `Br` handler can do: nothing more than the bookkeeping, note that the branch is fully covered, or record
its uncovered side and make it a target. -/
theorem executeBr_cases {w w' : World} {cur : StateId} {inst : InstID} {taken tracked : Bool}
    {v1 v2 : Option (BitVec 64)} (h : w.executeBr cur inst taken tracked v1 v2 = some w') :
    ∃ w₁, Noted cur inst w w₁ ∧ w₁.fullBranches = (w.branchStats inst taken (!taken) tracked).fullBranches ∧
      (w' = w₁ ∨ ∃ bid, w.bi2id inst = some bid ∧
        (w₁.fullBranches inst ≠ 0 ∧ w' = w₁.coverBranch bid ∨
          w₁.fullBranches inst = 0 ∧ bid ∉ w.invalidBranches ∧ bid ∉ w.targetBranches ∧
            bid ∉ w.partlyCoveredBranches ∧ ∃ d d' c1 c2, w.bdDep bid = some d ∧ d.stores ≠ [] ∧
              v1 = some c1 ∧ v2 = some c2 ∧ w.kmodule.recordEntry inst d c1 c2 = some d' ∧
              w' = { w₁ with bdDep := Function.update w₁.bdDep bid (some d') }.addTarget bid)) := by
  have hst := branchStats_noted cur w inst taken (!taken) tracked
  unfold executeBr at h
  dsimp only at h
  generalize w.branchStats inst taken (!taken) tracked = ws at h hst ⊢
  split at h
  · cases h
    exact ⟨_, hst, rfl, .inl rfl⟩
  · rename_i bid hbid
    have hr := hst.trans (reachTarget_noted (by rw [hbid]; rfl) cur bid)
    have hrf := reachTarget_fullBranches ws cur bid
    generalize ws.reachTarget cur bid = wr at h hr hrf
    have hbi : w.bi2id inst = some bid := by rw [← hst.bi2id]; exact hbid
    split at h
    · rename_i hfull
      cases h
      exact ⟨_, hr, hrf, .inr ⟨bid, hbi, .inl ⟨hfull, rfl⟩⟩⟩
    · rename_i hfull
      split at h
      · cases h
        exact ⟨_, hr, hrf, .inl rfl⟩
      · rename_i hnew
        split at h
        · cases h
        · rename_i d hd
          split at h
          · cases h
            exact ⟨_, hr, hrf, .inl rfl⟩
          · rename_i hst
            have hc := hr.trans (countReach_noted cur inst wr bid)
            have hcf := (countReach_fullBranches wr bid).trans hrf
            split at h
            · rename_i wc hwc
              cases h
              rw [hwc] at hc hcf
              exact ⟨_, hc, hcf, .inl rfl⟩
            · rename_i wc hwc
              rw [hwc] at hc hcf
              dsimp only at hc hcf
              unfold recordBranch at h
              split at h
              · rename_i c1 c2
                simp only [Option.map_eq_some_iff] at h
                obtain ⟨d', hd', rfl⟩ := h
                refine ⟨wc, hc, hcf, .inr ⟨bid, hbi, .inr ⟨?_, ?_, ?_, ?_, d, d', c1, c2, ?_, hst, rfl, rfl, ?_, rfl⟩⟩⟩
                · rw [hcf, ← hrf]
                  exact not_not.1 hfull
                · exact fun hm => hnew (.inl (hr.invalid bid hm))
                · rw [← hr.targetBranches]
                  exact fun hm => hnew (.inr (.inl hm))
                · rw [← hr.partlyCoveredBranches]
                  exact fun hm => hnew (.inr (.inr hm))
                · rw [← hr.bdDep]
                  exact hd
                · rw [hc.rest] at hd'
                  exact hd'
              · split at h
                · cases h
                  exact ⟨{ wc with invalidBranches := wc.invalidBranches.insert bid },
                    hc.trans ⟨rfl, fun _ _ => rfl, .inl rfl, fun _ h => h, fun _ h => List.mem_insert_of_mem h⟩,
                    hcf, .inl rfl⟩
                · cases h

theorem executeSwitch_cases {w w' : World} {cur : StateId} {inst : InstID} {value : BitVec 64}
    (h : w.executeSwitch cur inst value = some w') :
    w.bi2id inst = none ∧ w' = w ∨
    ∃ bid d d' w₁, w.bi2id inst = some bid ∧ w.bdDep bid = some d ∧ d' = d.coverCase (signedOf value) ∧
      Noted cur inst { w with bdDep := Function.update w.bdDep bid (some d') } w₁ ∧
      (w' = w₁ ∨ d'.unCoveredValues = [] ∧ w' = w₁.coverBranch bid ∨
        d'.unCoveredValues ≠ [] ∧ bid ∉ w.targetBranches ∧ bid ∉ w.partlyCoveredBranches ∧ d.stores ≠ [] ∧
          w' = w₁.addTarget bid) := by
  unfold executeSwitch at h
  split at h
  · cases h
    exact .inl ⟨‹_›, rfl⟩
  · rename_i bid hbid
    split at h
    · cases h
    · rename_i d hd
      refine .inr ?_
      dsimp only at h
      generalize hd' : d.coverCase (signedOf value) = d' at h
      have hstores : d'.stores = d.stores := by rw [← hd']; rfl
      -- the entry may as well be written before the target is looked up
      have hr : Noted cur inst { w with bdDep := Function.update w.bdDep bid (some d') }
          { w.reachTarget cur bid with bdDep := Function.update (w.reachTarget cur bid).bdDep bid (some d') } := by
        have hw := reachTarget_noted (w := w) (by rw [hbid]; rfl) cur bid
        exact ⟨by rw [hw.rest], hw.heap, hw.current, hw.full, hw.invalid⟩
      have hlists : (w.reachTarget cur bid).targetBranches = w.targetBranches ∧
          (w.reachTarget cur bid).partlyCoveredBranches = w.partlyCoveredBranches := by
        have hw := reachTarget_noted (w := w) (by rw [hbid]; rfl) cur bid
        exact ⟨hw.targetBranches, hw.partlyCoveredBranches⟩
      generalize w.reachTarget cur bid = wr at h hr hlists
      split at h
      · rename_i hcov
        cases h
        exact ⟨bid, d, d', _, hbid, hd, hd'.symm, hr, .inr (.inl ⟨hcov, rfl⟩)⟩
      · rename_i hcov
        split at h
        · cases h
          exact ⟨bid, d, d', _, hbid, hd, hd'.symm, hr, .inl rfl⟩
        · rename_i hnew
          split at h
          · cases h
            exact ⟨bid, d, d', _, hbid, hd, hd'.symm, hr, .inl rfl⟩
          · rename_i hst
            have hc := hr.trans (countReach_noted cur inst _ bid)
            split at h
            · rename_i wc hwc
              cases h
              rw [hwc] at hc
              exact ⟨bid, d, d', _, hbid, hd, hd'.symm, hc, .inl rfl⟩
            · rename_i wc hwc
              cases h
              rw [hwc] at hc
              refine ⟨bid, d, d', wc, hbid, hd, hd'.symm, hc, .inr (.inr ⟨hcov, ?_, ?_, hstores ▸ hst, rfl⟩)⟩
              · rw [← hlists.1]
                exact fun hm => hnew (.inr (.inl hm))
              · rw [← hlists.2]
                exact fun hm => hnew (.inr (.inr hm))

/-- Whether the store `sid` of `value` gives the target branch `bid` to the current state. -/
def storeHits (w : World) (sid : StoreID) (value : Signed) (bid : BranchID) : Bool :=
  value ∉ (w.invalidStoreValues bid).getD [] && (w.bdDep bid).any fun d => sid ∈ d.stores

end World

/-- `w'` comes from `w` by giving the branches `hits` to `cur` as new targets of the store `sid`. -/
structure StoreFrame (cur : StateId) (sid : StoreID) (hits : List BranchID) (w w' : World) : Prop where
  rest : w' = { w with
    heap := w'.heap, invalidStoreValues := w'.invalidStoreValues, newBranchNumFromStore := w'.newBranchNumFromStore }
  heap : ∀ s, s ≠ cur → w'.heap s = w.heap s
  infos : (w'.heap cur).branchInfos = (w.heap cur).branchInfos ++ hits.map fun bid => ⟨sid, bid⟩
  reachStore : (w'.heap cur).reachStore = ((w.heap cur).reachStore || !hits.isEmpty)
  reachBranch : (w'.heap cur).reachBranch = true → (w.heap cur).reachBranch = true
  count : w'.newBranchNumFromStore = w.newBranchNumFromStore + hits.length
  values : ∀ bid, (w'.invalidStoreValues bid).getD [] = (w.invalidStoreValues bid).getD []

namespace StoreFrame

variable {cur : StateId} {sid : StoreID}

theorem refl (w : World) : StoreFrame cur sid [] w w :=
  ⟨rfl, fun _ _ => rfl, by simp, by simp, id, rfl, fun _ => rfl⟩

theorem trans {w₁ w₂ w₃ : World} {l l' : List BranchID} (h₁ : StoreFrame cur sid l w₁ w₂)
    (h₂ : StoreFrame cur sid l' w₂ w₃) : StoreFrame cur sid (l ++ l') w₁ w₃ := by
  refine ⟨h₂.rest.trans (by rw [h₁.rest]), fun s hs => (h₂.heap s hs).trans (h₁.heap s hs), ?_, ?_,
    fun h => h₁.reachBranch (h₂.reachBranch h), ?_, fun bid => (h₂.values bid).trans (h₁.values bid)⟩
  · rw [h₂.infos, h₁.infos, List.map_append, List.append_assoc]
  · rw [h₂.reachStore, h₁.reachStore]
    cases l <;> cases l' <;> simp
  · rw [h₂.count, h₁.count, List.length_append, Nat.add_assoc]

theorem storeHits {w w' : World} {l : List BranchID} (h : StoreFrame cur sid l w w') :
    w'.storeHits = w.storeHits := by
  funext sid' value bid
  have hd : w'.bdDep = w.bdDep := by rw [h.rest]
  rw [World.storeHits, World.storeHits, h.values, hd]

end StoreFrame

namespace World

theorem storeTarget_frame {cur : StateId} {sid : StoreID} {value : Signed} {w w' : World} {bid : BranchID}
    (h : storeTarget cur sid value w bid = some w') :
    StoreFrame cur sid (if w.storeHits sid value bid then [bid] else []) w w' := by
  have hval : ∀ b, (Function.update w.invalidStoreValues bid (some ((w.invalidStoreValues bid).getD [])) b).getD [] =
      (w.invalidStoreValues b).getD [] := fun b => by
    by_cases hb : b = bid
    · subst hb; simp
    · simp [hb]
  unfold storeTarget at h
  dsimp only at h
  split at h
  · rename_i hv
    cases h
    have hn : w.storeHits sid value bid = false := by simp [storeHits, hv]
    rw [hn]
    exact ⟨rfl, fun _ _ => rfl, by simp, by simp, id, rfl, hval⟩
  · rename_i hv
    split at h
    · cases h
    · rename_i d hd
      split at h
      · rename_i hs
        cases h
        have hn : w.storeHits sid value bid = true := by simp [storeHits, hv, hd, hs]
        rw [hn]
        exact ⟨rfl, fun s hs => setState_heap_of_ne _ _ hs, by simp [setState], by simp [setState],
          by simp [setState], rfl, hval⟩
      · rename_i hs
        cases h
        have hn : w.storeHits sid value bid = false := by simp [storeHits, hd, hs]
        rw [hn]
        exact ⟨rfl, fun _ _ => rfl, by simp, by simp, id, rfl, hval⟩

theorem storeTargets_frame {cur : StateId} {sid : StoreID} {value : Signed} {l : List BranchID} {w w' : World}
    (h : l.foldlM (storeTarget cur sid value) w = some w') :
    StoreFrame cur sid (l.filter (w.storeHits sid value)) w w' := by
  induction l generalizing w with
  | nil =>
    simp only [List.foldlM_nil, Option.pure_def, Option.some.injEq] at h
    subst h
    exact StoreFrame.refl w
  | cons bid l ih =>
    simp only [List.foldlM_cons, Option.bind_eq_bind, Option.bind_eq_some_iff] at h
    obtain ⟨w₁, h₁, h₂⟩ := h
    have f₁ := storeTarget_frame h₁
    have f₂ := ih h₂
    rw [f₁.storeHits] at f₂
    rw [List.filter_cons]
    have f := f₁.trans f₂
    split at f <;> rename_i hb
    · rw [if_pos hb]
      exact f
    · rw [if_neg hb]
      exact f

theorem executeStore_cases {w w' : World} {cur : StateId} {inst : InstID} {isPointer : Bool}
    {value : Option (BitVec 64)} {iter : List (StoreID × Signed)}
    (h : w.executeStore cur inst isPointer value iter = some w') :
    w' = w ∨ ∃ v, value = some v ∧ w.si2id inst ≠ 0 ∧ isPointer = false ∧
      StoreFrame cur (w.si2id inst) (w.targetBranches.filter (w.storeHits (w.si2id inst) (signedOf v)))
        (w.rememberStore cur (w.si2id inst) (signedOf v) iter) w' := by
  unfold executeStore at h
  dsimp only at h
  split at h
  · cases h
    exact .inl rfl
  · rename_i v
    split at h
    · cases h
      exact .inl rfl
    · rename_i hc
      rw [not_or] at hc
      exact .inr ⟨v, rfl, hc.1, Bool.eq_false_of_not_eq_true hc.2, storeTargets_frame h⟩

theorem rememberStore_flags (w : World) (cur : StateId) (sid : StoreID) (value : Signed)
    (iter : List (StoreID × Signed)) :
    ((w.rememberStore cur sid value iter).heap cur).reachStore = (w.heap cur).reachStore ∧
      ((w.rememberStore cur sid value iter).heap cur).reachBranch = (w.heap cur).reachBranch := by
  unfold rememberStore
  dsimp only
  rw [setState_heap_self]
  split
  · exact ⟨rfl, rfl⟩
  · unfold dropSameVar
    split <;> exact ⟨rfl, rfl⟩

end World

theorem Noted.toHandlerFrame {cur : StateId} {inst : InstID} {w w' : World} (h : Noted cur inst w w') :
    HandlerFrame cur w w' :=
  ⟨by rw [h.rest], h.heap⟩

namespace World

theorem executeBr_frame {w w' : World} {cur : StateId} {inst : InstID} {taken tracked : Bool}
    {v1 v2 : Option (BitVec 64)} (h : w.executeBr cur inst taken tracked v1 v2 = some w') : HandlerFrame cur w w' := by
  obtain ⟨w₁, hn, -, h | ⟨bid, -, ⟨-, h⟩ | ⟨-, -, -, -, d, d', c1, c2, -, -, -, -, -, h⟩⟩⟩ := executeBr_cases h
  all_goals rw [h]
  · exact hn.toHandlerFrame
  · exact hn.toHandlerFrame.trans (coverBranch_handlerFrame cur w₁ bid)
  · have hf : HandlerFrame cur w₁ { w₁ with bdDep := Function.update w₁.bdDep bid (some d') } :=
      ⟨rfl, fun _ _ => rfl⟩
    exact (hn.toHandlerFrame.trans hf).trans (addTarget_handlerFrame cur _ bid)

theorem executeSwitch_frame {w w' : World} {cur : StateId} {inst : InstID} {value : BitVec 64}
    (h : w.executeSwitch cur inst value = some w') : HandlerFrame cur w w' := by
  rcases executeSwitch_cases h with ⟨-, rfl⟩ | ⟨bid, d, d', w₁, -, -, -, hn, hcases⟩
  · exact HandlerFrame.refl _
  · have hf : HandlerFrame cur w { w with bdDep := Function.update w.bdDep bid (some d') } :=
      ⟨rfl, fun _ _ => rfl⟩
    have hf := hf.trans hn.toHandlerFrame
    rcases hcases with rfl | ⟨-, rfl⟩ | ⟨-, -, -, -, rfl⟩
    · exact hf
    · exact hf.trans (coverBranch_handlerFrame cur w₁ bid)
    · exact hf.trans (addTarget_handlerFrame cur w₁ bid)

theorem executeStore_frame {w w' : World} {cur : StateId} {inst : InstID} {isPointer : Bool}
    {value : Option (BitVec 64)} {iter : List (StoreID × Signed)}
    (h : w.executeStore cur inst isPointer value iter = some w') : HandlerFrame cur w w' := by
  rcases executeStore_cases h with rfl | ⟨v, -, -, -, hs⟩
  · exact HandlerFrame.refl _
  · have hf : HandlerFrame cur w (w.rememberStore cur (w.si2id inst) (signedOf v) iter) :=
      setState_handlerFrame w cur _
    generalize w.rememberStore cur (w.si2id inst) (signedOf v) iter = w₁ at hs hf
    exact hf.trans ⟨by rw [hs.rest], hs.heap⟩

theorem executeSymbolicBr_frame (cur : StateId) (w : World) (inst : InstID) (t f tracked : Bool) :
    HandlerFrame cur w (w.executeSymbolicBr inst t f tracked) :=
  (branchStats_noted cur w inst t f tracked).toHandlerFrame.trans ⟨rfl, fun _ _ => rfl⟩

end World

end CgsKlee
