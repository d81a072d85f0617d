import CgsKlee.Core.Run

/-!
# Counting the new targets of a store

`newBranchNumFromStore` counts the entries that the `Store` handler appends to the `branchInfos` of the executing
state, and `update` steps back by it from the end of that list.  The counter belongs to the Executor, the list to the
state: if the state is terminated in the step, the counter is not reset.  It is exact in the runs in which this does
not happen to a store that gives its state a new target (`CountCondition`).
-/

namespace CgsKlee

namespace Config

/-- The target branches that the store executed in the iteration gives to its state. -/
def storeTargets (c : Config) (it : Iteration) : List BranchID :=
  match it.action with
  | .store inst isPointer (some v) _ =>
    if c.world.si2id inst = 0 ∨ isPointer then []
    else c.world.targetBranches.filter (c.world.storeHits (c.world.si2id inst) (signedOf v))
  | _ => []

/-- The `branchInfos` of `cur` when the loop of the `Store` handler starts. -/
def infosBefore (c : Config) (it : Iteration) (cur : StateId) : List BranchInfo :=
  let w := c.world.begin cur it
  match it.action with
  | .store inst isPointer (some v) iter =>
    if w.si2id inst = 0 ∨ isPointer then (w.heap cur).branchInfos
    else ((w.rememberStore cur (w.si2id inst) (signedOf v) iter).heap cur).branchInfos
  | _ => (w.heap cur).branchInfos

/-- When `update` enters its `reachStore` block, the counter is the number of entries that the handler appended in
this iteration, and the start iterator is in range. -/
def CountedExactly (c : Config) (it : Iteration) : Prop :=
  ∀ cur w w₁ w₂, c.execute it = some (cur, w) → cur ∉ it.removed → w.rotate cur it.added = some w₁ →
    w₁.reachBranchBlock cur = some w₂ → (w₂.heap cur).reachStore = true →
    (c.infosBefore it cur).length + w₂.newBranchNumFromStore = (w.heap cur).branchInfos.length ∧
      w₂.newBranchNumFromStore ≤ (w₂.heap cur).branchInfos.length

end Config

/-- A state that is terminated by its own store did not get a new target from it. -/
def CountCondition (c : Config) (it : Iteration) : Prop :=
  ∀ cur, c.world.selectState = some cur → cur ∈ it.removed → c.storeTargets it = []

namespace World

theorem handleFullyCoveredBranch_count {w w' : World} {cur : StateId} {bid : BranchID}
    (h : w.handleFullyCoveredBranch cur bid = some w') : w'.newBranchNumFromStore = w.newBranchNumFromStore := by
  obtain ⟨I, d, kept, moved, w₂, -, -, hs, rfl⟩ := handleFullyCoveredBranch_eq_some h
  have hr := unlinkStores_rest (w.kmodule.functionOf I) bid d.stores (w, [])
  generalize d.stores.foldl (unlinkStore (w.kmodule.functionOf I) bid) (w, []) = acc at hs hr
  have hf := (sweep_loopFrame (fun _ _ _ _ => visitCovered_frame) hs).newBranchNumFromStore
  rw [hr] at hf
  exact hf

theorem reachBranchBlock_count {w w' : World} {cur : StateId} (h : w.reachBranchBlock cur = some w') :
    w'.newBranchNumFromStore = w.newBranchNumFromStore := by
  rcases reachBranchBlock_eq_some h with ⟨-, rfl⟩ | ⟨-, w₁, ⟨-, h₁⟩ | ⟨-, rfl⟩, rfl⟩
  · rfl
  · obtain ⟨bid, w₂, sts, bsts, -, h₂, -, rfl⟩ := targetCovered_eq_some h₁
    have hc := handleFullyCoveredBranch_count h₂
    exact hc
  · show (w.targetMissed cur).newBranchNumFromStore = _
    unfold targetMissed
    dsimp only
    split <;> rfl

theorem newPartlyBlock_count {w w' : World} {cur : StateId} (h : w.newPartlyBlock cur = some w') :
    w'.newBranchNumFromStore = w.newBranchNumFromStore := by
  rcases newPartlyBlock_eq_some h with ⟨-, rfl⟩ | ⟨-, bid, w₁, -, h₁, rfl⟩
  · rfl
  · have hc := (handlePartlyCoveredBranch_frame h₁).newBranchNumFromStore
    exact hc

theorem update_count {w w' : World} {cur : StateId} {added removed : List StateId}
    (h : w.update (some cur) added removed = some w')
    (hw : w.newBranchNumFromStore = 0 ∨
      cur ∉ removed ∧ (w.heap cur).reachStore = true ∧ (w.heap cur).reachBranch = false) :
    w'.newBranchNumFromStore = 0 := by
  obtain ⟨w₁, w₂, h₁, h₂, h₃⟩ := update_cases h
  have hc₂ : w₂.newBranchNumFromStore = w₁.newBranchNumFromStore := by rw [(refreshBlock_refreshFrame h₂).rest]
  have hc₁ : w₁.newBranchNumFromStore = 0 := by
    rcases h₁ with ⟨hr, rfl⟩ | ⟨cur', hcur, hnr, hc⟩
    · exact hw.resolve_right fun h => h.1 (hr cur rfl)
    · cases hcur
      obtain ⟨u₁, u₂, u₃, k₁, k₂, k₃, k₄⟩ := updateCurrent_eq_some hc
      have hr := rotate_rest k₁
      rw [newPartlyBlock_count k₄]
      rcases reachStoreBlock_eq_some k₃ with ⟨hs, rfl⟩ | ⟨-, -, istart, kept, moved, v, -, -, rfl⟩
      · rcases hw with hw | ⟨-, hs', hb'⟩
        · rw [reachBranchBlock_count k₂, hr]
          exact hw
        · -- the block is entered if the flag is set, because no branch was reached in the same step
          rcases reachBranchBlock_eq_some k₂ with ⟨-, rfl⟩ | ⟨hb, -⟩
          · rw [hr] at hs
            exact absurd (hs'.symm.trans hs) (by decide)
          · rw [hr] at hb
            exact absurd (hb'.symm.trans hb) (by decide)
      · rfl
  rw [h₃]
  exact hc₂.trans hc₁

end World

/-- The counter and what a store may write of `cur` are the same. -/
structure KeepsInfos (cur : StateId) (w w' : World) : Prop where
  infos : (w'.heap cur).branchInfos = (w.heap cur).branchInfos
  reachStore : (w'.heap cur).reachStore = (w.heap cur).reachStore
  count : w'.newBranchNumFromStore = w.newBranchNumFromStore

namespace KeepsInfos

variable {cur : StateId}

theorem trans {w₁ w₂ w₃ : World} (h₁ : KeepsInfos cur w₁ w₂) (h₂ : KeepsInfos cur w₂ w₃) : KeepsInfos cur w₁ w₃ :=
  ⟨h₂.infos.trans h₁.infos, h₂.reachStore.trans h₁.reachStore, h₂.count.trans h₁.count⟩

theorem of_noted {inst : InstID} {w w' : World} (h : Noted cur inst w w') : KeepsInfos cur w w' := by
  refine ⟨?_, ?_, by rw [h.rest]⟩ <;> rcases h.current with hc | ⟨-, hc⟩ <;> rw [hc]

theorem coverBranch (w : World) (bid : BranchID) : KeepsInfos cur w (w.coverBranch bid) := by
  unfold World.coverBranch
  split
  · exact ⟨rfl, rfl, rfl⟩
  · dsimp only
    split
    · split <;> exact ⟨rfl, rfl, rfl⟩
    · exact ⟨rfl, rfl, rfl⟩

theorem addTarget (w : World) (bid : BranchID) : KeepsInfos cur w (w.addTarget bid) := by
  unfold World.addTarget
  split <;> exact ⟨rfl, rfl, rfl⟩

theorem execute {a : Action} {w w' : World} (h : a.execute w cur = some w')
    (ha : ∀ i p v iter, a ≠ .store i p v iter) : KeepsInfos cur w w' := by
  cases a with
  | br inst taken tracked v1 v2 =>
    obtain ⟨w₁, hn, -, hcases⟩ := World.executeBr_cases h
    rcases hcases with rfl | ⟨bid, -, ⟨-, rfl⟩ | ⟨-, -, -, -, d, d', c1, c2, -, -, -, -, -, rfl⟩⟩
    · exact of_noted hn
    · exact (of_noted hn).trans (coverBranch w₁ bid)
    · have hd : KeepsInfos cur w₁ { w₁ with bdDep := Function.update w₁.bdDep bid (some d') } := ⟨rfl, rfl, rfl⟩
      exact ((of_noted hn).trans hd).trans (addTarget _ bid)
  | symbolicBr inst t f tracked =>
    cases h
    exact (of_noted (World.branchStats_noted cur w inst t f tracked)).trans ⟨rfl, rfl, rfl⟩
  | switch inst value =>
    rcases World.executeSwitch_cases h with ⟨-, rfl⟩ | ⟨bid, d, d', w₁, -, -, -, hn, hcases⟩
    · exact ⟨rfl, rfl, rfl⟩
    · have hd : KeepsInfos cur w { w with bdDep := Function.update w.bdDep bid (some d') } := ⟨rfl, rfl, rfl⟩
      have hk := hd.trans (of_noted hn)
      rcases hcases with rfl | ⟨-, rfl⟩ | ⟨-, -, -, -, rfl⟩
      · exact hk
      · exact hk.trans (coverBranch w₁ bid)
      · exact hk.trans (addTarget w₁ bid)
  | store inst isPointer value iter => exact absurd rfl (ha inst isPointer value iter)
  | other inst =>
    cases h
    exact ⟨rfl, rfl, rfl⟩

end KeepsInfos

/-- The handler has added the new targets of a store to the counter and to the end of the list. -/
structure Counted (c : Config) (it : Iteration) (cur : StateId) (w : World) : Prop where
  count : w.newBranchNumFromStore = c.world.newBranchNumFromStore + (c.storeTargets it).length
  infos : (w.heap cur).branchInfos.length = (c.infosBefore it cur).length + (c.storeTargets it).length
  reachStore : (w.heap cur).reachStore =
    (((c.world.begin cur it).heap cur).reachStore || !(c.storeTargets it).isEmpty)
  reachBranch : c.storeTargets it ≠ [] → (w.heap cur).reachBranch = true →
    ((c.world.begin cur it).heap cur).reachBranch = true

theorem Counted.of_keeps {c : Config} {it : Iteration} {cur : StateId} {w : World}
    (hk : KeepsInfos cur (c.world.begin cur it) w) (ht : c.storeTargets it = [])
    (hi : c.infosBefore it cur = ((c.world.begin cur it).heap cur).branchInfos) : Counted c it cur w where
  count := by rw [hk.count, ht]; rfl
  infos := by rw [hk.infos, hi, ht]; rfl
  reachStore := by rw [hk.reachStore, ht]; simp
  reachBranch h := absurd ht h

theorem Counted.store {c : Config} {it : Iteration} {cur : StateId} {w : World} {inst : InstID} {isPointer : Bool}
    {value : Option (BitVec 64)} {iter : List (StoreID × Signed)} (ha : it.action = .store inst isPointer value iter)
    (h : (c.world.begin cur it).executeStore cur inst isPointer value iter = some w) : Counted c it cur w := by
  have hkeep : (c.storeTargets it = [] ∧ c.infosBefore it cur = ((c.world.begin cur it).heap cur).branchInfos) →
      w = c.world.begin cur it → Counted c it cur w := fun ht hw =>
    Counted.of_keeps (by rw [hw]; exact ⟨rfl, rfl, rfl⟩) ht.1 ht.2
  cases value with
  | none =>
    cases h
    exact hkeep ⟨by simp only [Config.storeTargets, ha], by simp only [Config.infosBefore, ha]⟩ rfl
  | some v =>
    by_cases hc : c.world.si2id inst = 0 ∨ isPointer = true
    · have hc' : (c.world.begin cur it).si2id inst = 0 ∨ isPointer = true := hc
      have hw : w = c.world.begin cur it := by
        unfold World.executeStore at h
        dsimp only at h
        rw [if_pos hc'] at h
        exact (Option.some.inj h).symm
      refine hkeep ⟨?_, ?_⟩ hw
      · simp only [Config.storeTargets, ha, if_pos hc]
      · simp only [Config.infosBefore, ha, if_pos hc']
    · have hc' : ¬ ((c.world.begin cur it).si2id inst = 0 ∨ isPointer = true) := hc
      have ht : c.storeTargets it =
          c.world.targetBranches.filter (c.world.storeHits (c.world.si2id inst) (signedOf v)) := by
        simp only [Config.storeTargets, ha, if_neg hc]
      have hi : c.infosBefore it cur = (((c.world.begin cur it).rememberStore cur (c.world.si2id inst)
          (signedOf v) iter).heap cur).branchInfos := by
        simp only [Config.infosBefore, ha, if_neg hc']
        rfl
      have hs : StoreFrame cur (c.world.si2id inst) (c.storeTargets it)
          ((c.world.begin cur it).rememberStore cur (c.world.si2id inst) (signedOf v) iter) w := by
        unfold World.executeStore at h
        dsimp only at h
        rw [if_neg hc'] at h
        rw [ht]
        exact World.storeTargets_frame h
      have hf := World.rememberStore_flags (c.world.begin cur it) cur (c.world.si2id inst) (signedOf v) iter
      exact
        { count := hs.count
          infos := by rw [hs.infos, List.length_append, List.length_map, hi]
          reachStore := by rw [hs.reachStore, hf.1]
          reachBranch := fun _ hb => by rw [← hf.2]; exact hs.reachBranch hb }

theorem Config.execute_counted {c : Config} {it : Iteration} {cur : StateId} {w : World}
    (h : c.execute it = some (cur, w)) : Counted c it cur w := by
  obtain ⟨-, h⟩ := Config.execute_eq_some h
  cases ha : it.action with
  | store inst isPointer value iter =>
    rw [ha] at h
    exact Counted.store ha h
  | br | symbolicBr | switch | other =>
    refine Counted.of_keeps (KeepsInfos.execute h (by simp [ha])) ?_ ?_
    · simp only [Config.storeTargets, ha]
    · simp only [Config.infosBefore, ha]

theorem Run.count_zero {c : Config} (h : Run CountCondition c) :
    (Partition c ∧ Quiet c) ∧ c.world.newBranchNumFromStore = 0 := by
  refine h.invariant (fun c => (Partition c ∧ Quiet c) ∧ c.world.newBranchNumFromStore = 0) (fun c h => ?_)
    fun c it c' hi ha hp hs => ?_
  · obtain ⟨w, hw, hr⟩ := h.rest
    exact ⟨⟨h.partition, h.quiet⟩, by rw [hr]; exact hw.newBranchNumFromStore⟩
  · obtain ⟨⟨hpart, hq⟩, hzero⟩ := hi
    refine ⟨⟨hpart.step ha hs, hq.step hpart hs⟩, ?_⟩
    obtain ⟨cur, w₁, w₂, w₃, h₁, h₂, h₃, rfl⟩ := Config.step_eq_some hs
    have hsel := (Config.execute_eq_some h₁).1
    have hc := Config.execute_counted h₁
    have hflags := hq.begin hpart hsel it (.inl (hpart.selectState_mem hsel))
    have hr := World.checkMemory_rest (World.update_updateTargetBranch h₂) h₃
    have hcount : w₂.newBranchNumFromStore = 0 := by
      refine World.update_count h₂ ?_
      by_cases ht : c.storeTargets it = []
      · exact .inl (by rw [hc.count, hzero, ht]; rfl)
      · refine .inr ⟨fun hrem => ht (hp cur hsel hrem), ?_, ?_⟩
        · rw [hc.reachStore, hflags.1]
          simpa using ht
        · exact Bool.eq_false_of_not_eq_true fun hb => by
            have hb' := hc.reachBranch ht hb
            rw [hflags.2] at hb'
            cases hb'
    show w₃.newBranchNumFromStore = 0
    rw [hr]
    exact hcount

/-- In every run in which no state is terminated by a store that gives it a new target, `newBranchNumFromStore` is the
number of entries appended in the step whenever `update` enters its `reachStore` block. -/
theorem countedExactly_of_run {c : Config} (h : Run CountCondition c) (it : Iteration) : c.CountedExactly it := by
  intro cur w w₁ w₂ hex _ hrot hblock hreach
  obtain ⟨⟨hpart, hq⟩, hzero⟩ := h.count_zero
  have hsel := (Config.execute_eq_some hex).1
  have hc := Config.execute_counted hex
  have hflags := hq.begin hpart hsel it (.inl (hpart.selectState_mem hsel))
  have hr := World.rotate_rest hrot
  have hs₁ : (w.heap cur).reachStore = true := by
    have hs := (World.reachBranchBlock_blockFrame hblock).reachStore cur hreach
    rw [hr] at hs
    exact hs
  -- the flag is up, so the store gave a target and the state did not reach a branch
  have ht : c.storeTargets it ≠ [] := fun ht => by
    rw [hc.reachStore, hflags.1, ht] at hs₁
    cases hs₁
  have hw₂ : w₂ = w₁ := by
    rcases World.reachBranchBlock_eq_some hblock with ⟨-, hw⟩ | ⟨hb, -⟩
    · exact hw
    · rw [hr] at hb
      have hb' := hc.reachBranch ht hb
      rw [hflags.2] at hb'
      cases hb'
  have hcount : w₂.newBranchNumFromStore = (c.storeTargets it).length := by
    rw [hw₂, hr]
    exact hc.count.trans (by rw [hzero, Nat.zero_add])
  have hinfos : (w₂.heap cur).branchInfos = (w.heap cur).branchInfos := by rw [hw₂, hr]
  rw [hinfos, hcount, hc.infos]
  exact ⟨rfl, Nat.le_add_left _ _⟩

/-- A store that gives its state one target, after the branch has become a target. -/
theorem countedExactly_of_run_store :
    ∃ c it, Run CountCondition c ∧ c.storeTargets it = [1] ∧ c.CountedExactly it := by
  have hrun : ∃ c, (twoBranchesStart [0]).step { action := .br 0 false true (some 7) (some 5) } = some c ∧
      c.storeTargets { action := .store 3 false (some 5) [] } = [1] := ⟨_, rfl, by decide⟩
  obtain ⟨c, hc, ht⟩ := hrun
  have s₁ : Step CountCondition (twoBranchesStart [0]) c := ⟨_, by decide, fun _ _ _ => rfl, hc⟩
  have h : Run CountCondition c := ⟨_, twoBranches_start, Relation.ReflTransGen.single s₁⟩
  exact ⟨c, _, h, ht, countedExactly_of_run h _⟩

/-- The first state is terminated by its store after it got a target; then the second state executes the store, and
the counter is `2` where one entry was appended. -/
theorem not_countedExactly_terminated :
    ∃ c it, Run (fun _ _ => True) c ∧ Allowed c it ∧ ¬ c.CountedExactly it := by
  have hrun : ∃ c, (twoBranchesStart [0, 1]).runs [{ action := .br 0 false true (some 7) (some 5) },
      { action := .store 3 false (some 5) [], removed := [0] }] = some c ∧
      Allowed c { action := .store 3 false (some 5) [] } ∧
      ¬ c.CountedExactly { action := .store 3 false (some 5) [] } := by
    refine ⟨_, rfl, by decide, fun h => ?_⟩
    exact absurd (h 1 _ _ _ rfl (by decide) rfl rfl (by decide)).1 (by decide)
  obtain ⟨c, hc, ha, hn⟩ := hrun
  exact ⟨c, _, twoBranches_start_two.run hc, ha, hn⟩

end CgsKlee
