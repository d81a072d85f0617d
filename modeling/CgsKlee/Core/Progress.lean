import CgsKlee.Core.Frame

/-!
# When `update` comes to its end

The searcher dereferences the dependency entries of the branches it handles, reads the back of
`fullyCoveredBranches`, steps back from the end of `branchInfos` by `newBranchNumFromStore`, and erases the current
state from a vector.  `Dereferenceable` collects what the first three need; `update_isSome` says that with it and
with a current state that heads its vector every update ends.
-/

namespace CgsKlee

namespace World

/-- The data that `update` with this current state dereferences are there. -/
structure Dereferenceable (w : World) (current : Option StateId) : Prop where
  targets : ∀ bid ∈ w.targetBranches, (w.bdDep bid).isSome
  partly : ∀ bid ∈ w.partlyCoveredBranches, (w.bdDep bid).isSome
  covered : ∀ bid ∈ w.fullyCoveredBranches, (w.id2bi bid).isSome ∧ (w.bdDep bid).isSome
  notified : w.newFullyCoveredBranch = true → w.fullyCoveredBranches ≠ []
  infos : ∀ cur, current = some cur → ∀ b ∈ (w.heap cur).branchInfos, (w.bdDep b.targetBranchID).isSome
  counted : ∀ cur, current = some cur → (w.heap cur).reachStore = true →
    (w.heap cur).reachBranch = false ∧ w.newBranchNumFromStore ≤ (w.heap cur).branchInfos.length
  refresh : current = none → w.updateTargetBranch = false

variable {bid : BranchID} {w : World}

theorem isNewStoreValue_isSome (hd : (w.bdDep bid).isSome) (state : StateId)
    (sid : StoreID) : ∃ r w', w.isNewStoreValue state bid sid = some (r, w') := by
  have hr := readStoreValue_frame w state sid
  unfold isNewStoreValue
  generalize w.readStoreValue state sid = p at hr ⊢
  obtain ⟨value, w₁⟩ := p
  dsimp only at hr ⊢
  obtain ⟨d, hd⟩ := Option.isSome_iff_exists.1 hd
  split
  · exact ⟨_, _, rfl⟩
  · split
    · exact ⟨_, _, rfl⟩
    · split
      · exact ⟨_, _, rfl⟩
      · rw [hr.bdDep, hd]
        exact ⟨_, _, rfl⟩

theorem addTargetInfo_isSome (hd : (w.bdDep bid).isSome) (cur : StateId)
    (sid : StoreID) : ∃ w', addTargetInfo (some cur) bid w sid = some w' := by
  unfold addTargetInfo
  dsimp only
  split
  · obtain ⟨r, w', hw'⟩ := isNewStoreValue_isSome hd cur sid
    rw [hw']
    exact ⟨_, rfl⟩
  · exact ⟨_, rfl⟩

theorem visitState_isSome (hd : (w.bdDep bid).isSome) (current : Option StateId)
    (sid : StoreID) (state : StateId) : ∃ out w', visitState current bid sid w state = some (out, w') := by
  unfold visitState
  split
  · exact ⟨_, _, rfl⟩
  · split
    · obtain ⟨r, w', hw'⟩ := isNewStoreValue_isSome hd state sid
      rw [hw']
      cases r <;> exact ⟨_, _, rfl⟩
    · exact ⟨_, _, rfl⟩

theorem visitStates_isSome (hd : (w.bdDep bid).isSome) (current : Option StateId)
    (sid : StoreID) : ∃ w', visitStates current bid w sid = some w' := by
  obtain ⟨kept, moved, w', h, -⟩ := Loops.sweep_isSome (visitState current bid sid)
    (fun w => (w.bdDep bid).isSome) (l := w.states) (s := w) (fun a _ w₁ hw₁ => by
      obtain ⟨out, w₂, h₂⟩ := visitState_isSome hw₁ current sid a
      exact ⟨out, w₂, h₂, by rw [(visitState_frame h₂).bdDep]; exact hw₁⟩) hd
  unfold visitStates
  rw [h]
  exact ⟨_, rfl⟩

theorem handlePartlyCoveredBranch_isSome (hd : (w.bdDep bid).isSome)
    (cur : StateId) : ∃ w', w.handlePartlyCoveredBranch (some cur) bid = some w' := by
  obtain ⟨d, hd'⟩ := Option.isSome_iff_exists.1 hd
  obtain ⟨w₁, h₁, hw₁⟩ := Loops.foldlM_isSome (fun w => (w.bdDep bid).isSome)
    (f := addTargetInfo (some cur) bid) (l := d.stores) (s := w) (fun sid _ w₁ hw₁ => by
      obtain ⟨w₂, h₂⟩ := addTargetInfo_isSome hw₁ cur sid
      exact ⟨w₂, h₂, by rw [(addTargetInfo_frame h₂).bdDep]; exact hw₁⟩) hd
  obtain ⟨w₂, h₂, -⟩ := Loops.foldlM_isSome (fun w => (w.bdDep bid).isSome)
    (f := visitStates (some cur) bid) (l := d.stores) (s := w₁.moveToBranchStates cur) (fun sid _ w₁ hw₁ => by
      obtain ⟨w₂, h₂⟩ := visitStates_isSome hw₁ (some cur) sid
      exact ⟨w₂, h₂, by rw [(visitStates_frame h₂).bdDep]; exact hw₁⟩)
    (by rw [(moveToBranchStates_frame w₁ cur).bdDep]; exact hw₁)
  unfold handlePartlyCoveredBranch
  rw [hd']
  dsimp only
  rw [h₁]
  exact ⟨w₂, h₂⟩

theorem handleFullyCoveredBranch_isSome (hi : (w.id2bi bid).isSome)
    (hd : (w.bdDep bid).isSome) (cur : StateId) : ∃ w', w.handleFullyCoveredBranch cur bid = some w' := by
  obtain ⟨I, hI⟩ := Option.isSome_iff_exists.1 hi
  obtain ⟨d, hd⟩ := Option.isSome_iff_exists.1 hd
  unfold handleFullyCoveredBranch
  rw [hI, hd]
  dsimp only
  generalize d.stores.foldl (unlinkStore (w.kmodule.functionOf I) bid) (w, []) = acc
  obtain ⟨kept, moved, w', h, -⟩ := Loops.sweep_isSome (visitCovered cur bid acc.2)
    (fun _ => True) (l := acc.1.branchStates) (s := acc.1)
    (fun _ _ _ _ => ⟨_, _, rfl, trivial⟩) trivial
  rw [h]
  exact ⟨_, rfl⟩

theorem rotate_isSome {cur : StateId} (hc : w.selectState = some cur) (added : List StateId) :
    ∃ w', w.rotate cur added = some w' := by
  unfold selectState at hc
  unfold rotate
  split
  · exact ⟨_, rfl⟩
  · split
    · rename_i hb
      rw [hb] at hc
      rw [if_pos (List.mem_of_mem_head? hc)]
      exact ⟨_, rfl⟩
    · rename_i hb
      split at hc
      · rename_i s l hbs
        cases hc
        rw [hbs, if_pos List.mem_cons_self]
        exact ⟨_, rfl⟩
      · contradiction

theorem reachBranchBlock_isSome (cur : StateId)
    (hc : ∀ bid ∈ w.fullyCoveredBranches, (w.id2bi bid).isSome ∧ (w.bdDep bid).isSome)
    (hn : w.newFullyCoveredBranch = true → w.fullyCoveredBranches ≠ []) :
    ∃ w', w.reachBranchBlock cur = some w' := by
  unfold reachBranchBlock
  split
  · split
    · rename_i hnew
      obtain ⟨bid, hbid⟩ := Option.isSome_iff_exists.1 (List.getLast?_isSome.2 (hn hnew))
      have hb := hc bid (List.mem_of_getLast? hbid)
      obtain ⟨w₁, h₁⟩ := handleFullyCoveredBranch_isSome hb.1 hb.2 cur
      unfold targetCovered
      rw [hbid]
      dsimp only
      rw [h₁]
      exact ⟨_, rfl⟩
    · exact ⟨_, rfl⟩
  · exact ⟨_, rfl⟩

theorem visitInfo_isSome {b : BranchInfo} (hd : (w.bdDep b.targetBranchID).isSome) (cur : StateId) :
    ∃ out w', visitInfo cur w b = some (out, w') := by
  unfold visitInfo
  obtain ⟨r, w', hw'⟩ := isNewStoreValue_isSome hd cur b.reachStoreID
  rw [hw']
  cases r <;> exact ⟨_, _, rfl⟩

theorem reachStoreBlock_isSome (cur : StateId)
    (hi : (w.heap cur).reachStore = true → w.newBranchNumFromStore ≤ (w.heap cur).branchInfos.length ∧
      ∀ b ∈ (w.heap cur).branchInfos, (w.bdDep b.targetBranchID).isSome) :
    ∃ w', w.reachStoreBlock cur = some w' := by
  unfold reachStoreBlock
  split
  · rename_i hr
    obtain ⟨hle, hi⟩ := hi hr
    dsimp only
    rw [if_neg (by omega)]
    obtain ⟨kept, moved, w', h, -⟩ := Loops.sweep_isSome (visitInfo cur) (fun w₁ => w₁.bdDep = w.bdDep) (s := w)
      (l := (w.heap cur).branchInfos.drop ((w.heap cur).branchInfos.length - w.newBranchNumFromStore))
      (fun b hb w₁ hw₁ => by
        obtain ⟨out, w₂, h₂⟩ := visitInfo_isSome (w := w₁) (b := b)
          (by rw [hw₁]; exact hi b (List.mem_of_mem_drop hb)) cur
        exact ⟨out, w₂, h₂, by rw [(visitInfo_frame h₂).bdDep]; exact hw₁⟩) rfl
    rw [h]
    exact ⟨_, rfl⟩
  · exact ⟨_, rfl⟩

theorem newPartlyBlock_isSome (hw : ∀ bid ∈ w.targetBranches, (w.bdDep bid).isSome) (cur : StateId) :
    ∃ w', w.newPartlyBlock cur = some w' := by
  unfold newPartlyBlock
  split
  · rename_i bid hl
    split
    · obtain ⟨w', hw'⟩ := handlePartlyCoveredBranch_isSome (hw bid (List.mem_of_getLast? hl)) cur
      rw [hw']
      exact ⟨_, rfl⟩
    · exact ⟨_, rfl⟩
  · exact ⟨_, rfl⟩

theorem promoteBranches_isSome (cur : StateId) (n : Nat)
    (hw : ∀ bid ∈ w.partlyCoveredBranches, (w.bdDep bid).isSome) :
    ∃ w', promoteBranches (some cur) n w = some w' := by
  induction n generalizing w with
  | zero => exact ⟨w, rfl⟩
  | succ n ih =>
    unfold promoteBranches
    split
    · exact ⟨w, rfl⟩
    · rename_i bid hl
      obtain ⟨w₁, h₁⟩ := handlePartlyCoveredBranch_isSome
        (w := { w with
          partlyCoveredBranches := w.partlyCoveredBranches.dropLast
          targetBranches := w.targetBranches ++ [bid] }) (hw bid (List.mem_of_getLast? hl)) cur
      have hf := handlePartlyCoveredBranch_frame h₁
      dsimp only
      rw [h₁]
      refine ih fun b hb => ?_
      rw [hf.partlyCoveredBranches] at hb
      rw [hf.bdDep]
      exact hw b (List.dropLast_subset _ hb)

theorem refreshBlock_isSome {current : Option StateId}
    (hw : ∀ bid ∈ w.partlyCoveredBranches, (w.bdDep bid).isSome)
    (hr : current = none → w.updateTargetBranch = false) : ∃ w', w.refreshBlock current = some w' := by
  unfold refreshBlock
  cases current with
  | none => rw [hr rfl]; exact ⟨_, rfl⟩
  | some cur =>
    split
    · obtain ⟨kept, moved, w₁, h₁, -⟩ := Loops.sweep_isSome visitRefresh (fun _ => True)
        (l := w.branchStates) (s := w) (fun _ _ _ _ => ⟨_, _, rfl, trivial⟩) trivial
      have hf := sweep_loopFrame (fun _ _ _ _ => visitRefresh_frame) h₁
      rw [h₁]
      obtain ⟨w₂, h₂⟩ := promoteBranches_isSome
        (w := { w₁ with branchStates := kept, states := w₁.states ++ moved, targetBranches := [] }) cur
        w₁.targetBranchNum (by
          intro bid hb
          have hb : bid ∈ w.partlyCoveredBranches := hf.partlyCoveredBranches ▸ hb
          show (w₁.bdDep bid).isSome
          rw [hf.bdDep]
          exact hw bid hb)
      dsimp only
      rw [h₂]
      exact ⟨_, rfl⟩
    · exact ⟨_, rfl⟩

theorem updateCurrent_isSome {cur : StateId} (hw : w.Dereferenceable (some cur))
    (hc : w.selectState = some cur) (added : List StateId) : ∃ w', w.updateCurrent cur added = some w' := by
  obtain ⟨w₁, h₁⟩ := rotate_isSome hc added
  have f₁ := rotate_blockFrame h₁
  have hr := rotate_rest h₁
  obtain ⟨w₂, h₂⟩ := reachBranchBlock_isSome (w := w₁) cur
    (by rw [hr]; exact hw.covered) (by rw [hr]; exact hw.notified)
  have f₂ := f₁.trans (reachBranchBlock_blockFrame h₂)
  obtain ⟨w₃, h₃⟩ := reachStoreBlock_isSome (w := w₂) cur (by
    intro hs
    -- a state that has reached a store has not reached a branch in the same step
    obtain ⟨hb, hcount⟩ := hw.counted cur rfl (f₂.reachStore cur hs)
    have hw₂ : w₂ = w₁ := by
      rcases reachBranchBlock_eq_some h₂ with ⟨-, h⟩ | ⟨h, -⟩
      · exact h
      · rw [hr] at h
        exact absurd (hb.symm.trans h) (by decide)
    rw [hw₂, hr]
    exact ⟨hcount, hw.infos cur rfl⟩)
  have f₃ := f₂.trans (reachStoreBlock_blockFrame h₃)
  obtain ⟨w₄, h₄⟩ := newPartlyBlock_isSome (w := w₃)
    (by rw [f₃.targetBranches, f₃.bdDep]; exact hw.targets) cur
  exact ⟨w₄, by simp [updateCurrent, h₁, h₂, h₃, h₄]⟩

theorem update_isSome {current : Option StateId} (hw : w.Dereferenceable current)
    (hc : ∀ cur, current = some cur → w.selectState = some cur) (added removed : List StateId) :
    ∃ w', w.update current added removed = some w' := by
  have refresh : ∀ {w₁ : World}, BlockFrame w w₁ → ∃ w₂, w₁.refreshBlock current = some w₂ := fun f₁ =>
    refreshBlock_isSome (by rw [f₁.partlyCoveredBranches, f₁.bdDep]; exact hw.partly)
      (by rw [f₁.updateTargetBranch]; exact hw.refresh)
  unfold update
  cases current with
  | none =>
    obtain ⟨w₂, h₂⟩ := refresh (BlockFrame.refl w)
    simp only [h₂, Option.bind_some, Option.map_some]
    exact ⟨_, rfl⟩
  | some cur =>
    by_cases hr : cur ∈ removed
    · obtain ⟨w₂, h₂⟩ := refresh (BlockFrame.refl w)
      simp only [if_pos hr, h₂, Option.bind_some, Option.map_some]
      exact ⟨_, rfl⟩
    · obtain ⟨w₁, h₁⟩ := updateCurrent_isSome hw (hc cur rfl) added
      obtain ⟨w₂, h₂⟩ := refresh (updateCurrent_blockFrame h₁)
      simp only [if_neg hr, h₁, h₂, Option.bind_some, Option.map_some]
      exact ⟨_, rfl⟩

end World

end CgsKlee
