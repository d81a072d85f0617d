import CgsKlee.Core.WorkList

/-!
# What becomes of a target that was missed

When the current state has reached one of its targets and the branch is still not fully covered, the `reachBranch`
block of `update` drops one target of the state.  It looks the id of the branch up again, through a cast to
`BranchInst` and `operator[]` of `BI2ID`: for a `switch` the cast gives a null pointer and the lookup the id `0`.

`losesTarget_iff` says when the state loses exactly the target that it has reached.  The update may also push targets
(`World.pushedInfos`), and it may replace the targets of all states in `branchStates`.
-/

namespace CgsKlee

namespace World

/-- The targets that `handlePartlyCoveredBranch` pushes on the current state for a branch. -/
def targetInfos (w : World) (bid : BranchID) : List BranchInfo :=
  match w.bdDep bid with
  | none => []
  | some d => d.stores.map fun sid => ⟨sid, bid⟩

/-- A new partly covered branch waits for the next update. -/
def PartlyPending (w : World) : Prop := w.targetBranches ≠ [] ∧ w.newPartlyCoveredBranch = true

instance (w : World) : Decidable w.PartlyPending := inferInstanceAs (Decidable (_ ∧ _))

/-- The targets that are pushed on the current state for a new partly covered branch. -/
def newInfos (w : World) : List BranchInfo :=
  if w.newPartlyCoveredBranch then
    match w.targetBranches.getLast? with
    | some bid => w.targetInfos bid
    | none => []
  else []

/-- The targets that are pushed on the current state when the targets are replaced. -/
def promotedInfos (w : World) : List BranchInfo :=
  (w.partlyCoveredBranches.reverse.take w.targetBranchNum).flatMap w.targetInfos

/-- The targets that an update pushes on the current state and that are still there in the end. -/
def pushedInfos (w : World) : List BranchInfo := if w.updateTargetBranch then w.promotedInfos else w.newInfos

/-- The update replaces the targets of `cur`, which is in `branchStates` or will be moved there for a new partly covered
branch. -/
def ReplacesTargets (w : World) (cur : StateId) : Prop :=
  w.updateTargetBranch = true ∧ (cur ∈ w.branchStates ∨ w.PartlyPending)

end World

/-- One target `bid` is gone from `before`, and everything else is there, in front of what was pushed. -/
def LosesTarget (bid : BranchID) (before after pushed : List BranchInfo) : Prop :=
  ∃ pre b post, before = pre ++ b :: post ∧ b.targetBranchID = bid ∧ after = pre ++ post ++ pushed

theorem losesTarget_eraseP {bid : BranchID} {before : List BranchInfo} (h : ∃ b ∈ before, b.targetBranchID = bid)
    (pushed : List BranchInfo) :
    LosesTarget bid before ((before.eraseP fun b => b.targetBranchID = bid) ++ pushed) pushed := by
  obtain ⟨b, hb, htarget⟩ := h
  obtain ⟨c, pre, post, -, hc, hsplit, herase⟩ :=
    List.exists_of_eraseP (p := fun b : BranchInfo => decide (b.targetBranchID = bid)) hb (by simpa using htarget)
  exact ⟨pre, c, post, hsplit, by simpa using hc, by rw [herase]⟩

theorem not_losesTarget_eraseP {bid other : BranchID} (hne : other ≠ bid) (before pushed : List BranchInfo) :
    ¬ LosesTarget bid before ((before.eraseP fun b => b.targetBranchID = other) ++ pushed) pushed := by
  rintro ⟨pre, b, post, hbefore, htarget, hafter⟩
  have hsame : (before.eraseP fun b => b.targetBranchID = other) = pre ++ post := List.append_cancel_right hafter
  have hcount : ((before.eraseP fun b => b.targetBranchID = other).countP fun b => b.targetBranchID = bid) =
      before.countP fun b => b.targetBranchID = bid := by
    clear hbefore hafter hsame
    induction before with
    | nil => rfl
    | cons a before ih =>
      by_cases ha : a.targetBranchID = other
      · have hother : a.targetBranchID ≠ bid := by rw [ha]; exact hne
        rw [List.eraseP_cons_of_pos (by simpa using ha), List.countP_cons_of_neg (by simpa using hother)]
      · rw [List.eraseP_cons_of_neg (by simpa using ha), List.countP_cons, List.countP_cons, ih]
  rw [hsame, hbefore, List.countP_append, List.countP_append,
    List.countP_cons_of_pos (by simpa using htarget)] at hcount
  omega

theorem losesTarget_all {bid : BranchID} {before pushed : List BranchInfo}
    (h : ∃ b ∈ before, b.targetBranchID = bid) : LosesTarget bid before pushed pushed ↔ before.length = 1 := by
  constructor
  · rintro ⟨pre, b, post, rfl, -, hafter⟩
    have hlen := congrArg List.length hafter
    simp only [List.length_append] at hlen
    simp only [List.length_append, List.length_cons]
    omega
  · intro hlen
    obtain ⟨b, hb, htarget⟩ := h
    obtain ⟨a, rfl⟩ := List.length_eq_one_iff.mp hlen
    obtain rfl := List.mem_singleton.mp hb
    exact ⟨[], b, [], rfl, htarget, rfl⟩

namespace World

variable {bid : BranchID} {w w' : World} {cur : StateId} {added : List StateId}

theorem isNewStoreValue_infos {state : StateId} {sid : StoreID} {r : Bool}
    (h : w.isNewStoreValue state bid sid = some (r, w')) (s : StateId) :
    (w'.heap s).branchInfos = (w.heap s).branchInfos := by
  obtain ⟨value, w₁, hread, hcases⟩ := isNewStoreValue_cases h
  have hheap : w'.heap = w₁.heap := by
    rcases hcases with ⟨-, -, rfl⟩ | ⟨l, -, ⟨-, -, rfl⟩ | ⟨-, -, -, rfl⟩ | ⟨-, -, d, -, -, rfl⟩⟩ <;>
      rw [cacheValue_rest]
  have hw₁ : w₁ = (w.readStoreValue state sid).2 := by rw [hread]
  rw [hheap, hw₁]
  unfold readStoreValue
  split
  · rfl
  · by_cases hs : s = state
    · subst hs
      simp
    · simp [hs]

theorem addTargetInfo_infos {sid : StoreID}
    (h : addTargetInfo (some cur) bid w sid = some w') :
    (w'.heap cur).branchInfos = (w.heap cur).branchInfos ++ [⟨sid, bid⟩] := by
  unfold addTargetInfo at h
  obtain ⟨w₁, h₁, rfl⟩ := Option.map_eq_some_iff.mp h
  have hw₁ : (w₁.heap cur).branchInfos = (w.heap cur).branchInfos := by
    split at h₁
    · obtain ⟨⟨r, w₂⟩, h₂, rfl⟩ := Option.map_eq_some_iff.mp h₁
      exact isNewStoreValue_infos h₂ cur
    · cases h₁
      rfl
  rw [setState_heap_self, hw₁]

theorem addTargetInfos_infos {stores : List StoreID}
    (h : stores.foldlM (addTargetInfo (some cur) bid) w = some w') :
    (w'.heap cur).branchInfos = (w.heap cur).branchInfos ++ stores.map fun sid => ⟨sid, bid⟩ := by
  induction stores generalizing w with
  | nil =>
    obtain rfl := Option.some.inj h
    simp
  | cons sid stores ih =>
    rw [List.foldlM_cons] at h
    obtain ⟨w₁, h₁, h⟩ := Option.bind_eq_some_iff.mp h
    rw [ih h, addTargetInfo_infos h₁, List.map_cons, List.append_assoc]
    rfl

theorem visitStates_infos {sid : StoreID}
    (h : visitStates (some cur) bid w sid = some w') :
    (w'.heap cur).branchInfos = (w.heap cur).branchInfos ∧ (cur ∈ w.branchStates → cur ∈ w'.branchStates) := by
  unfold visitStates at h
  split at h
  · cases h
  · rename_i kept moved w₁ hsweep
    cases h
    have hvectors := (sweep_loopFrame (fun _ _ _ _ => visitState_frame) hsweep).branchStates
    refine ⟨?_, fun hcur => List.mem_append_left moved (by rw [hvectors]; exact hcur)⟩
    show (w₁.heap cur).branchInfos = (w.heap cur).branchInfos
    refine Loops.sweep_rel (fun w w' : World => (w'.heap cur).branchInfos = (w.heap cur).branchInfos) (fun _ => rfl)
      (fun h₁ h₂ => h₂.trans h₁) ?_ hsweep
    intro state _ out v v' hvisit
    unfold visitState at hvisit
    split at hvisit
    · cases hvisit
      rfl
    · rename_i hne
      have hne : cur ≠ state := fun he => hne (by rw [he])
      split at hvisit
      · split at hvisit
        · cases hvisit
        · rename_i hnew
          cases hvisit
          exact isNewStoreValue_infos hnew cur
        · rename_i hnew
          cases hvisit
          rw [setState_heap_of_ne _ _ hne]
          exact isNewStoreValue_infos hnew cur
      · cases hvisit
        rfl

theorem handlePartlyCoveredBranch_infos
    (h : w.handlePartlyCoveredBranch (some cur) bid = some w') :
    (w'.heap cur).branchInfos = (w.heap cur).branchInfos ++ w.targetInfos bid ∧
      (cur ∈ w.scheduled → cur ∈ w'.branchStates) := by
  unfold handlePartlyCoveredBranch at h
  split at h
  · cases h
  · rename_i d hd
    split at h
    · cases h
    · rename_i w₁ h₁
      dsimp only at h
      have hinfos : (w₁.heap cur).branchInfos = (w.heap cur).branchInfos ++ w.targetInfos bid := by
        rw [addTargetInfos_infos h₁]
        unfold targetInfos
        rw [hd]
      have hvectors : LoopFrame w w₁ :=
        Loops.foldlM_rel LoopFrame LoopFrame.refl LoopFrame.trans (fun _ _ _ _ => addTargetInfo_frame) h₁
      have hmove : ((w₁.moveToBranchStates cur).heap cur).branchInfos = (w₁.heap cur).branchInfos ∧
          (cur ∈ w₁.scheduled → cur ∈ (w₁.moveToBranchStates cur).branchStates) := by
        unfold moveToBranchStates
        split
        · exact ⟨rfl, fun _ => List.mem_append_right _ List.mem_cons_self⟩
        · rename_i hout
          exact ⟨rfl, fun hmem => (List.mem_append.mp hmem).resolve_left hout⟩
      obtain ⟨hloop, hstays⟩ := Loops.foldlM_rel
        (fun w w' : World => (w'.heap cur).branchInfos = (w.heap cur).branchInfos ∧
          (cur ∈ w.branchStates → cur ∈ w'.branchStates))
        (fun _ => ⟨rfl, id⟩) (fun h₁ h₂ => ⟨h₂.1.trans h₁.1, fun hc => h₂.2 (h₁.2 hc)⟩)
        (fun _ _ _ _ => visitStates_infos) h
      refine ⟨by rw [hloop, hmove.1, hinfos], fun hcur => hstays (hmove.2 ?_)⟩
      rw [hvectors.scheduled]
      exact hcur

theorem promoteBranches_infos {n : Nat}
    (h : promoteBranches (some cur) n w = some w') :
    (w'.heap cur).branchInfos =
      (w.heap cur).branchInfos ++ (w.partlyCoveredBranches.reverse.take n).flatMap w.targetInfos := by
  induction n generalizing w with
  | zero =>
    obtain rfl := Option.some.inj h
    simp
  | succ n ih =>
    rcases promoteBranches_succ_eq_some h with ⟨hempty, rfl⟩ | ⟨bid, w₁, hlast, hpartly, hrest⟩
    · simp [hempty]
    · obtain ⟨hinfos, -⟩ := handlePartlyCoveredBranch_infos hpartly
      have hframe := handlePartlyCoveredBranch_frame hpartly
      have htargets : w₁.targetInfos = w.targetInfos := by
        funext b
        unfold targetInfos
        rw [hframe.bdDep]
      have hreverse : w.partlyCoveredBranches.reverse = bid :: w.partlyCoveredBranches.dropLast.reverse := by
        obtain ⟨l, hl⟩ := List.getLast?_eq_some_iff.mp hlast
        simp [hl]
      rw [ih hrest, hinfos, hframe.partlyCoveredBranches, htargets, hreverse, List.take_succ_cons, List.flatMap_cons,
        List.append_assoc]
      rfl

theorem sweep_visitRefresh_infos (cur : StateId) {l kept moved : List StateId}
    (h : Loops.sweep visitRefresh l w = some (kept, moved, w')) :
    (w'.heap cur).branchInfos = if cur ∈ l then [] else (w.heap cur).branchInfos := by
  induction l generalizing w kept moved with
  | nil =>
    cases h
    simp
  | cons s l ih =>
    obtain ⟨out, v, kept', moved', hvisit, hrest, -, -⟩ := Loops.sweep_cons_eq_some h
    cases hvisit
    rw [ih hrest]
    by_cases hs : cur = s
    · subst hs
      simp
    · simp [hs]

theorem refreshBlock_infos (h : w.refreshBlock (some cur) = some w')
    (hrefresh : w.updateTargetBranch = true) :
    (w'.heap cur).branchInfos = (if cur ∈ w.branchStates then [] else (w.heap cur).branchInfos) ++
      w.promotedInfos := by
  rcases refreshBlock_eq_some h with ⟨hno, -⟩ | ⟨-, kept, moved, w₁, w₂, hsweep, hpromote, rfl⟩
  · rw [hrefresh] at hno
    cases hno
  · have hframe := sweep_loopFrame (fun _ _ _ _ => visitRefresh_frame) hsweep
    have hcleared := sweep_visitRefresh_infos cur hsweep
    have hinfos := promoteBranches_infos hpromote
    have htargets : w₁.targetInfos = w.targetInfos := by
      funext b
      unfold targetInfos
      rw [hframe.bdDep]
    dsimp only at hinfos ⊢
    unfold promotedInfos
    rw [hinfos, hcleared, hframe.partlyCoveredBranches, hframe.targetBranchNum, ← htargets]
    rfl

/-- The id that the `reachBranch` block reads for the instruction that was left. -/
def pastBID (w : World) (cur : StateId) : BranchID :=
  if (w.kmodule.inst (w.heap cur).prevPC).opcode = .br then (w.bi2id (w.heap cur).prevPC).getD 0 else 0

def infosLeft (w : World) (cur : StateId) : List BranchInfo :=
  (w.heap cur).branchInfos.eraseP fun b => b.targetBranchID = w.pastBID cur

theorem rotate_branchStates (h : w.rotate cur added = some w') :
    cur ∈ w'.branchStates ↔ cur ∈ w.branchStates := by
  unfold rotate at h
  split at h
  · cases h
    rfl
  · split at h
    · split at h
      · cases h
        rfl
      · cases h
    · split at h
      · rename_i hcur
        cases h
        simp [hcur]
      · cases h

theorem reachBranchBlock_missed (hnodup : w.branchStates.Nodup)
    (hreach : (w.heap cur).reachBranch = true) (hnew : w.newFullyCoveredBranch = false)
    (h : w.reachBranchBlock cur = some w') :
    (w'.heap cur).branchInfos = w.infosLeft cur ∧ (w'.heap cur).reachStore = (w.heap cur).reachStore ∧
      (cur ∈ w'.branchStates ↔ cur ∈ w.branchStates ∧ w.infosLeft cur ≠ []) ∧
      w'.newPartlyCoveredBranch = w.newPartlyCoveredBranch := by
  rcases reachBranchBlock_eq_some h with ⟨hno, -⟩ | ⟨-, w₁, ⟨hyes, -⟩ | ⟨-, rfl⟩, rfl⟩
  · rw [hreach] at hno
    cases hno
  · rw [hnew] at hyes
    cases hyes
  · have hinfos : ((w.dropTarget cur).heap cur).branchInfos = w.infosLeft cur := by
      unfold dropTarget
      dsimp only
      rw [setState_heap_self]
      unfold infosLeft pastBID
      simp
    have hstates : (w.dropTarget cur).branchStates = w.branchStates := rfl
    have hstore : ((w.dropTarget cur).heap cur).reachStore = (w.heap cur).reachStore := by
      unfold dropTarget
      simp
    have hpartly : (w.dropTarget cur).newPartlyCoveredBranch = w.newPartlyCoveredBranch := rfl
    unfold targetMissed
    dsimp only
    generalize w.dropTarget cur = v at hinfos hstates hstore hpartly
    rw [← hinfos, ← hstates]
    rw [← hstates] at hnodup
    split
    · rename_i hgone
      refine ⟨by simp, by simpa using hstore, ?_, hpartly⟩
      constructor
      · intro hmem
        exact absurd hmem (List.Nodup.not_mem_erase hnodup)
      · intro hmem
        exact absurd hgone.1 hmem.2
    · rename_i hstays
      refine ⟨by simp, by simpa using hstore, ?_, hpartly⟩
      constructor
      · intro hmem
        exact ⟨hmem, fun hempty => hstays ⟨hempty, hmem⟩⟩
      · exact fun hmem => hmem.1

theorem updateCurrent_missed (hnodup : w.scheduled.Nodup)
    (hcur : cur ∈ w.scheduled) (hreach : (w.heap cur).reachBranch = true) (hstore : (w.heap cur).reachStore = false)
    (hnew : w.newFullyCoveredBranch = false) (h : w.updateCurrent cur added = some w') :
    (w'.heap cur).branchInfos = w.infosLeft cur ++ w.newInfos ∧
      (cur ∈ w'.branchStates ↔ w.PartlyPending ∨ cur ∈ w.branchStates ∧ w.infosLeft cur ≠ []) := by
  obtain ⟨w₁, w₂, w₃, h₁, h₂, h₃, h₄⟩ := updateCurrent_eq_some h
  have hmem₁ := rotate_branchStates h₁
  have hperm₁ := rotate_perm h₁
  have hrest₁ := rotate_rest h₁
  have hleft : w₁.infosLeft cur = w.infosLeft cur := by rw [hrest₁]; rfl
  have hnodup₁ : w₁.branchStates.Nodup := (hperm₁.nodup_iff.mpr hnodup).of_append_right
  obtain ⟨hinfos₂, hstore₂, hmem₂, hpartly₂⟩ := reachBranchBlock_missed hnodup₁ (by rw [hrest₁]; exact hreach)
    (by rw [hrest₁]; exact hnew) h₂
  rw [hleft] at hinfos₂ hmem₂
  have hstore₂' : (w₂.heap cur).reachStore = false := by rw [hstore₂, hrest₁]; exact hstore
  have hw₃ : w₃ = w₂ := by
    rcases reachStoreBlock_eq_some h₃ with ⟨-, he⟩ | ⟨hs, -⟩
    · exact he
    · rw [hstore₂'] at hs
      cases hs
  subst hw₃
  have hframe₂ := reachBranchBlock_blockFrame h₂
  have htargets : w₃.targetBranches = w.targetBranches := by rw [hframe₂.targetBranches, hrest₁]
  have hpartly : w₃.newPartlyCoveredBranch = w.newPartlyCoveredBranch := by rw [hpartly₂, hrest₁]
  have hdep : w₃.targetInfos = w.targetInfos := by
    funext b
    unfold targetInfos
    rw [hframe₂.bdDep, hrest₁]
  have hcur₃ : cur ∈ w₃.scheduled := by
    have hperm := (reachBranchBlock_perm h₂).trans hperm₁
    exact hperm.mem_iff.mpr hcur
  rw [hmem₁] at hmem₂
  rcases newPartlyBlock_eq_some h₄ with ⟨hno, rfl⟩ | ⟨hyes, bid, w₅, hlast, hpush, rfl⟩
  · have hnone : w.newInfos = [] := by
      unfold newInfos
      rw [htargets, hpartly] at hno
      rcases hno with hno | hno
      · simp [hno]
      · simp [hno]
    have hnot : ¬ w.PartlyPending := by
      rw [htargets, hpartly] at hno
      rintro ⟨hne, htrue⟩
      rcases hno with hno | hno
      · exact hne hno
      · rw [hno] at htrue
        cases htrue
    rw [hinfos₂, hnone, List.append_nil, hmem₂]
    exact ⟨rfl, ⟨.inr, fun hor => hor.resolve_left hnot⟩⟩
  · obtain ⟨hinfos₅, hmem₅⟩ := handlePartlyCoveredBranch_infos hpush
    have hsome : w.newInfos = w.targetInfos bid := by
      unfold newInfos
      rw [← hpartly, hyes, ← htargets, hlast]
      rfl
    have hpending : w.PartlyPending := by
      refine ⟨fun hempty => ?_, by rw [← hpartly]; exact hyes⟩
      rw [htargets, hempty] at hlast
      cases hlast
    refine ⟨?_, ⟨fun _ => .inl hpending, fun _ => hmem₅ hcur₃⟩⟩
    show (w₅.heap cur).branchInfos = _
    rw [hinfos₅, hinfos₂, hdep, hsome]

theorem newInfos_of_not_pending (h : ¬ w.PartlyPending) : w.newInfos = [] := by
  unfold newInfos
  split
  · rename_i htrue
    split
    · rename_i bid hlast
      refine absurd ⟨?_, htrue⟩ h
      intro hempty
      rw [hempty] at hlast
      cases hlast
    · rfl
  · rfl

theorem update_missed {removed : List StateId} (hnodup : w.scheduled.Nodup)
    (hcur : cur ∈ w.scheduled) (hreach : (w.heap cur).reachBranch = true) (hstore : (w.heap cur).reachStore = false)
    (hnew : w.newFullyCoveredBranch = false) (hstays : cur ∉ removed)
    (h : w.update (some cur) added removed = some w') :
    (w.ReplacesTargets cur → (w'.heap cur).branchInfos = w.pushedInfos) ∧
      (¬ w.ReplacesTargets cur → (w'.heap cur).branchInfos = w.infosLeft cur ++ w.pushedInfos) := by
  obtain ⟨w₁, w₂, h₁, h₂, h₃⟩ := update_cases h
  have hcurrent : w.updateCurrent cur added = some w₁ := by
    rcases h₁ with ⟨hr, -⟩ | ⟨cur', he, -, hw₁⟩
    · exact absurd (hr cur rfl) hstays
    · cases he
      exact hw₁
  obtain ⟨hinfos₁, hmem₁⟩ := updateCurrent_missed hnodup hcur hreach hstore hnew hcurrent
  have hframe := updateCurrent_blockFrame hcurrent
  have hheap : w'.heap = w₂.heap := by rw [h₃]
  have hpromoted : w₁.promotedInfos = w.promotedInfos := by
    have hdep : w₁.targetInfos = w.targetInfos := by
      funext b
      unfold targetInfos
      rw [hframe.bdDep]
    unfold promotedInfos
    rw [hframe.partlyCoveredBranches, hframe.targetBranchNum, hdep]
  rw [hheap]
  unfold pushedInfos ReplacesTargets
  by_cases hrefresh : w.updateTargetBranch = true
  · have hafter := refreshBlock_infos h₂ (by rw [hframe.updateTargetBranch]; exact hrefresh)
    rw [hpromoted, hinfos₁] at hafter
    rw [if_pos hrefresh, hafter]
    constructor
    · rintro ⟨-, hplace⟩
      by_cases hin : cur ∈ w₁.branchStates
      · rw [if_pos hin, List.nil_append]
      · have hnot : ¬ w.PartlyPending := fun hp => hin (hmem₁.mpr (.inl hp))
        have hempty : w.infosLeft cur = [] := by
          by_contra hne
          exact hin (hmem₁.mpr (.inr ⟨hplace.resolve_right hnot, hne⟩))
        rw [if_neg hin, hempty, newInfos_of_not_pending hnot, List.nil_append, List.nil_append]
    · intro hno
      have hnot : ¬ w.PartlyPending := fun hp => hno ⟨hrefresh, .inr hp⟩
      have hout : cur ∉ w₁.branchStates := by
        intro hin
        rcases hmem₁.mp hin with hp | ⟨hin, -⟩
        · exact hnot hp
        · exact hno ⟨hrefresh, .inl hin⟩
      rw [if_neg hout, newInfos_of_not_pending hnot, List.append_nil]
  · have hw₂ : w₂ = w₁ := by
      rcases refreshBlock_eq_some h₂ with ⟨-, he⟩ | ⟨hyes, -⟩
      · exact he
      · rw [hframe.updateTargetBranch] at hyes
        exact absurd hyes hrefresh
    rw [if_neg hrefresh, hw₂]
    exact ⟨fun hyes => absurd hyes.1 hrefresh, fun _ => hinfos₁⟩

end World

/-- The handler of the branch `inst` writes nothing of the states and of `BI2ID`, unless it finds that `cur` has reached
one of its targets. -/
structure ReachesOnly (cur : StateId) (inst : InstID) (w w' : World) : Prop where
  bi2id : w'.bi2id = w.bi2id
  heap : w'.heap = w.heap ∨ ∃ bid, w.bi2id inst = some bid ∧
    (∃ b ∈ (w.heap cur).branchInfos, b.targetBranchID = bid) ∧
    w'.heap = (w.setState cur { w.heap cur with reachBranch := true }).heap

theorem ReachesOnly.congr {cur : StateId} {inst : InstID} {w w' w'' : World} (h : ReachesOnly cur inst w w')
    (hbi : w''.bi2id = w'.bi2id) (hheap : w''.heap = w'.heap) : ReachesOnly cur inst w w'' := by
  constructor
  · rw [hbi, h.bi2id]
  · rw [hheap]
    exact h.heap

namespace World

theorem reachTarget_reachesOnly {w : World} {inst : InstID} {bid : BranchID} (hbid : w.bi2id inst = some bid)
    (cur : StateId) : ReachesOnly cur inst w (w.reachTarget cur bid) := by
  unfold reachTarget
  split
  · rename_i hany
    obtain ⟨b, hb, htarget⟩ := List.any_eq_true.mp hany
    exact ⟨rfl, .inr ⟨bid, hbid, ⟨b, hb, by simpa using htarget⟩, rfl⟩⟩
  · exact ⟨rfl, .inl rfl⟩

theorem lists_rest (w : World) (bid : BranchID) :
    ((w.coverBranch bid).bi2id = w.bi2id ∧ (w.coverBranch bid).heap = w.heap) ∧
      ((w.addTarget bid).bi2id = w.bi2id ∧ (w.addTarget bid).heap = w.heap) ∧
      (w.countReach bid).1.bi2id = w.bi2id ∧ (w.countReach bid).1.heap = w.heap := by
  refine ⟨?_, ?_, ?_⟩
  · unfold coverBranch
    split
    · exact ⟨rfl, rfl⟩
    · dsimp only
      split
      · split
        · exact ⟨rfl, rfl⟩
        · exact ⟨rfl, rfl⟩
      · exact ⟨rfl, rfl⟩
  · unfold addTarget
    split
    · exact ⟨rfl, rfl⟩
    · exact ⟨rfl, rfl⟩
  · unfold countReach
    split
    · exact ⟨rfl, rfl⟩
    · dsimp only
      split
      · exact ⟨rfl, rfl⟩
      · exact ⟨rfl, rfl⟩

theorem branchStats_bi2id (w : World) (inst : InstID) (t f tracked : Bool) :
    (w.branchStats inst t f tracked).bi2id = w.bi2id := by
  have hnoted := branchStats_noted 0 w inst t f tracked
  exact hnoted.bi2id

theorem executeBr_reachesOnly {w w' : World} {cur : StateId} {inst : InstID} {taken tracked : Bool}
    {v1 v2 : Option (BitVec 64)} (h : w.executeBr cur inst taken tracked v1 v2 = some w') :
    ReachesOnly cur inst w w' := by
  have hheap := branchStats_heap w inst taken (!taken) tracked
  have hbi := branchStats_bi2id w inst taken (!taken) tracked
  unfold executeBr at h
  dsimp only at h
  generalize w.branchStats inst taken (!taken) tracked = ws at h hheap hbi
  have hstart : ReachesOnly cur inst w ws := ⟨hbi, .inl hheap⟩
  split at h
  · cases h
    exact hstart
  · rename_i bid hbid
    have hreach : ReachesOnly cur inst w (ws.reachTarget cur bid) := by
      have hr := reachTarget_reachesOnly hbid cur
      refine ⟨by rw [hr.bi2id, hbi], ?_⟩
      rcases hr.heap with he | ⟨b, hb, hinfo, he⟩
      · exact .inl (he.trans hheap)
      · rw [hbi] at hb
        rw [hheap] at hinfo
        refine .inr ⟨b, hb, hinfo, he.trans ?_⟩
        unfold setState
        rw [hheap]
    generalize ws.reachTarget cur bid = wr at h hreach
    split at h
    · cases h
      have hl := (lists_rest wr bid).1
      exact hreach.congr hl.1 hl.2
    · split at h
      · cases h
        exact hreach
      · split at h
        · cases h
        · split at h
          · cases h
            exact hreach
          · have hc := (lists_rest wr bid).2.2
            have hcount := hreach.congr hc.1 hc.2
            split at h
            · rename_i wc hwc
              cases h
              rw [hwc] at hcount
              exact hcount
            · rename_i wc hwc
              rw [hwc] at hcount
              unfold recordBranch at h
              split at h
              · obtain ⟨d', -, rfl⟩ := Option.map_eq_some_iff.mp h
                have hl := (lists_rest { wc with bdDep := Function.update wc.bdDep bid (some d') } bid).2.1
                exact hcount.congr hl.1 hl.2
              · split at h
                · cases h
                  exact hcount.congr rfl rfl
                · cases h

theorem executeSwitch_reachesOnly {w w' : World} {cur : StateId} {inst : InstID} {value : BitVec 64}
    (h : w.executeSwitch cur inst value = some w') : ReachesOnly cur inst w w' := by
  unfold executeSwitch at h
  split at h
  · cases h
    exact ⟨rfl, .inl rfl⟩
  · rename_i bid hbid
    split at h
    · cases h
    · rename_i d hd
      dsimp only at h
      have hreach : ReachesOnly cur inst w { w.reachTarget cur bid with
          bdDep := Function.update (w.reachTarget cur bid).bdDep bid (some (d.coverCase (signedOf value))) } :=
        (reachTarget_reachesOnly hbid cur).congr rfl rfl
      obtain ⟨hl₁, -, hl₃⟩ := lists_rest { w.reachTarget cur bid with
          bdDep := Function.update (w.reachTarget cur bid).bdDep bid (some (d.coverCase (signedOf value))) } bid
      split at h
      · cases h
        exact hreach.congr hl₁.1 hl₁.2
      · split at h
        · cases h
          exact hreach
        · split at h
          · cases h
            exact hreach
          · have hcount := hreach.congr hl₃.1 hl₃.2
            split at h
            · rename_i wc hwc
              cases h
              rw [hwc] at hcount
              exact hcount
            · rename_i wc hwc
              cases h
              rw [hwc] at hcount
              have hl := (lists_rest wc bid).2.1
              exact hcount.congr hl.1 hl.2

end World

theorem Config.execute_reached {c : Config} {it : Iteration} {cur : StateId} {w : World} (hq : Quiet c)
    (hp : Partition c) (h : c.execute it = some (cur, w)) (hreach : (w.heap cur).reachBranch = true) :
    (w.heap cur).prevPC = it.action.inst ∧ (w.heap cur).reachStore = false ∧
      ∀ bid, w.bi2id it.action.inst = some bid → ∃ b ∈ (w.heap cur).branchInfos, b.targetBranchID = bid := by
  obtain ⟨hsel, h⟩ := Config.execute_eq_some h
  obtain ⟨hstore, hdown⟩ := hq.begin hp hsel it (.inl (hp.selectState_mem hsel))
  have hprev : ((c.world.begin cur it).heap cur).prevPC = it.action.inst := by simp [World.begin]
  have hsame : w.heap cur ≠ (c.world.begin cur it).heap cur := by
    intro he
    rw [he, hdown] at hreach
    cases hreach
  have hbranch : ∀ inst, inst = it.action.inst → ReachesOnly cur inst (c.world.begin cur it) w →
      (w.heap cur).prevPC = it.action.inst ∧ (w.heap cur).reachStore = false ∧
        ∀ bid, w.bi2id it.action.inst = some bid → ∃ b ∈ (w.heap cur).branchInfos, b.targetBranchID = bid := by
    rintro inst rfl hr
    rcases hr.heap with he | ⟨bid, hbid, hinfo, he⟩
    · exact absurd (congrFun he cur) hsame
    · have hcur : w.heap cur = { (c.world.begin cur it).heap cur with reachBranch := true } := by
        rw [he, World.setState_heap_self]
      rw [hcur]
      refine ⟨hprev, hstore, fun bid' hbid' => ?_⟩
      rw [hr.bi2id, hbid] at hbid'
      cases hbid'
      exact hinfo
  cases ha : it.action with
  | br inst taken tracked v1 v2 =>
    rw [ha] at h hbranch
    exact hbranch inst rfl (World.executeBr_reachesOnly h)
  | switch inst value =>
    rw [ha] at h hbranch
    exact hbranch inst rfl (World.executeSwitch_reachesOnly h)
  | symbolicBr inst t f tracked =>
    rw [ha] at h
    cases h
    exact absurd (congrFun (World.branchStats_heap _ inst t f tracked) cur) hsame
  | store inst isPointer value iter =>
    rw [ha] at h
    rcases World.executeStore_cases h with rfl | ⟨v, -, -, -, hs⟩
    · exact absurd rfl hsame
    · have hflag := hs.reachBranch hreach
      rw [(World.rememberStore_flags _ cur _ _ iter).2, hdown] at hflag
      cases hflag
  | other inst =>
    rw [ha] at h
    cases h
    exact absurd rfl hsame

/-- In every run, when the current state has reached the branch that it just left without covering it, the update makes
it lose exactly that target if and only if it left a `br`; or, if the update replaces the targets of the state, if and
only if it was its only target. -/
theorem losesTarget_iff {c : Config} (hc : Run (fun _ _ => True) c) {it : Iteration} {cur : StateId} {bid : BranchID}
    {w w' : World} (hex : c.execute it = some (cur, w)) (hbid : w.bi2id it.action.inst = some bid)
    (hreach : (w.heap cur).reachBranch = true) (hnew : w.newFullyCoveredBranch = false) (hstays : cur ∉ it.removed)
    (h : w.update (some cur) it.added it.removed = some w') :
    LosesTarget bid (w.heap cur).branchInfos (w'.heap cur).branchInfos w.pushedInfos ↔
      (w.ReplacesTargets cur → (w.heap cur).branchInfos.length = 1) ∧
        (¬ w.ReplacesTargets cur → (w.kmodule.inst it.action.inst).opcode = .br ∨ bid = 0) := by
  obtain ⟨hp, hq⟩ := hc.sound
  obtain ⟨hprev, hstore, hinfo⟩ := Config.execute_reached hq hp hex hreach
  have hinfo := hinfo bid hbid
  have hscheduled := (Config.execute_sameVectors hex).scheduled
  have hnodup : w.scheduled.Nodup := by
    rw [hscheduled]
    exact hp.nodup
  have hcur : cur ∈ w.scheduled := by
    rw [hscheduled]
    exact (hp.mem_iff cur).mpr (hp.selectState_mem (Config.execute_eq_some hex).1)
  obtain ⟨hall, hone⟩ := World.update_missed hnodup hcur hreach hstore hnew hstays h
  by_cases hrep : w.ReplacesTargets cur
  · rw [hall hrep, losesTarget_all hinfo]
    simp [hrep]
  · rw [hone hrep]
    have hpast : w.pastBID cur = bid ↔ (w.kmodule.inst it.action.inst).opcode = .br ∨ bid = 0 := by
      unfold World.pastBID
      rw [hprev, hbid]
      split
      · rename_i hbr
        simp [hbr]
      · rename_i hbr
        simp only [hbr, false_or]
        exact eq_comm
    simp only [hrep, false_implies, not_false_eq_true, true_implies, true_and, ← hpast]
    unfold World.infosLeft
    constructor
    · intro hloses
      by_contra hne
      exact not_losesTarget_eraseP hne _ _ hloses
    · intro he
      rw [he]
      exact losesTarget_eraseP hinfo _

/-- A state takes the same side of its target twice. -/
theorem losesTarget_iff_br :
    ∃ c it cur bid w w', Run (fun _ _ => True) c ∧ c.execute it = some (cur, w) ∧
      w.update (some cur) it.added it.removed = some w' ∧
      LosesTarget bid (w.heap cur).branchInfos (w'.heap cur).branchInfos w.pushedInfos := by
  have hrun : ∃ c w w', (twoBranchesStart [0]).runs [{ action := .br 4 false true (some 7) (some 5) }] = some c ∧
      c.execute { action := .br 4 false true (some 7) (some 5) } = some (0, w) ∧
      w.update (some 0) [] [] = some w' ∧ w.bi2id 4 = some 2 ∧ (w.heap 0).reachBranch = true ∧
      w.newFullyCoveredBranch = false ∧ w.updateTargetBranch = false ∧ (w.kmodule.inst 4).opcode = .br :=
    ⟨_, _, _, rfl, rfl, rfl, by decide, by decide, by decide, by decide,
      by decide⟩
  obtain ⟨c, w, w', hc, hex, h, hbid, hreach, hnew, hrefresh, hbr⟩ := hrun
  have hno : ¬ w.ReplacesTargets 0 := by
    rintro ⟨hyes, -⟩
    rw [hrefresh] at hyes
    cases hyes
  have hstart := twoBranches_start.run hc
  refine ⟨c, _, 0, 2, w, w', hstart, hex, h, ?_⟩
  exact (losesTarget_iff hstart hex hbid hreach hnew List.not_mem_nil h).mpr
    ⟨fun hyes => absurd hyes hno, fun _ => .inl hbr⟩

def oneSwitch : World :=
  { (default : World) with
    kmodule := ⟨[⟨.switch, 0, [.inst 2]⟩, ⟨.other, 0, []⟩, ⟨.other, 0, []⟩], fun _ => 0⟩
    bdDep := fun b => if b = 1 then some { type := .switch, stores := [1], unCoveredValues := [1, 2] } else none
    id2bi := fun b => if b = 1 then some 0 else none
    bi2id := fun i => if i = 0 then some 1 else none
    id2si := fun s => if s = 1 then some 1 else none
    si2id := fun i => if i = 1 then 1 else 0
    storetTobranches := fun s => if s = 1 then [1] else []
    funcStores := fun _ => [1]
    targetBranchNum := 1
    maxReachBranchCount := 3 }

theorem oneSwitch_loaded : Loaded oneSwitch where
  reachStore _ := rfl
  reachBranch _ := rfl
  branch i b h := by
    simp only [oneSwitch] at h ⊢
    split at h
    · cases h; simp [*]
    · cases h
  targetBranches := rfl
  partlyCoveredBranches := rfl
  fullyCoveredBranches := rfl
  updateTargetBranch := rfl
  newFullyCoveredBranch := rfl
  newPartlyCoveredBranch := rfl
  newBranchNumFromStore := rfl
  invalidStoreValues _ := rfl
  validStoreValues _ := rfl
  states := rfl
  branchStates := rfl

/-- A state takes the same case of its target twice: the target stays. -/
theorem losesTarget_counterexample :
    ¬ ∀ c it cur bid w w', Run (fun _ _ => True) c → Allowed c it → c.execute it = some (cur, w) →
      w.bi2id it.action.inst = some bid → (w.heap cur).reachBranch = true → w.newFullyCoveredBranch = false →
      cur ∉ it.removed → w.update (some cur) it.added it.removed = some w' →
      LosesTarget bid (w.heap cur).branchInfos (w'.heap cur).branchInfos w.pushedInfos := by
  intro hall
  have hstart : Start ⟨{ oneSwitch with states := [0] }, [0]⟩ := ⟨oneSwitch, oneSwitch_loaded, by decide, rfl⟩
  have hrun : ∃ c w w', Config.runs ⟨{ oneSwitch with states := [0] }, [0]⟩ [{ action := .switch 0 1 }] = some c ∧
      Allowed c { action := .switch 0 1 } ∧ c.execute { action := .switch 0 1 } = some (0, w) ∧
      w.update (some 0) [] [] = some w' ∧ w.bi2id 0 = some 1 ∧ (w.heap 0).reachBranch = true ∧
      w.newFullyCoveredBranch = false ∧ (w.heap 0).branchInfos = [⟨1, 1⟩] ∧ (w'.heap 0).branchInfos = [⟨1, 1⟩] ∧
      w.pushedInfos = [] :=
    ⟨_, _, _, rfl, by decide, rfl, rfl, by decide, by decide, by decide,
      by decide, by decide, by decide⟩
  obtain ⟨c, w, w', hc, ha, hex, h, hbid, hreach, hnew, hbefore, hafter, hpushed⟩ := hrun
  obtain ⟨pre, b, post, hsplit, -, hleft⟩ :=
    hall c _ 0 1 w w' (hstart.run hc) ha hex hbid hreach hnew List.not_mem_nil h
  rw [hbefore] at hsplit
  rw [hafter, hpushed, List.append_nil] at hleft
  have hlen₁ := congrArg List.length hsplit
  have hlen₂ := congrArg List.length hleft
  simp only [List.length_append, List.length_cons, List.length_nil] at hlen₁ hlen₂
  omega

end CgsKlee
