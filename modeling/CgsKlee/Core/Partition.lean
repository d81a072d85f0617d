import CgsKlee.Core.Progress
import Mathlib.Data.List.Nodup

/-!
# The two vectors partition the live states

`CGSSearcher` as the outermost searcher of `Executor::run`.  Every block of `update` only moves states between
`states` and `branchStates`, so that the concatenation of the two is permuted (`update_perm`); with the rules that
the Executor keeps for added and removed states this gives the partition in every run (`partition_of_run`).  Between
two updates everything but the two vectors may change in any way.
-/

namespace CgsKlee

namespace World

def scheduled (w : World) : List StateId := w.states ++ w.branchStates

end World

theorem LoopFrame.scheduled {w w' : World} (h : LoopFrame w w') : w'.scheduled = w.scheduled := by
  rw [World.scheduled, World.scheduled, h.states, h.branchStates]

namespace World

theorem moveToBranchStates_perm (w : World) (s : StateId) :
    (w.moveToBranchStates s).scheduled.Perm w.scheduled := by
  unfold moveToBranchStates
  split
  · rename_i hs
    have h1 : (w.states.erase s ++ (w.branchStates ++ [s])).Perm (s :: w.states.erase s ++ w.branchStates) := by
      rw [← List.append_assoc]
      exact List.perm_append_comm
    exact h1.trans ((List.perm_cons_erase hs).symm.append_right _)
  · exact List.Perm.refl _

variable {current : Option StateId} {w w' : World} {cur : StateId} {added : List StateId}

theorem visitStates_perm {bid : BranchID} {sid : StoreID}
    (h : visitStates current bid w sid = some w') : w'.scheduled.Perm w.scheduled := by
  unfold visitStates at h
  split at h
  · cases h
  · rename_i kept moved w₁ hs
    cases h
    have hf := sweep_loopFrame (fun _ _ _ _ => visitState_frame) hs
    show (kept ++ (w₁.branchStates ++ moved)).Perm (w.states ++ w.branchStates)
    rw [hf.branchStates]
    exact (List.perm_append_comm.append_left kept).trans
      (by rw [← List.append_assoc]; exact (Loops.sweep_perm hs).append_right _)

theorem handlePartlyCoveredBranch_perm {bid : BranchID}
    (h : w.handlePartlyCoveredBranch current bid = some w') : w'.scheduled.Perm w.scheduled := by
  obtain ⟨d, w₁, w₂, -, h₁, h₂, h₃⟩ := handlePartlyCoveredBranch_cases h
  have f₁ : LoopFrame w w₁ :=
    Loops.foldlM_rel LoopFrame LoopFrame.refl LoopFrame.trans (fun _ _ _ _ => addTargetInfo_frame) h₁
  have f₂ : w₂.scheduled.Perm w₁.scheduled := by
    rcases h₂ with rfl | ⟨cur, rfl⟩
    · exact List.Perm.refl _
    · exact moveToBranchStates_perm _ _
  have f₃ : w'.scheduled.Perm w₂.scheduled :=
    Loops.foldlM_rel (fun a b => b.scheduled.Perm a.scheduled) (fun _ => List.Perm.refl _)
      (fun h h' => h'.trans h) (fun _ _ _ _ => visitStates_perm) h₃
  rw [← f₁.scheduled]
  exact f₃.trans f₂

theorem sweep_branchStates_perm {visit : World → StateId → Option (Bool × World)}
    (hv : ∀ a out w₁ w₂, visit w₁ a = some (out, w₂) → LoopFrame w₁ w₂) {w₁ : World} {kept moved : List StateId}
    (hs : Loops.sweep visit w.branchStates w = some (kept, moved, w₁)) :
    ((w₁.states ++ moved) ++ kept).Perm w.scheduled := by
  have hf := sweep_loopFrame hv hs
  rw [hf.states, List.append_assoc]
  exact (List.perm_append_comm.trans (Loops.sweep_perm hs)).append_left w.states

theorem handleFullyCoveredBranch_perm {bid : BranchID}
    (h : w.handleFullyCoveredBranch cur bid = some w') : w'.scheduled.Perm w.scheduled := by
  obtain ⟨I, d, kept, moved, w₂, -, -, hs, rfl⟩ := handleFullyCoveredBranch_eq_some h
  have hu : (d.stores.foldl (unlinkStore (w.kmodule.functionOf I) bid) (w, [])).1.scheduled = w.scheduled := by
    rw [unlinkStores_rest]
    rfl
  rw [← hu]
  exact sweep_branchStates_perm (fun _ _ _ _ => visitCovered_frame) hs

theorem rotate_perm (h : w.rotate cur added = some w') :
    w'.scheduled.Perm w.scheduled := by
  have key : ∀ {l : List StateId}, cur ∈ l → (l.erase cur ++ [cur]).Perm l := fun hc =>
    List.perm_append_comm.trans (List.perm_cons_erase hc).symm
  unfold rotate at h
  split at h
  · cases h; exact List.Perm.refl _
  · split at h
    · split at h
      · cases h; exact (key ‹_›).append_right _
      · cases h
    · split at h
      · cases h; exact (key ‹_›).append_left _
      · cases h

theorem targetCovered_perm (h : w.targetCovered cur = some w') :
    w'.scheduled.Perm w.scheduled := by
  obtain ⟨bid, w₁, sts, bsts, -, hw₁, hv, rfl⟩ := targetCovered_eq_some h
  refine List.Perm.trans ?_ (handleFullyCoveredBranch_perm hw₁)
  show (sts ++ bsts).Perm (w₁.states ++ w₁.branchStates)
  rcases hv with ⟨rfl, rfl⟩ | ⟨hc, rfl, rfl⟩
  · exact List.Perm.refl _
  · exact List.perm_middle.symm.trans ((List.perm_cons_erase hc).symm.append_left _)

theorem targetMissed_perm (w : World) (cur : StateId) : (w.targetMissed cur).scheduled.Perm w.scheduled := by
  unfold targetMissed
  dsimp only
  split
  · rename_i hc
    show ((w.states ++ [cur]) ++ w.branchStates.erase cur).Perm (w.states ++ w.branchStates)
    rw [List.append_assoc]
    exact (List.perm_cons_erase hc.2).symm.append_left _
  · exact List.Perm.refl _

theorem reachBranchBlock_perm (h : w.reachBranchBlock cur = some w') :
    w'.scheduled.Perm w.scheduled := by
  rcases reachBranchBlock_eq_some h with ⟨-, rfl⟩ | ⟨-, w₁, ⟨-, h₁⟩ | ⟨-, rfl⟩, rfl⟩
  · exact List.Perm.refl _
  · exact (targetCovered_perm h₁ : w₁.scheduled.Perm w.scheduled)
  · exact targetMissed_perm w cur

theorem visitInfo_perm {current : StateId} {b : BranchInfo} {out : Bool}
    (h : visitInfo current w b = some (out, w')) : w'.scheduled.Perm w.scheduled := by
  unfold visitInfo at h
  split at h
  · cases h
  · rename_i hn
    cases h
    rw [← (isNewStoreValue_frame hn).scheduled]
    exact moveToBranchStates_perm _ _
  · rename_i hn
    cases h
    rw [(isNewStoreValue_frame hn).scheduled]

theorem reachStoreBlock_perm (h : w.reachStoreBlock cur = some w') :
    w'.scheduled.Perm w.scheduled := by
  rcases reachStoreBlock_eq_some h with ⟨-, rfl⟩ | ⟨-, -, istart, kept, moved, w₁, -, hs, rfl⟩
  · exact List.Perm.refl _
  · exact Loops.sweep_rel (fun a b => b.scheduled.Perm a.scheduled) (fun _ => List.Perm.refl _)
      (fun h h' => h'.trans h) (fun _ _ _ _ _ => visitInfo_perm) hs

theorem newPartlyBlock_perm (h : w.newPartlyBlock cur = some w') :
    w'.scheduled.Perm w.scheduled := by
  rcases newPartlyBlock_eq_some h with ⟨-, rfl⟩ | ⟨-, bid, w₁, -, h₁, rfl⟩
  · exact List.Perm.refl _
  · exact (handlePartlyCoveredBranch_perm h₁ : w₁.scheduled.Perm w.scheduled)

theorem promoteBranches_perm {n : Nat}
    (h : promoteBranches current n w = some w') : w'.scheduled.Perm w.scheduled := by
  induction n generalizing w with
  | zero => cases h; exact List.Perm.refl _
  | succ n ih =>
    rcases promoteBranches_succ_eq_some h with ⟨-, rfl⟩ | ⟨bid, w₁, -, h₁, h₂⟩
    · exact List.Perm.refl _
    · have hp := handlePartlyCoveredBranch_perm h₁
      exact (ih h₂).trans hp

theorem refreshBlock_perm (h : w.refreshBlock current = some w') :
    w'.scheduled.Perm w.scheduled := by
  rcases refreshBlock_eq_some h with ⟨-, rfl⟩ | ⟨-, kept, moved, w₁, w₂, hs, hp, rfl⟩
  · exact List.Perm.refl _
  · have hp := promoteBranches_perm hp
    exact hp.trans (sweep_branchStates_perm (fun _ _ _ _ => visitRefresh_frame) hs)

theorem insertStates_perm (current : Option StateId) (added : List StateId) (w : World) :
    (added.foldl (insertState current) w).scheduled.Perm (w.scheduled ++ added) := by
  induction added generalizing w with
  | nil => simp
  | cons s added ih =>
    have hs : (insertState current w s).scheduled.Perm (w.scheduled ++ [s]) := by
      have hst : ((w.states ++ [s]) ++ w.branchStates).Perm (w.scheduled ++ [s]) := by
        rw [scheduled, List.append_assoc, List.append_assoc]
        exact List.perm_append_comm.append_left _
      unfold insertState
      split
      · exact hst
      · split
        · show (w.states ++ (w.branchStates ++ [s])).Perm _
          rw [scheduled, List.append_assoc]
        · exact hst
    rw [List.foldl_cons]
    refine (ih _).trans ((hs.append_right added).trans ?_)
    simp

theorem removeStates_perm (removed : List StateId) (w : World) :
    (removed.foldl removeState w).scheduled.Perm (w.scheduled.diff removed) := by
  induction removed generalizing w with
  | nil => simp
  | cons s removed ih =>
    have hs : (w.removeState s).scheduled.Perm (w.scheduled.erase s) := by
      refine List.Perm.trans ?_ (List.perm_append_comm.erase s)
      unfold removeState
      split
      · rw [List.erase_append_left _ ‹_›]
        exact List.perm_append_comm
      · rw [List.erase_append_right _ ‹_›]
        exact List.perm_append_comm
    rw [List.foldl_cons, List.diff_cons]
    exact (ih _).trans (hs.diff_right removed)

theorem updateCurrent_perm
    (h : w.updateCurrent cur added = some w') : w'.scheduled.Perm w.scheduled := by
  obtain ⟨w₁, w₂, w₃, h₁, h₂, h₃, h₄⟩ := updateCurrent_eq_some h
  exact (newPartlyBlock_perm h₄).trans ((reachStoreBlock_perm h₃).trans
    ((reachBranchBlock_perm h₂).trans (rotate_perm h₁)))

theorem update_perm {removed : List StateId}
    (h : w.update current added removed = some w') :
    w'.scheduled.Perm ((w.scheduled ++ added).diff removed) := by
  obtain ⟨w₁, w₂, h₁, h₂, rfl⟩ := update_eq_some h
  have hw₁ : w₁.scheduled.Perm w.scheduled := by
    rcases h₁ with ⟨-, rfl⟩ | ⟨cur, -, -, hc⟩
    · exact List.Perm.refl _
    · exact updateCurrent_perm hc
  refine (removeStates_perm removed _).trans (List.Perm.diff_right _ ?_)
  exact (insertStates_perm current added w₂).trans (((refreshBlock_perm h₂).trans hw₁).append_right added)

end World

/-- The shared memory and `Executor::states`. -/
structure Config where
  world : World
  live : List StateId

structure Admissible (live added removed : List StateId) : Prop where
  nodup : added.Nodup
  fresh : ∀ s ∈ added, s ∉ live
  live : ∀ s ∈ removed, s ∈ live

/-- `Executor::states` after `Executor::updateStates`. -/
def updateLive (live added removed : List StateId) : List StateId :=
  (live ++ added).filter fun s => s ∉ removed

/-- The world in which the next update starts: only the searcher writes its two vectors. -/
structure SameVectors (w env : World) : Prop where
  states : env.states = w.states
  branchStates : env.branchStates = w.branchStates

/-- The configurations after an update in a run of the main loop.  The handlers, the memory and the flags are those
of an arbitrary world `env`. -/
inductive Reachable : Config → Prop
  | start {env w : World} {initial : List StateId} (hs : env.states = []) (hb : env.branchStates = [])
      (hi : initial.Nodup) (h : env.update none initial [] = some w) : Reachable ⟨w, initial⟩
  | iteration {c : Config} {env w : World} {cur : StateId} {added removed : List StateId} (hc : Reachable c)
      (hcur : c.world.selectState = some cur) (hv : SameVectors c.world env)
      (ha : Admissible c.live added removed) (h : env.update (some cur) added removed = some w) :
      Reachable ⟨w, updateLive c.live added removed⟩
  | memory {c : Config} {env w : World} {removed : List StateId} (hc : Reachable c)
      (hv : SameVectors c.world env) (ha : Admissible c.live [] removed) (h : env.update none [] removed = some w) :
      Reachable ⟨w, updateLive c.live [] removed⟩

/-- The two vectors hold every live state once and nothing else. -/
structure Partition (c : Config) : Prop where
  nodup : c.world.scheduled.Nodup
  mem_iff : ∀ s, s ∈ c.world.scheduled ↔ s ∈ c.live

theorem SameVectors.scheduled {w env : World} (h : SameVectors w env) : env.scheduled = w.scheduled := by
  rw [World.scheduled, World.scheduled, h.states, h.branchStates]

theorem SameVectors.selectState {w env : World} (h : SameVectors w env) : env.selectState = w.selectState := by
  rw [World.selectState, World.selectState, h.states, h.branchStates]

theorem Partition.update {c : Config} (hc : Partition c) {env w : World} {current : Option StateId}
    {added removed : List StateId} (hv : SameVectors c.world env) (ha : Admissible c.live added removed)
    (h : env.update current added removed = some w) : Partition ⟨w, updateLive c.live added removed⟩ := by
  have hp := World.update_perm h
  rw [hv.scheduled] at hp
  have hnd : (c.world.scheduled ++ added).Nodup := by
    refine List.nodup_append.2 ⟨hc.nodup, ha.nodup, fun a hs b hb hab => ?_⟩
    subst hab
    exact ha.fresh a hb ((hc.mem_iff a).1 hs)
  refine ⟨hp.nodup_iff.2 (hnd.diff), fun s => ?_⟩
  rw [hp.mem_iff, hnd.mem_sdiff_iff, updateLive, List.mem_filter, List.mem_append, List.mem_append, hc.mem_iff]
  simp

theorem Reachable.partition {c : Config} (h : Reachable c) : Partition c := by
  induction h with
  | @start env w initial hs hb hi h =>
    have hstart : Partition ⟨env, []⟩ := ⟨by simp [World.scheduled, hs, hb], by simp [World.scheduled, hs, hb]⟩
    have := hstart.update ⟨rfl, rfl⟩ ⟨hi, by simp, by simp⟩ h
    simpa [updateLive] using this
  | iteration hc hcur hv ha h ih => exact ih.update hv ha h
  | memory hc hv ha h ih => exact ih.update hv ha h

theorem World.empty_iff (w : World) : w.empty = true ↔ w.scheduled = [] := by
  simp [World.empty, World.scheduled]

theorem World.selectState_of_ne_nil {w : World} (h : w.scheduled ≠ []) :
    ∃ s ∈ w.scheduled, w.selectState = some s := by
  unfold World.selectState World.scheduled at *
  split
  · rename_i s l hb
    exact ⟨s, by simp [hb], rfl⟩
  · rename_i hb
    rw [hb, List.append_nil] at h ⊢
    obtain ⟨s, l, hs⟩ := List.exists_cons_of_ne_nil h
    exact ⟨s, by simp [hs], by simp [hs]⟩

/-- After every update of every run, `states` and `branch_states` have no duplicates, are disjoint and hold exactly
the live states; so `empty` holds iff no state is left, and otherwise `selectState` returns a live state.  The next
update ends whenever what it dereferences is there: the rotation finds the selected state. -/
theorem partition_of_run {c : Config} (h : Reachable c) :
    c.world.states.Nodup ∧ c.world.branchStates.Nodup ∧ c.world.states.Disjoint c.world.branchStates ∧
    (∀ s, s ∈ c.world.states ∨ s ∈ c.world.branchStates ↔ s ∈ c.live) ∧
    (c.world.empty = true ↔ c.live = []) ∧
    (c.live ≠ [] → ∃ s ∈ c.live, c.world.selectState = some s) ∧
    (∀ env added removed, SameVectors c.world env →
      (∀ cur, c.world.selectState = some cur → env.Dereferenceable (some cur) →
        (env.update (some cur) added removed).isSome) ∧
      (env.Dereferenceable none → (env.update none added removed).isSome)) := by
  have hp := h.partition
  have hnd := List.nodup_append.1 hp.nodup
  have hnil : c.world.scheduled = [] ↔ c.live = [] := by
    simp only [List.eq_nil_iff_forall_not_mem, hp.mem_iff]
  refine ⟨hnd.1, hnd.2.1, fun s hs hb => hnd.2.2 s hs s hb rfl, fun s => ?_, ?_, fun hne => ?_,
    fun env added removed hv => ⟨fun cur hcur hd => ?_, fun hd => ?_⟩⟩
  · rw [← hp.mem_iff, World.scheduled, List.mem_append]
  · rw [World.empty_iff, hnil]
  · obtain ⟨s, hs, hsel⟩ := World.selectState_of_ne_nil (mt hnil.1 hne)
    exact ⟨s, (hp.mem_iff s).1 hs, hsel⟩
  · obtain ⟨w', hw'⟩ := World.update_isSome hd (fun cur' hcur' => by
      cases hcur'
      rw [hv.selectState, hcur]) added removed
    rw [hw']
    rfl
  · obtain ⟨w', hw'⟩ := World.update_isSome hd (fun cur' hcur' => by cases hcur') added removed
    rw [hw']
    rfl

/-- A run in which the first state forks, and the new one is at the same block. -/
theorem partition_of_run_fork :
    ∃ c : Config, c.live = [0, 1] ∧ c.world.selectState = some 1 ∧ c.world.states.Nodup ∧
      ∀ s, s ∈ c.world.states ∨ s ∈ c.world.branchStates ↔ s ∈ c.live := by
  have h0 := @Reachable.start default _ [0] rfl rfl (by decide) rfl
  have h1 := @Reachable.iteration _ { (default : World) with states := [0], heap := fun s =>
    { branchInfos := if s = 1 then [⟨1, 1⟩] else [] } } _ 0 [1] [] h0 rfl ⟨rfl, rfl⟩
    ⟨by decide, by decide, by decide⟩ rfl
  have hp := partition_of_run h1
  exact ⟨_, rfl, rfl, hp.1, hp.2.2.2.1⟩

end CgsKlee
