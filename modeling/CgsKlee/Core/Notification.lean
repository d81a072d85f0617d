import CgsKlee.Core.Run

/-!
# Notifications of fully covered branches

The handlers push a fully covered branch to `fullyCoveredBranches` and set `newFullyCoveredBranch`; `update` handles
the back of the list and clears the flag, but only when the current state has reached a target.  One flag stands for
a queue: a second branch that is covered while a notification is pending hides the first one.  No notification is
lost in the runs in which this does not happen (`NotifyCondition`).
-/

namespace CgsKlee

/-- `handleFullyCoveredBranch` has processed the branch: none of its stores is linked to it. -/
def Unlinked (w : World) (b : BranchID) : Prop :=
  ∀ d, w.bdDep b = some d → ∀ sid ∈ d.stores, b ∉ w.storetTobranches sid

/-- If no notification is pending, all fully covered branches are processed. -/
def Processed (w : World) : Prop :=
  w.newFullyCoveredBranch = false → ∀ b ∈ w.fullyCoveredBranches, Unlinked w b

/-- The branch that the action covers fully for the first time, if there is one. -/
def Action.covers (a : Action) (w : World) : Option BranchID :=
  match a with
  | .br inst taken tracked _ _ =>
    (w.bi2id inst).filter fun bid =>
      (w.branchStats inst taken (!taken) tracked).fullBranches inst ≠ 0 ∧ bid ∉ w.fullyCoveredBranches
  | .switch inst value =>
    (w.bi2id inst).filter fun bid =>
      (w.bdDep bid).any (fun d => (d.coverCase (signedOf value)).unCoveredValues.isEmpty) ∧
        bid ∉ w.fullyCoveredBranches
  | _ => none

/-- A branch is fully covered for the first time only when no notification is pending, or when nothing is left to do
for the pending one. -/
def NotifyCondition (c : Config) (it : Iteration) : Prop :=
  (it.action.covers c.world).isSome → c.world.newFullyCoveredBranch = false ∨
    ∀ b, c.world.fullyCoveredBranches.getLast? = some b → Unlinked c.world b

/-- The invariant: a fully covered branch that is not processed is the back of the list, and its notification is
pending. -/
def Notified (w : World) : Prop :=
  ∀ b ∈ w.fullyCoveredBranches, Unlinked w b ∨
    w.newFullyCoveredBranch = true ∧ w.fullyCoveredBranches.getLast? = some b

theorem Notified.processed {w : World} (h : Notified w) : Processed w := by
  intro hn b hb
  rcases h b hb with hu | ⟨ht, -⟩
  · exact hu
  · rw [hn] at ht
    cases ht

/-- The entries keep their stores, and stores only lose branches. -/
structure LinksShrink (w w' : World) : Prop where
  stores : ∀ b d', w'.bdDep b = some d' → ∃ d, w.bdDep b = some d ∧ d'.stores = d.stores
  links : ∀ sid b, b ∈ w'.storetTobranches sid → b ∈ w.storetTobranches sid

namespace LinksShrink

theorem of_eq {w w' : World} (hd : w'.bdDep = w.bdDep) (hs : w'.storetTobranches = w.storetTobranches) :
    LinksShrink w w' :=
  ⟨fun b d' h => ⟨d', by rw [← hd]; exact h, rfl⟩, by rw [hs]; exact fun _ _ h => h⟩

theorem trans {w₁ w₂ w₃ : World} (h₁ : LinksShrink w₁ w₂) (h₂ : LinksShrink w₂ w₃) : LinksShrink w₁ w₃ := by
  refine ⟨fun b d h => ?_, fun sid b h => h₁.links sid b (h₂.links sid b h)⟩
  obtain ⟨d₂, hd₂, hs₂⟩ := h₂.stores b d h
  obtain ⟨d₁, hd₁, hs₁⟩ := h₁.stores b d₂ hd₂
  exact ⟨d₁, hd₁, hs₂.trans hs₁⟩

theorem unlinked {w w' : World} (h : LinksShrink w w') {b : BranchID} (hu : Unlinked w b) : Unlinked w' b := by
  intro d' hd' sid hsid hmem
  obtain ⟨d, hd, hs⟩ := h.stores b d' hd'
  exact hu d hd sid (hs ▸ hsid) (h.links sid b hmem)

theorem setEntry {w : World} {bid : BranchID} {d d' : BDDep} (hd : w.bdDep bid = some d) (hs : d'.stores = d.stores) :
    LinksShrink w { w with bdDep := Function.update w.bdDep bid (some d') } := by
  refine ⟨fun b e he => ?_, fun _ _ h => h⟩
  by_cases hb : b = bid
  · subst hb
    simp only [Function.update_self] at he
    cases he
    exact ⟨d, hd, hs⟩
  · simp only [Function.update_of_ne hb] at he
    exact ⟨e, he, rfl⟩

end LinksShrink

/-- What the handlers do to the list of fully covered branches and to the links. -/
structure Covering (w w' : World) (covered : Option BranchID) : Prop where
  shrink : LinksShrink w w'
  list : w'.fullyCoveredBranches = w.fullyCoveredBranches ++ covered.toList
  flag : w'.newFullyCoveredBranch = (covered.isSome || w.newFullyCoveredBranch)

theorem Covering.of_noted {cur : StateId} {inst : InstID} {w w' : World} (h : Noted cur inst w w') :
    Covering w w' none :=
  ⟨LinksShrink.of_eq (by rw [h.rest]) (by rw [h.rest]), by rw [h.rest]; simp, by rw [h.rest]; simp⟩

theorem Covering.coverBranch (w : World) (bid : BranchID) :
    Covering w (w.coverBranch bid) (if bid ∈ w.fullyCoveredBranches then none else some bid) := by
  unfold World.coverBranch
  split
  · exact ⟨LinksShrink.of_eq rfl rfl, by simp, rfl⟩
  · dsimp only
    split
    · split <;> exact ⟨LinksShrink.of_eq rfl rfl, rfl, rfl⟩
    · exact ⟨LinksShrink.of_eq rfl rfl, rfl, rfl⟩

theorem Covering.addTarget (w : World) (bid : BranchID) : Covering w (w.addTarget bid) none := by
  unfold World.addTarget
  split <;> exact ⟨LinksShrink.of_eq rfl rfl, by simp, rfl⟩

theorem Covering.trans_right {w₁ w₂ w₃ : World} {covered : Option BranchID} (h₁ : Covering w₁ w₂ none)
    (h₂ : Covering w₂ w₃ covered) : Covering w₁ w₃ covered :=
  ⟨h₁.shrink.trans h₂.shrink, by rw [h₂.list, h₁.list]; simp, by rw [h₂.flag, h₁.flag]; simp⟩

theorem Covering.setEntry {w : World} {bid : BranchID} {d d' : BDDep} (hd : w.bdDep bid = some d)
    (hs : d'.stores = d.stores) : Covering w { w with bdDep := Function.update w.bdDep bid (some d') } none :=
  ⟨LinksShrink.setEntry hd hs, by simp, rfl⟩

theorem Action.execute_covering {a : Action} {w w' : World} {cur : StateId} (h : a.execute w cur = some w') :
    ∃ covered, Covering w w' covered ∧ (covered.isSome → (a.covers w).isSome) := by
  have hnone : Covering w w' none → ∃ covered, Covering w w' covered ∧ (covered.isSome → (a.covers w).isSome) :=
    fun hc => ⟨none, hc, fun h => by cases h⟩
  cases a with
  | br inst taken tracked v1 v2 =>
    obtain ⟨w₁, hn, hfull, hcases⟩ := World.executeBr_cases h
    have hc := Covering.of_noted hn
    rcases hcases with rfl | ⟨bid, hbid, ⟨hf, rfl⟩ | ⟨-, -, -, -, d, d', c1, c2, hd, -, -, -, hr, rfl⟩⟩
    · exact hnone hc
    · refine ⟨_, hc.trans_right (Covering.coverBranch w₁ bid), fun hs => ?_⟩
      have hnew : bid ∉ w.fullyCoveredBranches := fun hm => by
        rw [if_pos (by rw [hn.rest]; exact hm)] at hs
        cases hs
      rw [hfull] at hf
      simp [Action.covers, hbid, hf, hnew]
    · have hd₁ : w₁.bdDep bid = some d := by rw [hn.rest]; exact hd
      have he := Covering.setEntry hd₁ (KModule.recordEntry_keeps hr).1
      exact hnone (hc.trans_right (he.trans_right (Covering.addTarget _ bid)))
  | symbolicBr inst t f tracked =>
    cases h
    have hc := Covering.of_noted (World.branchStats_noted cur w inst t f tracked)
    exact hnone (hc.trans_right ⟨LinksShrink.of_eq rfl rfl, by simp [World.executeSymbolicBr], rfl⟩)
  | switch inst value =>
    rcases World.executeSwitch_cases h with ⟨-, rfl⟩ | ⟨bid, d, d', w₁, hbid, hd, hd', hn, hcases⟩
    · exact hnone ⟨LinksShrink.of_eq rfl rfl, by simp, rfl⟩
    · have hst : d'.stores = d.stores := by rw [hd']; rfl
      have hc := (Covering.setEntry hd hst).trans_right (Covering.of_noted hn)
      rcases hcases with rfl | ⟨hcov, rfl⟩ | ⟨-, -, -, -, rfl⟩
      · exact hnone hc
      · refine ⟨_, hc.trans_right (Covering.coverBranch w₁ bid), fun hs => ?_⟩
        have hnew : bid ∉ w.fullyCoveredBranches := fun hm => by
          rw [if_pos (by rw [hn.rest]; exact hm)] at hs
          cases hs
        rw [hd'] at hcov
        simp [Action.covers, hbid, hd, hcov, hnew]
      · exact hnone (hc.trans_right (Covering.addTarget w₁ bid))
  | store inst isPointer value iter =>
    rcases World.executeStore_cases h with rfl | ⟨v, -, -, -, hs⟩
    · exact hnone ⟨LinksShrink.of_eq rfl rfl, by simp, rfl⟩
    · have hr : Covering w (w.rememberStore cur (w.si2id inst) (signedOf v) iter) none :=
        ⟨LinksShrink.of_eq rfl rfl, by simp [World.rememberStore, World.setState], rfl⟩
      generalize w.rememberStore cur (w.si2id inst) (signedOf v) iter = w₁ at hs hr
      exact hnone (hr.trans_right
        ⟨LinksShrink.of_eq (by rw [hs.rest]) (by rw [hs.rest]), by rw [hs.rest]; simp, by rw [hs.rest]; rfl⟩)
  | other inst =>
    cases h
    exact hnone ⟨LinksShrink.of_eq rfl rfl, by simp, rfl⟩

theorem Action.covers_begin (a : Action) (w : World) (cur : StateId) (it : Iteration) :
    a.covers (w.begin cur it) = a.covers w := by
  cases a with
  | br inst taken tracked v1 v2 =>
    simp only [Action.covers, World.begin_branchStats]
    rfl
  | switch | symbolicBr | store | other => rfl

theorem Config.execute_notified {c : Config} {it : Iteration} {cur : StateId} {w : World} (hn : Notified c.world)
    (hp : NotifyCondition c it) (h : c.execute it = some (cur, w)) : Notified w := by
  obtain ⟨covered, hc, hcov⟩ := Action.execute_covering (Config.execute_eq_some h).2
  rw [Action.covers_begin] at hcov
  have hlist : w.fullyCoveredBranches = c.world.fullyCoveredBranches ++ covered.toList := hc.list
  have hflag : w.newFullyCoveredBranch = (covered.isSome || c.world.newFullyCoveredBranch) := hc.flag
  have hun : ∀ {b}, Unlinked c.world b → Unlinked w b := fun hu =>
    hc.shrink.unlinked (show Unlinked (c.world.begin cur it) _ from hu)
  intro b hb
  cases covered with
  | none =>
    simp only [Option.toList_none, List.append_nil, Option.isSome_none, Bool.false_or] at hlist hflag
    rw [hlist] at hb ⊢
    rw [hflag]
    exact (hn b hb).imp_left hun
  | some bid =>
    simp only [Option.toList_some, Option.isSome_some, Bool.true_or] at hlist hflag
    rw [hlist, List.mem_append, List.mem_singleton] at hb
    rw [hlist, hflag]
    rcases hb with hb | rfl
    · -- what was pending before the push is processed, by the condition
      refine .inl (hun ?_)
      rcases hn b hb with hu | ⟨ht, hl⟩
      · exact hu
      · rcases hp (hcov rfl) with hf | hu
        · rw [hf] at ht
          cases ht
        · exact hu b hl
    · exact .inr ⟨rfl, by simp⟩

namespace World

variable {cur : StateId} {w w' : World}

theorem handleFullyCoveredBranch_unlinked {bid : BranchID}
    (h : w.handleFullyCoveredBranch cur bid = some w') : Unlinked w' bid := by
  have hbd := (handleFullyCoveredBranch_blockFrame h).bdDep
  obtain ⟨I, d, kept, moved, w₂, -, hd, hs, rfl⟩ := handleFullyCoveredBranch_eq_some h
  intro d' hd' sid hsid hmem
  rw [hbd, hd] at hd'
  cases hd'
  have hl := unlinkStores_links (w.kmodule.functionOf I) bid d.stores (w, []) sid bid
  generalize d.stores.foldl (unlinkStore (w.kmodule.functionOf I) bid) (w, []) = acc at hs hl
  have hf := (sweep_loopFrame (fun _ _ _ _ => visitCovered_frame) hs).storetTobranches
  have hmem : bid ∈ w₂.storetTobranches sid := hmem
  rw [hf] at hmem
  exact (hl hmem).2 hsid rfl

theorem linksShrink_of_blockFrame (h : BlockFrame w w') : LinksShrink w w' :=
  ⟨fun b d' hd => ⟨d', by rw [← h.bdDep]; exact hd, rfl⟩, h.links⟩

theorem reachBranchBlock_notified (h : w.reachBranchBlock cur = some w')
    (hn : Notified w) : Notified w' := by
  have hls := linksShrink_of_blockFrame (reachBranchBlock_blockFrame h)
  have hlist := (reachBranchBlock_blockFrame h).fullyCoveredBranches
  have hkeep : w'.newFullyCoveredBranch = w.newFullyCoveredBranch → Notified w' := fun hflag b hb => by
    rw [hlist] at hb ⊢
    rw [hflag]
    exact (hn b hb).imp_left hls.unlinked
  rcases reachBranchBlock_eq_some h with ⟨-, rfl⟩ | ⟨-, w₁, ⟨-, h₁⟩ | ⟨-, rfl⟩, rfl⟩
  · exact hn
  · obtain ⟨bid, w₂, sts, bsts, hl, h₂, -, rfl⟩ := targetCovered_eq_some h₁
    intro b hb
    rw [hlist] at hb
    rcases hn b hb with hu | ⟨-, hlast⟩
    · exact .inl (hls.unlinked hu)
    · rw [hl] at hlast
      cases hlast
      have hu := handleFullyCoveredBranch_unlinked h₂
      exact .inl hu
  · refine hkeep ?_
    show (w.targetMissed cur).newFullyCoveredBranch = _
    unfold targetMissed
    dsimp only
    split <;> rfl

theorem notified_of_keeps (hn : Notified w) (hls : LinksShrink w w')
    (hlist : w'.fullyCoveredBranches = w.fullyCoveredBranches)
    (hflag : w'.newFullyCoveredBranch = w.newFullyCoveredBranch) : Notified w' := by
  intro b hb
  rw [hlist] at hb ⊢
  rw [hflag]
  exact (hn b hb).imp_left hls.unlinked

theorem reachStoreBlock_newFully (h : w.reachStoreBlock cur = some w') :
    w'.newFullyCoveredBranch = w.newFullyCoveredBranch := by
  rcases reachStoreBlock_eq_some h with ⟨-, rfl⟩ | ⟨-, -, istart, kept, moved, w₁, -, hs, rfl⟩
  · rfl
  · have hf : Frame w w₁ := Loops.sweep_rel Frame Frame.refl Frame.trans (fun _ _ _ _ _ => visitInfo_frame) hs
    exact hf.newFullyCoveredBranch

theorem newPartlyBlock_newFully (h : w.newPartlyBlock cur = some w') :
    w'.newFullyCoveredBranch = w.newFullyCoveredBranch := by
  rcases newPartlyBlock_eq_some h with ⟨-, rfl⟩ | ⟨-, bid, w₁, -, h₁, rfl⟩
  · rfl
  · have hf := (handlePartlyCoveredBranch_frame h₁).newFullyCoveredBranch
    exact hf

theorem update_notified {current : Option StateId} {added removed : List StateId}
    (h : w.update current added removed = some w') (hn : Notified w) : Notified w' := by
  obtain ⟨w₁, w₂, h₁, h₂, h₃⟩ := update_cases h
  have hn₁ : Notified w₁ := by
    rcases h₁ with ⟨-, rfl⟩ | ⟨cur, -, -, hc⟩
    · exact hn
    · obtain ⟨u₁, u₂, u₃, k₁, k₂, k₃, k₄⟩ := updateCurrent_eq_some hc
      have f₁ := rotate_blockFrame k₁
      have n₁ : Notified u₁ := notified_of_keeps hn (linksShrink_of_blockFrame f₁) f₁.fullyCoveredBranches
        (by rw [rotate_rest k₁])
      have f₃ := reachStoreBlock_blockFrame k₃
      have n₃ := notified_of_keeps (reachBranchBlock_notified k₂ n₁) (linksShrink_of_blockFrame f₃)
        f₃.fullyCoveredBranches (reachStoreBlock_newFully k₃)
      have f₄ := newPartlyBlock_blockFrame k₄
      exact notified_of_keeps n₃ (linksShrink_of_blockFrame f₄) f₄.fullyCoveredBranches (newPartlyBlock_newFully k₄)
  have f₂ := refreshBlock_refreshFrame h₂
  have hn₂ : Notified w₂ := notified_of_keeps hn₁ (LinksShrink.of_eq (by rw [f₂.rest]) (by rw [f₂.rest]))
    (by rw [f₂.rest]) (by rw [f₂.rest])
  rw [h₃]
  exact notified_of_keeps hn₂ (LinksShrink.of_eq rfl rfl) rfl rfl

end World

theorem Notified.step {c c' : Config} {it : Iteration} (hn : Notified c.world) (hp : NotifyCondition c it)
    (h : c.step it = some c') : Notified c'.world := by
  obtain ⟨cur, w₁, w₂, w₃, h₁, h₂, h₃, rfl⟩ := Config.step_eq_some h
  have hr := World.checkMemory_rest (World.update_updateTargetBranch h₂) h₃
  have hn₂ := World.update_notified h₂ (Config.execute_notified hn hp h₁)
  have hn₃ : Notified w₃ := by
    rw [hr]
    exact World.notified_of_keeps hn₂ (LinksShrink.of_eq rfl rfl) rfl rfl
  exact World.notified_of_keeps hn₃ (LinksShrink.of_eq rfl rfl) rfl rfl

/-- In every run in which no branch becomes fully covered while the notification of another one is pending, no
notification is lost: when the flag is down, all fully covered branches are processed. -/
theorem processed_of_run {c : Config} (h : Run NotifyCondition c) :
    Processed c.world ∧
      ∀ it cur w, NotifyCondition c it → c.execute it = some (cur, w) → Processed w := by
  have hn := h.invariant (fun c => Notified c.world) (fun c h => by
    obtain ⟨w, hw, hr⟩ := h.rest
    intro b hb
    rw [hr] at hb
    rw [show World.fullyCoveredBranches _ = [] from hw.fullyCoveredBranches] at hb
    cases hb) fun _ _ _ hi _ hp hs => hi.step hp hs
  exact ⟨hn.processed, fun it cur w hp hex => (Config.execute_notified hn hp hex).processed⟩

/-- The second branch becomes a target and is then covered by the state that has it as its target. -/
theorem processed_of_run_target :
    ∃ c, Run NotifyCondition c ∧ c.world.fullyCoveredBranches = [2] ∧ Processed c.world := by
  have hrun : ∃ c₁ c₂, (twoBranchesStart [0]).step { action := .br 4 false true (some 7) (some 5) } = some c₁ ∧
      c₁.step { action := .br 4 true true (some 5) (some 5) } = some c₂ ∧
      c₁.world.newFullyCoveredBranch = false ∧ Allowed c₁ { action := .br 4 true true (some 5) (some 5) } ∧
      c₂.world.fullyCoveredBranches = [2] := ⟨_, _, rfl, rfl, rfl, by decide, by decide⟩
  obtain ⟨c₁, c₂, h₁, h₂, hf, ha, hl⟩ := hrun
  have s₁ : Step NotifyCondition (twoBranchesStart [0]) c₁ := ⟨_, by decide, fun _ => .inl rfl, h₁⟩
  have s₂ : Step NotifyCondition c₁ c₂ := ⟨_, ha, fun _ => .inl hf, h₂⟩
  have h : Run NotifyCondition c₂ := ⟨_, twoBranches_start, (Relation.ReflTransGen.single s₁).tail s₂⟩
  exact ⟨c₂, h, hl, (processed_of_run h).1⟩

/-- The first branch is covered by a state that does not have it as its target, and then the second one by a state
that does: only the second one is processed. -/
theorem not_processed_two : ∃ c, Run (fun _ _ => True) c ∧ ¬ Processed c.world := by
  have hrun : ∃ c, (twoBranchesStart [0]).runs [{ action := .br 4 false true (some 7) (some 5) },
      { action := .br 0 false true (some 7) (some 5) }, { action := .br 0 true true (some 5) (some 5) },
      { action := .br 4 true true (some 5) (some 5) }] = some c ∧ c.world.newFullyCoveredBranch = false ∧
      1 ∈ c.world.fullyCoveredBranches ∧ 1 ∈ c.world.storetTobranches 1 ∧
      ((c.world.bdDep 1).any fun d => 1 ∈ d.stores) = true :=
    ⟨_, rfl, by decide, by decide, by decide, by decide⟩
  obtain ⟨c, hc, hf, hm, hl, hd⟩ := hrun
  refine ⟨c, twoBranches_start.run hc, fun hp => ?_⟩
  obtain ⟨d, hd, hs⟩ := (Option.any_eq_true _ _).1 hd
  exact hp hf 1 hm d hd 1 (by simpa using hs) hl

end CgsKlee
