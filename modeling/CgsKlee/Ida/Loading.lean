import CgsKlee.Core.Run
import CgsKlee.Ida.RoundTrip

/-!
# The loaded metadata

What the guided search assumes of the executor at its start (`Loaded`) holds after `Executor::setModule` has read the
metadata of the analysis: every branch id is carried by one instruction and has an entry.
-/

namespace CgsKlee.Ida

/-- `w'` comes from `w` by what the loading of the metadata writes. -/
private structure LoadFrame (w w' : World) : Prop where
  rest : w' = { w with
    bdDep := w'.bdDep, id2bi := w'.id2bi, bi2id := w'.bi2id, id2si := w'.id2si, si2id := w'.si2id
    storetTobranches := w'.storetTobranches, storesWithSameVar := w'.storesWithSameVar, funcStores := w'.funcStores }

private theorem LoadFrame.refl (w : World) : LoadFrame w w := ⟨rfl⟩

private theorem LoadFrame.trans {w₁ w₂ w₃ : World} (h₁ : LoadFrame w₁ w₂) (h₂ : LoadFrame w₂ w₃) : LoadFrame w₁ w₃ :=
  ⟨h₂.rest.trans (by rw [h₁.rest])⟩

/-- The loop over the variables keeps the maps of the branches. -/
private structure VariableFrame (a a' : World × BDDep) : Prop extends LoadFrame a.1 a'.1 where
  bdDep : a'.1.bdDep = a.1.bdDep
  id2bi : a'.1.id2bi = a.1.id2bi
  bi2id : a'.1.bi2id = a.1.bi2id

private theorem VariableFrame.refl (a : World × BDDep) : VariableFrame a a := ⟨.refl _, rfl, rfl, rfl⟩

private theorem VariableFrame.trans {a₁ a₂ a₃ : World × BDDep} (h₁ : VariableFrame a₁ a₂)
    (h₂ : VariableFrame a₂ a₃) : VariableFrame a₁ a₃ :=
  ⟨h₁.toLoadFrame.trans h₂.toLoadFrame, h₂.bdDep.trans h₁.bdDep, h₂.id2bi.trans h₁.id2bi, h₂.bi2id.trans h₁.bi2id⟩

variable {md : Metadata} {F : FuncID} {I : InstID} {bid : BranchID}

private theorem loadVariableStore_frame {vid i : Nat} {a a' : World × BDDep}
    (h : loadVariableStore md F I bid vid a i = some a') : VariableFrame a a' := by
  obtain ⟨sid, -, rfl⟩ := Option.map_eq_some_iff.1 h
  dsimp only
  split
  · exact .refl a
  · exact ⟨⟨rfl⟩, rfl, rfl, rfl⟩

private theorem loadVariable_frame {vid : Nat} {a a' : World × BDDep} (h : loadVariable md F I bid a vid = some a') :
    VariableFrame a a' := by
  unfold loadVariable at h
  split at h
  · exact Option.some.inj h ▸ .refl a
  · obtain ⟨b, hb, rfl⟩ := Option.map_eq_some_iff.1 h
    have hloop : VariableFrame a b :=
      Loops.foldlM_rel VariableFrame .refl (fun h₁ h₂ => h₁.trans h₂) (fun _ _ _ _ => loadVariableStore_frame) hb
    refine hloop.trans ?_
    dsimp only
    split
    · exact ⟨⟨rfl⟩, rfl, rfl, rfl⟩
    · exact .refl b

private theorem loadDependency_maps {bdDep : BDDep} {w w' : World} (h : loadDependency md F I bid bdDep w = some w') :
    LoadFrame w w' ∧ w'.id2bi = Function.update w.id2bi bid (some I) ∧
      w'.bi2id = Function.update w.bi2id I (some bid) ∧
      ∃ d, w'.bdDep = Function.update w.bdDep bid (some d) := by
  unfold loadDependency at h
  simp only [Option.bind_eq_bind, Option.bind_eq_some_iff] at h
  obtain ⟨v_num, -, ⟨w₁, d⟩, hloop, heq⟩ := h
  have hf : VariableFrame _ (w₁, d) :=
    Loops.foldlM_rel VariableFrame .refl (fun h₁ h₂ => h₁.trans h₂) (fun _ _ _ _ => loadVariable_frame) hloop
  obtain rfl := Option.some.inj heq
  have hrest := hf.rest
  have hb := hf.bdDep
  have hid := hf.id2bi
  have hbi := hf.bi2id
  dsimp only at hrest hb hid hbi
  refine ⟨⟨?_⟩, hid, hbi, d, ?_⟩
  · rw [hrest]
  · rw [hb]

/-- Every branch id that an instruction carries leads back to it and has an entry. -/
private def BranchMaps (w : World) : Prop := ∀ i b, w.bi2id i = some b → w.id2bi b = some i ∧ (w.bdDep b).isSome

private def FromMetadata (md : Metadata) (w : World) : Prop := ∀ i b, w.bi2id i = some b → md.getMetadata i .bid = some b

private theorem loadBranch_maps (hinj : ∀ I J b, md.getMetadata I .bid = some b → md.getMetadata J .bid = some b → I = J)
    {w w' : World} {inst : InstID × InstKind} (h : loadBranch md F w inst = some w') (hw : BranchMaps w)
    (hm : FromMetadata md w) : LoadFrame w w' ∧ BranchMaps w' ∧ FromMetadata md w' := by
  unfold loadBranch at h
  split at h
  · rename_i bdDep bid hentry hbid
    obtain ⟨hf, hid, hbi, d, hd⟩ := loadDependency_maps h
    have hcarried : ∀ i b, w'.bi2id i = some b → (i = inst.1 ∧ b = bid) ∨ (i ≠ inst.1 ∧ b ≠ bid ∧ w.bi2id i = some b) := by
      intro i b hib
      rw [hbi] at hib
      by_cases hi : i = inst.1
      · subst hi
        rw [Function.update_self] at hib
        exact .inl ⟨rfl, (Option.some.inj hib).symm⟩
      · rw [Function.update_of_ne hi] at hib
        refine .inr ⟨hi, ?_, hib⟩
        rintro rfl
        exact hi (hinj i inst.1 b (hm i b hib) hbid)
    refine ⟨hf, ?_, ?_⟩
    · intro i b hib
      rw [hid, hd]
      rcases hcarried i b hib with ⟨rfl, rfl⟩ | ⟨-, hb, hib⟩
      · simp
      · rw [Function.update_of_ne hb, Function.update_of_ne hb]
        exact hw i b hib
    · intro i b hib
      rcases hcarried i b hib with ⟨rfl, rfl⟩ | ⟨-, -, hib⟩
      · exact hbid
      · exact hm i b hib
  · obtain rfl := Option.some.inj h
    exact ⟨.refl w, hw, hm⟩

private theorem loadStores_frame (md : Metadata) (insts : List (InstID × InstKind)) (w : World) :
    LoadFrame w (insts.foldl (loadStore md) w) ∧ (insts.foldl (loadStore md) w).bi2id = w.bi2id := by
  induction insts generalizing w with
  | nil => exact ⟨.refl w, rfl⟩
  | cons inst insts ih =>
    obtain ⟨hf, hb⟩ := ih (loadStore md w inst)
    have hstep : LoadFrame w (loadStore md w inst) ∧ (loadStore md w inst).bi2id = w.bi2id := by
      unfold loadStore
      split
      · exact ⟨⟨rfl⟩, rfl⟩
      · exact ⟨.refl w, rfl⟩
    exact ⟨hstep.1.trans hf, hb.trans hstep.2⟩

private theorem loadBranches_maps
    (hinj : ∀ I J b, md.getMetadata I .bid = some b → md.getMetadata J .bid = some b → I = J)
    (insts : List (FuncID × InstID × InstKind)) {w w' : World}
    (h : insts.foldlM (fun w e => loadBranch md e.1 w e.2) w = some w') (hw : BranchMaps w) (hm : FromMetadata md w) :
    LoadFrame w w' ∧ BranchMaps w' := by
  induction insts generalizing w with
  | nil =>
    obtain rfl := Option.some.inj h
    exact ⟨.refl w, hw⟩
  | cons e insts ih =>
    simp only [List.foldlM_cons, Option.bind_eq_bind, Option.bind_eq_some_iff] at h
    obtain ⟨w₁, h₁, h₂⟩ := h
    obtain ⟨hf₁, hw₁, hm₁⟩ := loadBranch_maps hinj h₁ hw hm
    obtain ⟨hf₂, hw₂⟩ := ih h₂ hw₁ hm₁
    exact ⟨hf₁.trans hf₂, hw₂⟩

theorem setModule_loaded {prog : List (FuncID × List (InstID × InstKind))}
    (hinj : ∀ I J b, md.getMetadata I .bid = some b → md.getMetadata J .bid = some b → I = J) {w w' : World}
    (hw : Loaded w) (hblank : ∀ i, w.bi2id i = none) (h : setModule prog md w = some w') : Loaded w' := by
  obtain ⟨hf₁, hb₁⟩ := loadStores_frame md (prog.flatMap (·.2)) w
  have hnone : ∀ i b, ((prog.flatMap (·.2)).foldl (loadStore md) w).bi2id i ≠ some b := by
    intro i b hib
    rw [hb₁, hblank] at hib
    cases hib
  have hload : (prog.flatMap fun g => g.2.map (g.1, ·)).foldlM (fun w e => loadBranch md e.1 w e.2)
      ((prog.flatMap (·.2)).foldl (loadStore md) w) = some w' := by
    rw [← Loops.foldlM_groups fun w (e : FuncID × InstID × InstKind) => loadBranch md e.1 w e.2]
    exact h
  obtain ⟨hf₂, hmaps⟩ := loadBranches_maps hinj _ hload (fun i b hib => (hnone i b hib).elim)
    fun i b hib => (hnone i b hib).elim
  have hrest := (hf₁.trans hf₂).rest
  exact
    { branch := hmaps
      reachStore := by rw [hrest]; exact hw.reachStore
      reachBranch := by rw [hrest]; exact hw.reachBranch
      targetBranches := by rw [hrest]; exact hw.targetBranches
      partlyCoveredBranches := by rw [hrest]; exact hw.partlyCoveredBranches
      fullyCoveredBranches := by rw [hrest]; exact hw.fullyCoveredBranches
      updateTargetBranch := by rw [hrest]; exact hw.updateTargetBranch
      newFullyCoveredBranch := by rw [hrest]; exact hw.newFullyCoveredBranch
      newPartlyCoveredBranch := by rw [hrest]; exact hw.newPartlyCoveredBranch
      newBranchNumFromStore := by rw [hrest]; exact hw.newBranchNumFromStore
      invalidStoreValues := by rw [hrest]; exact hw.invalidStoreValues
      validStoreValues := by rw [hrest]; exact hw.validStoreValues
      states := by rw [hrest]; exact hw.states
      branchStates := by rw [hrest]; exact hw.branchStates }

theorem loaded_of_runOnModule {an : Analysis} {built bvDeps : List BD2VDDep} {SDs : List StoreDep} {w : World}
    (hb : runOnModule an = some built) (hr : Reordered built bvDeps) (hs : SDs.Perm an.stores) (hw : Loaded w)
    (hblank : Blank w) (hnone : ∀ i, w.bi2id i = none) :
    ∃ md w', setInstMetaData SDs bvDeps = some md ∧ setModule an.prog md w = some w' ∧ Loaded w' := by
  obtain ⟨md, w', hset, hload, hinj⟩ := setModule_of_runOnModule hb hr hs hblank
  exact ⟨md, w', hset, hload, setModule_loaded hinj hw hnone hload⟩

end CgsKlee.Ida
