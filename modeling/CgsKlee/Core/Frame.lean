import CgsKlee.Core.Cache

/-!
# What the searcher leaves alone

`isNewStoreValue`, `handlePartlyCoveredBranch` and the loops of `update` write the state objects, the two caches and
the two vectors, and nothing else; they never set `reachStore` or `reachBranch`, and they write the caches through
`isNewStoreValue` only.  This is `Frame`.  The loops over a vector do not write the vectors themselves (`LoopFrame`),
so what they do to them is said by `Loops.sweep`.  `BlockFrame` and `UpdateFrame` are the same for the part of `update`
for the current state and for the whole of `update`.
-/

namespace CgsKlee

/-- `w'` comes from `w` by writing state objects, caches and the two vectors, without setting a flag of a state. -/
structure Frame (w w' : World) : Prop where
  rest : w' = { w with
    heap := w'.heap, invalidStoreValues := w'.invalidStoreValues, validStoreValues := w'.validStoreValues,
    unchecked := w'.unchecked, states := w'.states, branchStates := w'.branchStates }
  reachStore : ∀ s, (w'.heap s).reachStore = true → (w.heap s).reachStore = true
  reachBranch : ∀ s, (w'.heap s).reachBranch = true → (w.heap s).reachBranch = true
  caches : CacheStep w w'

structure LoopFrame (w w' : World) : Prop extends Frame w w' where
  states : w'.states = w.states
  branchStates : w'.branchStates = w.branchStates

/-- `w'` comes from `w` by what the part of `update` for the current state may write; stores only lose branches. -/
structure BlockFrame (w w' : World) : Prop where
  rest : w' = { w with
    heap := w'.heap, invalidStoreValues := w'.invalidStoreValues, validStoreValues := w'.validStoreValues,
    unchecked := w'.unchecked, states := w'.states, branchStates := w'.branchStates, bi2id := w'.bi2id,
    storetTobranches := w'.storetTobranches, funcStores := w'.funcStores,
    newFullyCoveredBranch := w'.newFullyCoveredBranch, newPartlyCoveredBranch := w'.newPartlyCoveredBranch,
    newBranchNumFromStore := w'.newBranchNumFromStore }
  reachStore : ∀ s, (w'.heap s).reachStore = true → (w.heap s).reachStore = true
  reachBranch : ∀ s, (w'.heap s).reachBranch = true → (w.heap s).reachBranch = true
  caches : CacheStep w w'
  links : ∀ sid b, b ∈ w'.storetTobranches sid → b ∈ w.storetTobranches sid

/-- `w'` comes from `w` by what the target refresh may write. -/
structure RefreshFrame (w w' : World) : Prop where
  rest : w' = { w with
    heap := w'.heap, invalidStoreValues := w'.invalidStoreValues, validStoreValues := w'.validStoreValues,
    unchecked := w'.unchecked, states := w'.states, branchStates := w'.branchStates,
    targetBranches := w'.targetBranches, partlyCoveredBranches := w'.partlyCoveredBranches,
    updateTargetBranch := w'.updateTargetBranch }
  reachStore : ∀ s, (w'.heap s).reachStore = true → (w.heap s).reachStore = true
  reachBranch : ∀ s, (w'.heap s).reachBranch = true → (w.heap s).reachBranch = true
  caches : CacheStep w w'

structure UpdateFrame (w w' : World) : Prop where
  rest : w' = { w with
    heap := w'.heap, invalidStoreValues := w'.invalidStoreValues, validStoreValues := w'.validStoreValues,
    unchecked := w'.unchecked, states := w'.states, branchStates := w'.branchStates, bi2id := w'.bi2id,
    storetTobranches := w'.storetTobranches, funcStores := w'.funcStores,
    newFullyCoveredBranch := w'.newFullyCoveredBranch, newPartlyCoveredBranch := w'.newPartlyCoveredBranch,
    newBranchNumFromStore := w'.newBranchNumFromStore, targetBranches := w'.targetBranches,
    partlyCoveredBranches := w'.partlyCoveredBranches, updateTargetBranch := w'.updateTargetBranch }
  reachStore : ∀ s, (w'.heap s).reachStore = true → (w.heap s).reachStore = true
  reachBranch : ∀ s, (w'.heap s).reachBranch = true → (w.heap s).reachBranch = true
  caches : CacheStep w w'
  links : ∀ sid b, b ∈ w'.storetTobranches sid → b ∈ w.storetTobranches sid

namespace Frame

theorem refl (w : World) : Frame w w := ⟨rfl, fun _ h => h, fun _ h => h, CacheStep.refl w⟩

theorem trans {w₁ w₂ w₃ : World} (h₁ : Frame w₁ w₂) (h₂ : Frame w₂ w₃) : Frame w₁ w₃ :=
  ⟨h₂.rest.trans (by rw [h₁.rest]), fun s h => h₁.reachStore s (h₂.reachStore s h),
    fun s h => h₁.reachBranch s (h₂.reachBranch s h), h₁.caches.trans h₂.caches⟩

theorem vectors (w : World) (states branchStates : List StateId) :
    Frame w { w with states := states, branchStates := branchStates } :=
  ⟨rfl, fun _ h => h, fun _ h => h, CacheStep.of_eq rfl rfl rfl rfl⟩

variable {w w' : World} (h : Frame w w')

include h

theorem kmodule : w'.kmodule = w.kmodule := by rw [h.rest]
theorem bdDep : w'.bdDep = w.bdDep := by rw [h.rest]
theorem id2bi : w'.id2bi = w.id2bi := by rw [h.rest]
theorem bi2id : w'.bi2id = w.bi2id := by rw [h.rest]
theorem storetTobranches : w'.storetTobranches = w.storetTobranches := by rw [h.rest]
theorem targetBranchNum : w'.targetBranchNum = w.targetBranchNum := by rw [h.rest]
theorem updateTargetBranch : w'.updateTargetBranch = w.updateTargetBranch := by rw [h.rest]
theorem newFullyCoveredBranch : w'.newFullyCoveredBranch = w.newFullyCoveredBranch := by rw [h.rest]
theorem newPartlyCoveredBranch : w'.newPartlyCoveredBranch = w.newPartlyCoveredBranch := by rw [h.rest]
theorem fullyCoveredBranches : w'.fullyCoveredBranches = w.fullyCoveredBranches := by rw [h.rest]
theorem partlyCoveredBranches : w'.partlyCoveredBranches = w.partlyCoveredBranches := by rw [h.rest]
theorem targetBranches : w'.targetBranches = w.targetBranches := by rw [h.rest]
theorem newBranchNumFromStore : w'.newBranchNumFromStore = w.newBranchNumFromStore := by rw [h.rest]
theorem fullBranches : w'.fullBranches = w.fullBranches := by rw [h.rest]

end Frame

namespace BlockFrame

theorem refl (w : World) : BlockFrame w w :=
  ⟨rfl, fun _ h => h, fun _ h => h, CacheStep.refl w, fun _ _ h => h⟩

theorem trans {w₁ w₂ w₃ : World} (h₁ : BlockFrame w₁ w₂) (h₂ : BlockFrame w₂ w₃) : BlockFrame w₁ w₃ :=
  ⟨h₂.rest.trans (by rw [h₁.rest]), fun s h => h₁.reachStore s (h₂.reachStore s h),
    fun s h => h₁.reachBranch s (h₂.reachBranch s h), h₁.caches.trans h₂.caches,
    fun sid b h => h₁.links sid b (h₂.links sid b h)⟩

theorem writes (w : World) (states branchStates : List StateId) (bi2id : InstID → Option BranchID)
    (newFully newPartly : Bool) (count : Nat) :
    BlockFrame w { w with
      states := states, branchStates := branchStates, bi2id := bi2id, newFullyCoveredBranch := newFully
      newPartlyCoveredBranch := newPartly, newBranchNumFromStore := count } :=
  ⟨rfl, fun _ h => h, fun _ h => h, CacheStep.of_eq rfl rfl rfl rfl, fun _ _ h => h⟩

variable {w w' : World} (h : BlockFrame w w')

include h

theorem kmodule : w'.kmodule = w.kmodule := by rw [h.rest]
theorem bdDep : w'.bdDep = w.bdDep := by rw [h.rest]
theorem id2bi : w'.id2bi = w.id2bi := by rw [h.rest]
theorem targetBranchNum : w'.targetBranchNum = w.targetBranchNum := by rw [h.rest]
theorem updateTargetBranch : w'.updateTargetBranch = w.updateTargetBranch := by rw [h.rest]
theorem fullyCoveredBranches : w'.fullyCoveredBranches = w.fullyCoveredBranches := by rw [h.rest]
theorem partlyCoveredBranches : w'.partlyCoveredBranches = w.partlyCoveredBranches := by rw [h.rest]
theorem targetBranches : w'.targetBranches = w.targetBranches := by rw [h.rest]
theorem fullBranches : w'.fullBranches = w.fullBranches := by rw [h.rest]

end BlockFrame

theorem Frame.toBlockFrame {w w' : World} (h : Frame w w') : BlockFrame w w' :=
  ⟨by rw [h.rest], h.reachStore, h.reachBranch, h.caches, by rw [h.rest]; exact fun _ _ h => h⟩

namespace RefreshFrame

theorem refl (w : World) : RefreshFrame w w := ⟨rfl, fun _ h => h, fun _ h => h, CacheStep.refl w⟩

theorem trans {w₁ w₂ w₃ : World} (h₁ : RefreshFrame w₁ w₂) (h₂ : RefreshFrame w₂ w₃) : RefreshFrame w₁ w₃ :=
  ⟨h₂.rest.trans (by rw [h₁.rest]), fun s h => h₁.reachStore s (h₂.reachStore s h),
    fun s h => h₁.reachBranch s (h₂.reachBranch s h), h₁.caches.trans h₂.caches⟩

theorem writes (w : World) (targets partly : List BranchID) (refresh : Bool) :
    RefreshFrame w { w with
      targetBranches := targets, partlyCoveredBranches := partly, updateTargetBranch := refresh } :=
  ⟨rfl, fun _ h => h, fun _ h => h, CacheStep.of_eq rfl rfl rfl rfl⟩

end RefreshFrame

theorem Frame.toRefreshFrame {w w' : World} (h : Frame w w') : RefreshFrame w w' :=
  ⟨by rw [h.rest], h.reachStore, h.reachBranch, h.caches⟩

theorem RefreshFrame.toUpdateFrame {w w' : World} (h : RefreshFrame w w') : UpdateFrame w w' :=
  ⟨by rw [h.rest], h.reachStore, h.reachBranch, h.caches, by rw [h.rest]; exact fun _ _ h => h⟩

theorem BlockFrame.toUpdateFrame {w w' : World} (h : BlockFrame w w') : UpdateFrame w w' :=
  ⟨by rw [h.rest], h.reachStore, h.reachBranch, h.caches, h.links⟩

theorem UpdateFrame.trans {w₁ w₂ w₃ : World} (h₁ : UpdateFrame w₁ w₂) (h₂ : UpdateFrame w₂ w₃) : UpdateFrame w₁ w₃ :=
  ⟨h₂.rest.trans (by rw [h₁.rest]), fun s h => h₁.reachStore s (h₂.reachStore s h),
    fun s h => h₁.reachBranch s (h₂.reachBranch s h), h₁.caches.trans h₂.caches,
    fun sid b h => h₁.links sid b (h₂.links sid b h)⟩

namespace LoopFrame

theorem refl (w : World) : LoopFrame w w := ⟨Frame.refl w, rfl, rfl⟩

theorem trans {w₁ w₂ w₃ : World} (h₁ : LoopFrame w₁ w₂) (h₂ : LoopFrame w₂ w₃) : LoopFrame w₁ w₃ :=
  ⟨h₁.toFrame.trans h₂.toFrame, h₂.states.trans h₁.states, h₂.branchStates.trans h₁.branchStates⟩

end LoopFrame

namespace World

theorem setState_frame (w : World) (s : StateId) (e : ExecState)
    (hs : e.reachStore = true → (w.heap s).reachStore = true)
    (hb : e.reachBranch = true → (w.heap s).reachBranch = true) : LoopFrame w (w.setState s e) := by
  refine ⟨⟨rfl, fun t ht => ?_, fun t ht => ?_, CacheStep.of_eq rfl rfl rfl rfl⟩, rfl, rfl⟩
  · by_cases hts : t = s
    · subst hts; exact hs (by simpa using ht)
    · rwa [setState_heap_of_ne w e hts] at ht
  · by_cases hts : t = s
    · subst hts; exact hb (by simpa using ht)
    · rwa [setState_heap_of_ne w e hts] at ht

theorem cacheValue_rest (w : World) (bid : BranchID) (isValid : Bool) (value : Signed) :
    w.cacheValue bid isValid value = { w with
      invalidStoreValues := (w.cacheValue bid isValid value).invalidStoreValues
      validStoreValues := (w.cacheValue bid isValid value).validStoreValues } := by
  unfold cacheValue
  split <;> rfl

theorem readStoreValue_frame (w : World) (state : StateId) (sid : StoreID) :
    LoopFrame w (w.readStoreValue state sid).2 := by
  unfold readStoreValue
  split
  · exact LoopFrame.refl w
  · exact setState_frame w state _ id id

variable {bid : BranchID} {sid : StoreID} {state cur : StateId} {w w' : World} {current : Option StateId}
    {added removed : List StateId}

theorem isNewStoreValue_frame {r : Bool}
    (h : w.isNewStoreValue state bid sid = some (r, w')) : LoopFrame w w' := by
  have hc := isNewStoreValue_cacheStep h
  obtain ⟨value, w₁, hr, hcases⟩ := isNewStoreValue_cases h
  have hread : LoopFrame w w₁ := by
    have hf := readStoreValue_frame w state sid
    rw [hr] at hf
    exact hf
  have hrest : w' = { w₁ with
      invalidStoreValues := w'.invalidStoreValues, validStoreValues := w'.validStoreValues
      unchecked := w'.unchecked } := by
    rcases hcases with ⟨-, -, rfl⟩ | ⟨l, -, ⟨-, -, rfl⟩ | ⟨-, -, -, rfl⟩ | ⟨-, -, d, -, -, rfl⟩⟩ <;>
      rw [cacheValue_rest]
  refine ⟨⟨by rw [hrest, hread.rest], ?_, ?_, hc⟩, ?_, ?_⟩
  · rw [hrest]; exact hread.reachStore
  · rw [hrest]; exact hread.reachBranch
  · rw [hrest]; exact hread.states
  · rw [hrest]; exact hread.branchStates

theorem moveToBranchStates_frame (w : World) (s : StateId) : Frame w (w.moveToBranchStates s) := by
  unfold moveToBranchStates
  split
  · exact Frame.vectors w _ _
  · exact Frame.refl w

theorem addTargetInfo_frame
    (h : addTargetInfo current bid w sid = some w') : LoopFrame w w' := by
  unfold addTargetInfo at h
  cases current with
  | none => cases h
  | some cur =>
    simp only [Option.map_eq_some_iff] at h
    obtain ⟨w₁, h₁, rfl⟩ := h
    have hw₁ : LoopFrame w w₁ := by
      split at h₁
      · simp only [Option.map_eq_some_iff] at h₁
        obtain ⟨⟨r, w₂⟩, h₂, rfl⟩ := h₁
        exact isNewStoreValue_frame h₂
      · cases h₁; exact LoopFrame.refl w
    exact hw₁.trans (setState_frame w₁ cur _ id id)

theorem visitState_frame {out : Bool} (h : visitState current bid sid w state = some (out, w')) : LoopFrame w w' := by
  unfold visitState at h
  split at h
  · cases h; exact LoopFrame.refl w
  · split at h
    · split at h
      · cases h
      · cases h; exact isNewStoreValue_frame ‹_›
      · cases h
        exact (isNewStoreValue_frame ‹_›).trans (setState_frame _ _ _ (fun h => by cases h) (fun h => by cases h))
    · cases h; exact LoopFrame.refl w

theorem visitInfo_frame {current : StateId} {b : BranchInfo} {out : Bool}
    (h : visitInfo current w b = some (out, w')) : Frame w w' := by
  unfold visitInfo at h
  split at h
  · cases h
  · cases h; exact (isNewStoreValue_frame ‹_›).toFrame.trans (moveToBranchStates_frame _ _)
  · cases h; exact (isNewStoreValue_frame ‹_›).toFrame

theorem visitCovered_frame {current : StateId} {removeSv : List StoreID} {out : Bool} (h : visitCovered current bid removeSv w state = some (out, w')) :
    LoopFrame w w' := by
  cases h
  exact setState_frame w state _ id id

theorem visitRefresh_frame {out : Bool}
    (h : visitRefresh w state = some (out, w')) : LoopFrame w w' := by
  cases h
  exact setState_frame w state _ id id

theorem sweep_loopFrame {α : Type} {visit : World → α → Option (Bool × World)}
    (hv : ∀ a out w₁ w₂, visit w₁ a = some (out, w₂) → LoopFrame w₁ w₂) {l kept moved : List α}
    (h : Loops.sweep visit l w = some (kept, moved, w')) : LoopFrame w w' :=
  Loops.sweep_rel LoopFrame LoopFrame.refl LoopFrame.trans (fun a _ => hv a) h

theorem visitStates_frame
    (h : visitStates current bid w sid = some w') : Frame w w' := by
  unfold visitStates at h
  split at h
  · cases h
  · rename_i kept moved w₁ hs
    cases h
    have hf := sweep_loopFrame (fun _ _ _ _ => visitState_frame) hs
    exact hf.toFrame.trans (Frame.vectors w₁ _ _)

theorem handlePartlyCoveredBranch_cases
    (h : w.handlePartlyCoveredBranch current bid = some w') :
    ∃ d w₁ w₂, w.bdDep bid = some d ∧ d.stores.foldlM (addTargetInfo current bid) w = some w₁ ∧
      (w₂ = w₁ ∨ ∃ cur, w₂ = w₁.moveToBranchStates cur) ∧
      d.stores.foldlM (visitStates current bid) w₂ = some w' := by
  unfold handlePartlyCoveredBranch at h
  split at h
  · cases h
  · rename_i d hd
    split at h
    · cases h
    · rename_i w₁ h₁
      refine ⟨d, w₁, _, hd, h₁, ?_, h⟩
      split
      · exact .inr ⟨_, rfl⟩
      · exact .inl rfl

theorem handlePartlyCoveredBranch_frame
    (h : w.handlePartlyCoveredBranch current bid = some w') : Frame w w' := by
  obtain ⟨d, w₁, w₂, -, h₁, h₂, h₃⟩ := handlePartlyCoveredBranch_cases h
  have f₁ : Frame w w₁ :=
    Loops.foldlM_rel Frame Frame.refl Frame.trans (fun _ _ _ _ h => (addTargetInfo_frame h).toFrame) h₁
  have f₂ : Frame w₁ w₂ := by
    rcases h₂ with rfl | ⟨cur, rfl⟩
    · exact Frame.refl _
    · exact moveToBranchStates_frame _ _
  have f₃ : Frame w₂ w' := Loops.foldlM_rel Frame Frame.refl Frame.trans (fun _ _ _ _ => visitStates_frame) h₃
  exact (f₁.trans f₂).trans f₃

theorem updateCurrent_eq_some
    (h : w.updateCurrent cur added = some w') :
    ∃ w₁ w₂ w₃, w.rotate cur added = some w₁ ∧ w₁.reachBranchBlock cur = some w₂ ∧
      w₂.reachStoreBlock cur = some w₃ ∧ w₃.newPartlyBlock cur = some w' := by
  simp only [updateCurrent, Option.bind_eq_some_iff] at h
  obtain ⟨w₁, h₁, w₂, h₂, w₃, h₃, h₄⟩ := h
  exact ⟨w₁, w₂, w₃, h₁, h₂, h₃, h₄⟩

theorem update_eq_some
    (h : w.update current added removed = some w') :
    ∃ w₁ w₂, ((∀ cur, current = some cur → cur ∈ removed) ∧ w₁ = w ∨
        ∃ cur, current = some cur ∧ cur ∉ removed ∧ w.updateCurrent cur added = some w₁) ∧
      w₁.refreshBlock current = some w₂ ∧
      w' = removed.foldl removeState (added.foldl (insertState current) w₂) := by
  simp only [update, Option.bind_eq_some_iff, Option.map_eq_some_iff] at h
  obtain ⟨w₁, h₁, w₂, h₂, rfl⟩ := h
  refine ⟨w₁, w₂, ?_, h₂, rfl⟩
  cases current with
  | none =>
    cases h₁
    exact .inl ⟨fun _ hc => by simp at hc, rfl⟩
  | some cur =>
    dsimp only at h₁
    split at h₁
    · rename_i hc
      cases h₁
      exact .inl ⟨fun c hcc => by cases hcc; exact hc, rfl⟩
    · exact .inr ⟨cur, rfl, ‹_›, h₁⟩

theorem refreshBlock_eq_some (h : w.refreshBlock current = some w') :
    w.updateTargetBranch = false ∧ w' = w ∨
    w.updateTargetBranch = true ∧ ∃ kept moved w₁ w₂,
      Loops.sweep visitRefresh w.branchStates w = some (kept, moved, w₁) ∧
      promoteBranches current w₁.targetBranchNum
        { w₁ with branchStates := kept, states := w₁.states ++ moved, targetBranches := [] } = some w₂ ∧
      w' = { w₂ with updateTargetBranch := false } := by
  unfold refreshBlock at h
  split at h
  · split at h
    · cases h
    · rename_i kept moved w₁ hs
      simp only [Option.map_eq_some_iff] at h
      obtain ⟨w₂, h₂, rfl⟩ := h
      exact .inr ⟨‹_›, kept, moved, w₁, w₂, hs, h₂, rfl⟩
  · rename_i hu
    cases h
    exact .inl ⟨by simpa using hu, rfl⟩

theorem targetCovered_eq_some (h : w.targetCovered cur = some w') :
    ∃ bid w₁ states branchStates, w.fullyCoveredBranches.getLast? = some bid ∧
      w.handleFullyCoveredBranch cur bid = some w₁ ∧
      (states = w₁.states ∧ branchStates = w₁.branchStates ∨
        cur ∈ w₁.branchStates ∧ states = cur :: w₁.states ∧ branchStates = w₁.branchStates.erase cur) ∧
      w' = { w₁ with states := states, branchStates := branchStates, newFullyCoveredBranch := false } := by
  unfold targetCovered at h
  split at h
  · cases h
  · rename_i bid hl
    split at h
    · cases h
    · rename_i w₁ hw₁
      dsimp only at h
      split at h
      · rename_i hc
        exact ⟨bid, w₁, _, _, hl, hw₁, .inr ⟨hc.2, rfl, rfl⟩, (Option.some.inj h).symm⟩
      · exact ⟨bid, w₁, _, _, hl, hw₁, .inl ⟨rfl, rfl⟩, (Option.some.inj h).symm⟩

theorem reachBranchBlock_eq_some (h : w.reachBranchBlock cur = some w') :
    (w.heap cur).reachBranch = false ∧ w' = w ∨
    (w.heap cur).reachBranch = true ∧ ∃ w₁,
      (w.newFullyCoveredBranch = true ∧ w.targetCovered cur = some w₁ ∨
        w.newFullyCoveredBranch = false ∧ w₁ = w.targetMissed cur) ∧
      w' = w₁.setState cur { w₁.heap cur with reachBranch := false } := by
  unfold reachBranchBlock at h
  split at h
  · rename_i hr
    simp only [Option.map_eq_some_iff] at h
    obtain ⟨w₁, h₁, rfl⟩ := h
    refine .inr ⟨hr, w₁, ?_, rfl⟩
    split at h₁
    · exact .inl ⟨‹_›, h₁⟩
    · exact .inr ⟨Bool.eq_false_of_not_eq_true ‹_›, (Option.some.inj h₁).symm⟩
  · exact .inl ⟨Bool.eq_false_of_not_eq_true ‹_›, (Option.some.inj h).symm⟩

theorem reachStoreBlock_eq_some (h : w.reachStoreBlock cur = some w') :
    (w.heap cur).reachStore = false ∧ w' = w ∨
    (w.heap cur).reachStore = true ∧ w.newBranchNumFromStore ≤ (w.heap cur).branchInfos.length ∧
      ∃ istart kept moved w₁, istart = (w.heap cur).branchInfos.length - w.newBranchNumFromStore ∧
        Loops.sweep (visitInfo cur) ((w.heap cur).branchInfos.drop istart) w = some (kept, moved, w₁) ∧
        w' = { w₁.setState cur { w₁.heap cur with
            branchInfos := (w.heap cur).branchInfos.take istart ++ kept, reachStore := false } with
          newBranchNumFromStore := 0 } := by
  unfold reachStoreBlock at h
  split at h
  · rename_i hr
    dsimp only at h
    split at h
    · cases h
    · rename_i hn
      split at h
      · cases h
      · rename_i kept moved w₁ hs
        exact .inr ⟨hr, by omega, _, kept, moved, w₁, rfl, hs, (Option.some.inj h).symm⟩
  · exact .inl ⟨Bool.eq_false_of_not_eq_true ‹_›, (Option.some.inj h).symm⟩

theorem newPartlyBlock_eq_some (h : w.newPartlyBlock cur = some w') :
    (w.targetBranches = [] ∨ w.newPartlyCoveredBranch = false) ∧ w' = w ∨
    w.newPartlyCoveredBranch = true ∧ ∃ bid w₁, w.targetBranches.getLast? = some bid ∧
      w.handlePartlyCoveredBranch (some cur) bid = some w₁ ∧ w' = { w₁ with newPartlyCoveredBranch := false } := by
  unfold newPartlyBlock at h
  split at h
  · rename_i bid hl
    split at h
    · simp only [Option.map_eq_some_iff] at h
      obtain ⟨w₁, h₁, rfl⟩ := h
      exact .inr ⟨‹_›, bid, w₁, hl, h₁, rfl⟩
    · exact .inl ⟨.inr (Bool.eq_false_of_not_eq_true ‹_›), (Option.some.inj h).symm⟩
  · rename_i hl
    exact .inl ⟨.inl (List.getLast?_eq_none_iff.1 hl), (Option.some.inj h).symm⟩

theorem promoteBranches_succ_eq_some {n : Nat}
    (h : promoteBranches current (n + 1) w = some w') :
    w.partlyCoveredBranches = [] ∧ w' = w ∨
    ∃ bid w₁, w.partlyCoveredBranches.getLast? = some bid ∧
      World.handlePartlyCoveredBranch { w with
        partlyCoveredBranches := w.partlyCoveredBranches.dropLast
        targetBranches := w.targetBranches ++ [bid] } current bid = some w₁ ∧
      promoteBranches current n w₁ = some w' := by
  unfold promoteBranches at h
  split at h
  · rename_i hl
    exact .inl ⟨List.getLast?_eq_none_iff.1 hl, (Option.some.inj h).symm⟩
  · rename_i bid hl
    dsimp only at h
    split at h
    · cases h
    · exact .inr ⟨bid, _, hl, ‹_›, h⟩

theorem handleFullyCoveredBranch_eq_some
    (h : w.handleFullyCoveredBranch cur bid = some w') :
    ∃ I d kept moved w₂, w.id2bi bid = some I ∧ w.bdDep bid = some d ∧
      Loops.sweep (visitCovered cur bid (d.stores.foldl (unlinkStore (w.kmodule.functionOf I) bid) (w, [])).2)
        (d.stores.foldl (unlinkStore (w.kmodule.functionOf I) bid) (w, [])).1.branchStates
        (d.stores.foldl (unlinkStore (w.kmodule.functionOf I) bid) (w, [])).1 = some (kept, moved, w₂) ∧
      w' = { w₂ with branchStates := kept, states := w₂.states ++ moved } := by
  unfold handleFullyCoveredBranch at h
  split at h
  · rename_i I d hI hd
    dsimp only at h
    split at h
    · cases h
    · rename_i kept moved w₂ hs
      cases h
      exact ⟨I, d, kept, moved, w₂, hI, hd, hs, rfl⟩
  · cases h

theorem unlinkStores_rest (func : FuncID) (bid : BranchID) (stores : List StoreID) (acc : World × List StoreID) :
    (stores.foldl (unlinkStore func bid) acc).1 =
      { acc.1 with
        storetTobranches := (stores.foldl (unlinkStore func bid) acc).1.storetTobranches
        funcStores := (stores.foldl (unlinkStore func bid) acc).1.funcStores } := by
  induction stores generalizing acc with
  | nil => rfl
  | cons sid stores ih =>
    rw [List.foldl_cons, ih]
    obtain ⟨w, removeSv⟩ := acc
    unfold unlinkStore
    dsimp only
    split <;> rfl

theorem unlinkStores_links (func : FuncID) (bid : BranchID) (stores : List StoreID) (acc : World × List StoreID)
    (sid : StoreID) (b : BranchID)
    (h : b ∈ (stores.foldl (unlinkStore func bid) acc).1.storetTobranches sid) :
    b ∈ acc.1.storetTobranches sid ∧ (sid ∈ stores → b ≠ bid) := by
  induction stores generalizing acc with
  | nil => exact ⟨h, by simp⟩
  | cons sid' stores ih =>
    rw [List.foldl_cons] at h
    obtain ⟨h₁, h₂⟩ := ih _ h
    have hs : (unlinkStore func bid acc sid').1.storetTobranches = Function.update acc.1.storetTobranches sid'
        ((acc.1.storetTobranches sid').filter fun b => b ≠ bid) := by
      obtain ⟨w, removeSv⟩ := acc
      unfold unlinkStore
      dsimp only
      split <;> rfl
    rw [hs] at h₁
    by_cases hsid : sid = sid'
    · subst hsid
      rw [Function.update_self, List.mem_filter] at h₁
      exact ⟨h₁.1, fun _ => by simpa using h₁.2⟩
    · rw [Function.update_of_ne hsid] at h₁
      exact ⟨h₁, fun hmem => h₂ ((List.mem_cons.1 hmem).resolve_left hsid)⟩

theorem handleFullyCoveredBranch_blockFrame
    (h : w.handleFullyCoveredBranch cur bid = some w') : BlockFrame w w' := by
  obtain ⟨I, d, kept, moved, w₂, -, -, hs, rfl⟩ := handleFullyCoveredBranch_eq_some h
  have hr := unlinkStores_rest (w.kmodule.functionOf I) bid d.stores (w, [])
  have hl := unlinkStores_links (w.kmodule.functionOf I) bid d.stores (w, [])
  generalize d.stores.foldl (unlinkStore (w.kmodule.functionOf I) bid) (w, []) = acc at hs hr hl
  have hf := (sweep_loopFrame (fun _ _ _ _ => visitCovered_frame) hs).toFrame
  have hw : BlockFrame w acc.1 := ⟨by rw [hr], by rw [hr]; exact fun _ h => h, by rw [hr]; exact fun _ h => h,
    by rw [hr]; exact CacheStep.of_eq rfl rfl rfl rfl, fun sid b h => (hl sid b h).1⟩
  exact (hw.trans hf.toBlockFrame).trans (Frame.vectors w₂ _ _).toBlockFrame

theorem setState_blockFrame (w : World) (s : StateId) (e : ExecState)
    (hs : e.reachStore = true → (w.heap s).reachStore = true)
    (hb : e.reachBranch = true → (w.heap s).reachBranch = true) : BlockFrame w (w.setState s e) :=
  (setState_frame w s e hs hb).toFrame.toBlockFrame

theorem dropTarget_blockFrame (w : World) (cur : StateId) : BlockFrame w (w.dropTarget cur) := by
  unfold dropTarget
  dsimp only
  refine BlockFrame.trans (setState_blockFrame w cur _ ?_ ?_) (BlockFrame.writes _ _ _ _ _ _ _)
  · exact id
  · exact id

theorem reachBranchBlock_blockFrame (h : w.reachBranchBlock cur = some w') :
    BlockFrame w w' := by
  rcases reachBranchBlock_eq_some h with ⟨-, rfl⟩ | ⟨-, w₁, hw₁, rfl⟩
  · exact BlockFrame.refl _
  · have hf : BlockFrame w w₁ := by
      rcases hw₁ with ⟨-, h₁⟩ | ⟨-, rfl⟩
      · obtain ⟨bid, w₂, sts, bsts, -, h₂, -, rfl⟩ := targetCovered_eq_some h₁
        exact (handleFullyCoveredBranch_blockFrame h₂).trans (BlockFrame.writes _ _ _ _ _ _ _)
      · refine (dropTarget_blockFrame w cur).trans ?_
        unfold targetMissed
        dsimp only
        split
        · exact (BlockFrame.writes _ _ _ _ _ _ _)
        · exact BlockFrame.refl _
    refine hf.trans (setState_blockFrame w₁ cur _ ?_ ?_)
    · exact id
    · exact fun h => by cases h

theorem reachStoreBlock_blockFrame (h : w.reachStoreBlock cur = some w') :
    BlockFrame w w' := by
  rcases reachStoreBlock_eq_some h with ⟨-, rfl⟩ | ⟨-, -, istart, kept, moved, w₁, -, hs, rfl⟩
  · exact BlockFrame.refl _
  · have hf : Frame w w₁ :=
      Loops.sweep_rel Frame Frame.refl Frame.trans (fun _ _ _ _ _ => visitInfo_frame) hs
    refine (hf.toBlockFrame.trans (setState_blockFrame w₁ cur _ ?_ ?_)).trans (BlockFrame.writes _ _ _ _ _ _ _)
    · exact fun h => by cases h
    · exact id

theorem newPartlyBlock_blockFrame (h : w.newPartlyBlock cur = some w') :
    BlockFrame w w' := by
  rcases newPartlyBlock_eq_some h with ⟨-, rfl⟩ | ⟨-, bid, w₁, -, h₁, rfl⟩
  · exact BlockFrame.refl _
  · exact (handlePartlyCoveredBranch_frame h₁).toBlockFrame.trans (BlockFrame.writes _ _ _ _ _ _ _)

theorem rotate_rest (h : w.rotate cur added = some w') :
    w' = { w with states := w'.states, branchStates := w'.branchStates } := by
  unfold rotate at h
  split at h
  · cases h; rfl
  · split at h
    all_goals
      split at h
      · cases h; rfl
      · cases h

theorem rotate_blockFrame
    (h : w.rotate cur added = some w') : BlockFrame w w' := by
  have hr := rotate_rest h
  exact ⟨by rw [hr], by rw [hr]; exact fun _ h => h, by rw [hr]; exact fun _ h => h,
    by rw [hr]; exact CacheStep.of_eq rfl rfl rfl rfl, by rw [hr]; exact fun _ _ h => h⟩

theorem updateCurrent_blockFrame
    (h : w.updateCurrent cur added = some w') : BlockFrame w w' := by
  obtain ⟨w₁, w₂, w₃, h₁, h₂, h₃, h₄⟩ := updateCurrent_eq_some h
  exact ((rotate_blockFrame h₁).trans (reachBranchBlock_blockFrame h₂)).trans
    ((reachStoreBlock_blockFrame h₃).trans (newPartlyBlock_blockFrame h₄))

theorem promoteBranches_refreshFrame {n : Nat}
    (h : promoteBranches current n w = some w') : RefreshFrame w w' := by
  induction n generalizing w with
  | zero => cases h; exact RefreshFrame.refl _
  | succ n ih =>
    rcases promoteBranches_succ_eq_some h with ⟨-, rfl⟩ | ⟨bid, w₁, -, h₁, h₂⟩
    · exact RefreshFrame.refl _
    · have hf := (handlePartlyCoveredBranch_frame h₁).toRefreshFrame
      exact ((RefreshFrame.writes w _ _ _).trans hf).trans (ih h₂)

theorem refreshBlock_refreshFrame (h : w.refreshBlock current = some w') :
    RefreshFrame w w' := by
  rcases refreshBlock_eq_some h with ⟨-, rfl⟩ | ⟨-, kept, moved, w₁, w₂, hs, hp, rfl⟩
  · exact RefreshFrame.refl _
  · have f₁ := (sweep_loopFrame (fun _ _ _ _ => visitRefresh_frame) hs).toFrame.trans
      (Frame.vectors w₁ (w₁.states ++ moved) kept)
    have f₂ := promoteBranches_refreshFrame hp
    exact ((f₁.toRefreshFrame.trans (RefreshFrame.writes _ [] _ _)).trans f₂).trans (RefreshFrame.writes w₂ _ _ _)

theorem insertRemove_rest (current : Option StateId) (added removed : List StateId) (w : World) :
    removed.foldl removeState (added.foldl (insertState current) w) =
      { w with
        states := (removed.foldl removeState (added.foldl (insertState current) w)).states
        branchStates := (removed.foldl removeState (added.foldl (insertState current) w)).branchStates } := by
  have hrem : ∀ w : World, removed.foldl removeState w = { w with
      states := (removed.foldl removeState w).states
      branchStates := (removed.foldl removeState w).branchStates } := by
    induction removed with
    | nil => exact fun w => rfl
    | cons s removed ih =>
      intro w
      rw [List.foldl_cons, ih]
      unfold removeState
      split <;> rfl
  have hins : ∀ w : World, added.foldl (insertState current) w = { w with
      states := (added.foldl (insertState current) w).states
      branchStates := (added.foldl (insertState current) w).branchStates } := by
    induction added with
    | nil => exact fun w => rfl
    | cons s added ih =>
      intro w
      rw [List.foldl_cons, ih]
      unfold insertState
      split
      · rfl
      · split <;> rfl
  rw [hrem, hins]

theorem update_cases
    (h : w.update current added removed = some w') :
    ∃ w₁ w₂, ((∀ cur, current = some cur → cur ∈ removed) ∧ w₁ = w ∨
        ∃ cur, current = some cur ∧ cur ∉ removed ∧ w.updateCurrent cur added = some w₁) ∧
      w₁.refreshBlock current = some w₂ ∧
      w' = { w₂ with states := w'.states, branchStates := w'.branchStates } := by
  obtain ⟨w₁, w₂, h₁, h₂, rfl⟩ := update_eq_some h
  exact ⟨w₁, w₂, h₁, h₂, insertRemove_rest current added removed w₂⟩

theorem refreshBlock_updateTargetBranch
    (h : w.refreshBlock current = some w') : w'.updateTargetBranch = false := by
  rcases refreshBlock_eq_some h with ⟨hu, rfl⟩ | ⟨-, kept, moved, w₁, w₂, hs, hp, rfl⟩
  · exact hu
  · rfl

theorem update_updateTargetBranch
    (h : w.update current added removed = some w') : w'.updateTargetBranch = false := by
  obtain ⟨w₁, w₂, -, h₂, h₃⟩ := update_cases h
  have hu := refreshBlock_updateTargetBranch h₂
  rw [h₃]
  exact hu

theorem update_none_rest (hu : w.updateTargetBranch = false)
    (h : w.update none added removed = some w') :
    w' = { w with states := w'.states, branchStates := w'.branchStates } := by
  obtain ⟨w₁, w₂, h₁, h₂, h₃⟩ := update_cases h
  have hw₁ : w₁ = w := by
    rcases h₁ with ⟨-, hw₁⟩ | ⟨cur, hc, -⟩
    · exact hw₁
    · cases hc
  have hw₂ : w₂ = w := by
    rcases refreshBlock_eq_some h₂ with ⟨-, hw₂⟩ | ⟨hu', -⟩
    · rw [hw₂, hw₁]
    · rw [hw₁, hu] at hu'
      cases hu'
  rw [hw₂] at h₃
  exact h₃

theorem update_frame
    (h : w.update current added removed = some w') : UpdateFrame w w' := by
  obtain ⟨w₁, w₂, h₁, h₂, h₃⟩ := update_cases h
  have f₁ : UpdateFrame w w₁ := by
    rcases h₁ with ⟨-, rfl⟩ | ⟨cur, -, -, hc⟩
    · exact (BlockFrame.refl _).toUpdateFrame
    · exact (updateCurrent_blockFrame hc).toUpdateFrame
  have f₂ := (refreshBlock_refreshFrame h₂).toUpdateFrame
  rw [h₃]
  exact (f₁.trans f₂).trans (Frame.vectors w₂ _ _).toBlockFrame.toUpdateFrame

end World

end CgsKlee
