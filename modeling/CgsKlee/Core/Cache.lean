import CgsKlee.Core.Searcher

/-!
# The store-value cache

`CGSSearcher::isNewStoreValue` remembers its answers in `invalidStoreValues` and `validStoreValues`.  The cache is
sound if a recomputation (`BDDep.findNew`) would give the same answers.  One call keeps it sound, provided that the
value it may put into the cache without a test fails the test (`isNewStoreValue_cacheStep`).
-/

namespace CgsKlee

namespace BDDep

@[simp] theorem testedValue_testedValue (d : BDDep) (v : Signed) :
    d.testedValue (d.testedValue v) = d.testedValue v := by
  obtain ⟨t, stores, pred, op, a, p, x, k, l⟩ := d
  cases t <;> rcases op with _ | _ | _ <;> simp [testedValue, BitVec.and_assoc, BitVec.or_assoc]

@[simp] theorem findNew_testedValue (d : BDDep) (v : Signed) : d.findNew (d.testedValue v) = d.findNew v := by
  unfold findNew
  cases ht : d.type with
  | switch =>
    have : d.testedValue v = v := by simp [testedValue, ht]
    simp [this]
  | br => simp

end BDDep

/-- The two caches agree with the test behind them. -/
structure CacheSound (w : World) : Prop where
  invalid : ∀ bid d, w.bdDep bid = some d → ∀ v ∈ (w.invalidStoreValues bid).getD [], d.findNew v = false
  valid : ∀ bid d, w.bdDep bid = some d → ∀ v ∈ w.validStoreValues bid, d.findNew v = true

/-- The values that were cached as invalid without a test fail it. -/
def UncheckedFail (w : World) : Prop :=
  ∀ p ∈ w.unchecked, ∀ d, w.bdDep p.1 = some d → d.findNew p.2 = false

instance (w : World) : Decidable (UncheckedFail w) :=
  inferInstanceAs (Decidable (∀ p ∈ w.unchecked, ∀ d ∈ w.bdDep p.1, d.findNew p.2 = false))

/-- `w'` comes from `w` by calls of `isNewStoreValue` and by writes that have nothing to do with the cache. -/
structure CacheStep (w w' : World) : Prop where
  bdDep : w'.bdDep = w.bdDep
  unchecked : ∀ p ∈ w.unchecked, p ∈ w'.unchecked
  sound : UncheckedFail w' → CacheSound w → CacheSound w'

namespace CacheStep

theorem refl (w : World) : CacheStep w w := ⟨rfl, fun _ h => h, fun _ h => h⟩

theorem uncheckedFail {w w' : World} (h : CacheStep w w') (hu : UncheckedFail w') : UncheckedFail w :=
  fun p hp d hd => hu p (h.unchecked p hp) d (by rw [h.bdDep]; exact hd)

theorem trans {w₁ w₂ w₃ : World} (h₁ : CacheStep w₁ w₂) (h₂ : CacheStep w₂ w₃) : CacheStep w₁ w₃ :=
  ⟨h₂.bdDep.trans h₁.bdDep, fun p hp => h₂.unchecked p (h₁.unchecked p hp),
    fun hu hs => h₂.sound hu (h₁.sound (h₂.uncheckedFail hu) hs)⟩

theorem of_eq {w w' : World} (hd : w'.bdDep = w.bdDep) (hi : w'.invalidStoreValues = w.invalidStoreValues)
    (hv : w'.validStoreValues = w.validStoreValues) (hu : w'.unchecked = w.unchecked) : CacheStep w w' :=
  ⟨hd, by rw [hu]; exact fun _ h => h, fun _ hs =>
    ⟨by rw [hd, hi]; exact hs.invalid, by rw [hd, hv]; exact hs.valid⟩⟩

end CacheStep

namespace World

theorem cacheValue_sound {w : World} (hs : CacheSound w) {bid : BranchID} {isValid : Bool} {value : Signed}
    (hv : ∀ d, w.bdDep bid = some d → d.findNew value = isValid) : CacheSound (w.cacheValue bid isValid value) := by
  unfold cacheValue
  split
  · rename_i ht
    refine ⟨hs.invalid, fun b d hd v hmem => ?_⟩
    by_cases hb : b = bid
    · subst hb
      simp only [Function.update_self, List.mem_insert_iff] at hmem
      rcases hmem with rfl | hmem
      · exact (hv d hd).trans ht
      · exact hs.valid b d hd v hmem
    · simp only [Function.update_of_ne hb] at hmem
      exact hs.valid b d hd v hmem
  · rename_i ht
    refine ⟨fun b d hd v hmem => ?_, hs.valid⟩
    by_cases hb : b = bid
    · subst hb
      simp only [Function.update_self, Option.getD_some, List.mem_insert_iff] at hmem
      rcases hmem with rfl | hmem
      · exact (hv d hd).trans (Bool.eq_false_of_not_eq_true ht)
      · exact hs.invalid b d hd v hmem
    · simp only [Function.update_of_ne hb] at hmem
      exact hs.invalid b d hd v hmem

theorem cacheValue_unchecked (w : World) (bid : BranchID) (isValid : Bool) (value : Signed) :
    (w.cacheValue bid isValid value).unchecked = w.unchecked := by
  unfold cacheValue
  split <;> rfl

theorem cacheValue_bdDep (w : World) (bid : BranchID) (isValid : Bool) (value : Signed) :
    (w.cacheValue bid isValid value).bdDep = w.bdDep := by
  unfold cacheValue
  split <;> rfl

theorem isNewStoreValue_cases {w w' : World} {state : StateId} {bid : BranchID} {sid : StoreID} {r : Bool}
    (h : w.isNewStoreValue state bid sid = some (r, w')) :
    ∃ value w₁, w.readStoreValue state sid = (value, w₁) ∧
      ((w₁.invalidStoreValues bid = none ∧ r = true ∧
          w' = { w₁.cacheValue bid false value with unchecked := w₁.unchecked ++ [(bid, value)] }) ∨
        (∃ l, w₁.invalidStoreValues bid = some l ∧
          (value ∈ l ∧ r = false ∧ w' = w₁.cacheValue bid false value ∨
            value ∉ l ∧ value ∈ w₁.validStoreValues bid ∧ r = true ∧ w' = w₁.cacheValue bid true value ∨
            value ∉ l ∧ value ∉ w₁.validStoreValues bid ∧ ∃ d, w₁.bdDep bid = some d ∧ r = d.findNew value ∧
              w' = w₁.cacheValue bid (d.findNew value) (d.testedValue value)))) := by
  unfold isNewStoreValue at h
  generalize w.readStoreValue state sid = p at h
  obtain ⟨value, w₁⟩ := p
  refine ⟨value, w₁, rfl, ?_⟩
  dsimp only at h
  split at h
  · rename_i hn
    cases h
    exact .inl ⟨hn, rfl, rfl⟩
  · rename_i l hl
    refine .inr ⟨l, hl, ?_⟩
    split at h
    · cases h
      exact .inl ⟨‹_›, rfl, rfl⟩
    · rename_i hnl
      split at h
      · cases h
        exact .inr (.inl ⟨hnl, ‹_›, rfl, rfl⟩)
      · rename_i hnv
        split at h
        · cases h
        · rename_i d hd
          cases h
          exact .inr (.inr ⟨hnl, hnv, d, hd, rfl, rfl⟩)

theorem readStoreValue_cacheStep (w : World) (state : StateId) (sid : StoreID) :
    CacheStep w (w.readStoreValue state sid).2 := by
  unfold readStoreValue
  split
  · exact CacheStep.refl w
  · exact CacheStep.of_eq rfl rfl rfl rfl

theorem isNewStoreValue_cacheStep {w w' : World} {state : StateId} {bid : BranchID} {sid : StoreID} {r : Bool}
    (h : w.isNewStoreValue state bid sid = some (r, w')) : CacheStep w w' := by
  obtain ⟨value, w₁, hr, hc⟩ := isNewStoreValue_cases h
  have hread := readStoreValue_cacheStep w state sid
  rw [hr] at hread
  refine hread.trans ?_
  rcases hc with ⟨hn, -, rfl⟩ | ⟨l, hl, ⟨hmem, -, rfl⟩ | ⟨-, hmem, -, rfl⟩ | ⟨-, -, d, hd, -, rfl⟩⟩
  · -- the first value of the branch is not tested
    refine ⟨cacheValue_bdDep _ _ _ _, fun p hp => List.mem_append_left _ hp, fun hu hs => ?_⟩
    have hv : ∀ d, w₁.bdDep bid = some d → d.findNew value = false := fun d hd =>
      hu (bid, value) (by simp) d ((congrFun (cacheValue_bdDep w₁ bid false value) bid).trans hd)
    have hs' := cacheValue_sound hs hv
    exact ⟨hs'.invalid, hs'.valid⟩
  · refine ⟨cacheValue_bdDep _ _ _ _, by rw [cacheValue_unchecked]; exact fun _ h => h, fun _ hs => ?_⟩
    exact cacheValue_sound hs fun d hd => hs.invalid bid d hd value (by rw [hl]; exact hmem)
  · refine ⟨cacheValue_bdDep _ _ _ _, by rw [cacheValue_unchecked]; exact fun _ h => h, fun _ hs => ?_⟩
    exact cacheValue_sound hs fun d hd => hs.valid bid d hd value hmem
  · refine ⟨cacheValue_bdDep _ _ _ _, by rw [cacheValue_unchecked]; exact fun _ h => h, fun _ hs => ?_⟩
    refine cacheValue_sound hs fun d' hd' => ?_
    rw [hd] at hd'
    cases hd'
    exact d.findNew_testedValue value

theorem isNewStoreValue_answer {w w' : World} (hs : CacheSound w) {state : StateId} {bid : BranchID}
    {sid : StoreID} {r : Bool} (h : w.isNewStoreValue state bid sid = some (r, w')) {d : BDDep}
    (hd : w.bdDep bid = some d) (hc : (w.invalidStoreValues bid).isSome) :
    r = d.findNew (w.readStoreValue state sid).1 := by
  obtain ⟨value, w₁, hr, hcases⟩ := isNewStoreValue_cases h
  have hread : w₁.bdDep = w.bdDep ∧ w₁.invalidStoreValues = w.invalidStoreValues ∧
      w₁.validStoreValues = w.validStoreValues := by
    have hw₁ : w₁ = (w.readStoreValue state sid).2 := by rw [hr]
    rw [hw₁]
    unfold readStoreValue
    split <;> exact ⟨rfl, rfl, rfl⟩
  rw [hr]
  rw [hread.1, hread.2.1, hread.2.2] at hcases
  rcases hcases with ⟨hn, -, -⟩ | ⟨l, hl, ⟨hmem, rfl, -⟩ | ⟨-, hmem, rfl, -⟩ | ⟨-, -, d', hd', rfl, -⟩⟩
  · rw [hn] at hc
    cases hc
  · exact (hs.invalid bid d hd value (by rw [hl]; exact hmem)).symm
  · exact (hs.valid bid d hd value hmem).symm
  · rw [hd] at hd'
    cases hd'
    rfl

end World

end CgsKlee
