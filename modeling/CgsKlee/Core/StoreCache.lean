import CgsKlee.Core.Run

/-!
# The store-value cache in a run

The cache is sound in every state of a run whose iterations satisfy `CacheCondition`; it excludes the three ways in
which the code loses soundness: the first value of a branch is cached without a test, a `switch` covers a value that
is cached as new, and a `br` is recorded again with another uncovered side.
-/

namespace CgsKlee

structure CacheCondition (c : Config) (it : Iteration) : Prop where
  /-- A value that becomes the first one in the cache of a branch does not satisfy its uncovered condition. -/
  first : ∀ c', c.step it = some c' → UncheckedFail c'.world
  /-- A `switch` is not executed on a value that is cached as new. -/
  switch : ∀ i value, it.action = .switch i value → ∀ bid, c.world.bi2id i = some bid →
    signedOf value ∉ c.world.validStoreValues bid
  /-- A `br` that is recorded gives the cached values the answers they had. -/
  record : ∀ i taken tracked c1 c2, it.action = .br i taken tracked (some c1) (some c2) →
    (c.world.branchStats i taken (!taken) tracked).fullBranches i = 0 →
    ∀ bid d d', c.world.bi2id i = some bid → bid ∉ c.world.invalidBranches → bid ∉ c.world.targetBranches →
      bid ∉ c.world.partlyCoveredBranches → c.world.bdDep bid = some d →
      c.world.kmodule.recordEntry i d c1 c2 = some d' →
      ∀ v, v ∈ (c.world.invalidStoreValues bid).getD [] ∨ v ∈ c.world.validStoreValues bid →
        d'.findNew v = d.findNew v

/-- The two lookups of `isNewStoreValue` and the one of the `Store` handler give the answer of a recomputation. -/
structure LookupsAgree (w : World) : Prop where
  searcher : ∀ state bid sid d, w.bdDep bid = some d → (w.invalidStoreValues bid).isSome →
    ∃ w', w.isNewStoreValue state bid sid = some (d.findNew (w.readStoreValue state sid).1, w')
  store : ∀ bid d value, w.bdDep bid = some d → value ∈ (w.invalidStoreValues bid).getD [] → d.findNew value = false

theorem CacheSound.lookups {w : World} (h : CacheSound w) : LookupsAgree w := by
  refine ⟨fun state bid sid d hd hc => ?_, fun bid d value hd hv => h.invalid bid d hd value hv⟩
  have hsome : (w.bdDep bid).isSome := by rw [hd]; rfl
  obtain ⟨r, w', hw'⟩ := World.isNewStoreValue_isSome hsome state sid
  rw [World.isNewStoreValue_answer h hw' hd hc] at hw'
  exact ⟨w', hw'⟩

namespace CacheSound

theorem congr {w w' : World} (h : CacheSound w) (hd : w'.bdDep = w.bdDep)
    (hi : ∀ bid, (w'.invalidStoreValues bid).getD [] = (w.invalidStoreValues bid).getD [])
    (hv : w'.validStoreValues = w.validStoreValues) : CacheSound w' :=
  ⟨fun bid d hb v hm => h.invalid bid d (by rw [← hd]; exact hb) v (by rw [← hi]; exact hm),
    by rw [hd, hv]; exact h.valid⟩

theorem setEntry {w w' : World} (h : CacheSound w) {bid : BranchID} {d d' : BDDep} (hd : w.bdDep bid = some d)
    (hw : w'.bdDep = Function.update w.bdDep bid (some d')) (hi : w'.invalidStoreValues = w.invalidStoreValues)
    (hv : w'.validStoreValues = w.validStoreValues)
    (hinv : ∀ v ∈ (w.invalidStoreValues bid).getD [], d.findNew v = false → d'.findNew v = false)
    (hval : ∀ v ∈ w.validStoreValues bid, d.findNew v = true → d'.findNew v = true) : CacheSound w' := by
  refine ⟨fun b e he v hm => ?_, fun b e he v hm => ?_⟩
  · rw [hi] at hm
    rw [hw] at he
    by_cases hb : b = bid
    · subst hb
      rw [Function.update_self] at he
      cases he
      exact hinv v hm (h.invalid b d hd v hm)
    · rw [Function.update_of_ne hb] at he
      exact h.invalid b e he v hm
  · rw [hv] at hm
    rw [hw] at he
    by_cases hb : b = bid
    · subst hb
      rw [Function.update_self] at he
      cases he
      exact hval v hm (h.valid b d hd v hm)
    · rw [Function.update_of_ne hb] at he
      exact h.valid b e he v hm

theorem noted {cur : StateId} {inst : InstID} {w w' : World} (h : CacheSound w) (hn : Noted cur inst w w') :
    CacheSound w' :=
  h.congr (by rw [hn.rest]) (fun bid => by rw [hn.rest]) (by rw [hn.rest])

theorem coverBranch {w : World} (h : CacheSound w) (bid : BranchID) : CacheSound (w.coverBranch bid) := by
  unfold World.coverBranch
  split
  · exact h
  · dsimp only
    split
    · split <;> exact h.congr rfl (fun _ => rfl) rfl
    · exact h.congr rfl (fun _ => rfl) rfl

theorem addTarget {w : World} (h : CacheSound w) (bid : BranchID) : CacheSound (w.addTarget bid) := by
  unfold World.addTarget
  split <;> exact h.congr rfl (fun _ => rfl) rfl

end CacheSound

theorem BDDep.findNew_coverCase (d : BDDep) (value v : Signed) :
    (d.findNew v = false → (d.coverCase value).findNew v = false) ∧
      (v ≠ value → (d.coverCase value).findNew v = d.findNew v) := by
  cases ht : d.type with
  | switch =>
    have h1 : d.findNew v = decide (v ∈ d.unCoveredValues) := by simp only [BDDep.findNew, ht]
    have h2 : (d.coverCase value).findNew v = decide (v ∈ d.unCoveredValues ∧ v ≠ value) := by
      simp [BDDep.findNew, BDDep.coverCase, ht, List.mem_filter]
    rw [h1, h2]
    refine ⟨fun h => ?_, fun h => ?_⟩
    · simp only [decide_eq_false_iff_not] at h ⊢
      exact fun hv => h hv.1
    · simp [h]
  | br =>
    have h1 : (d.coverCase value).findNew v = d.findNew v := by
      simp [BDDep.findNew, BDDep.coverCase, BDDep.testedValue, ht]
    rw [h1]
    exact ⟨id, fun _ => rfl⟩

namespace World

theorem executeSwitch_cacheSound {w w' : World} {cur : StateId} {inst : InstID} {value : BitVec 64}
    (hs : CacheSound w) (hv : ∀ bid, w.bi2id inst = some bid → signedOf value ∉ w.validStoreValues bid)
    (h : w.executeSwitch cur inst value = some w') : CacheSound w' := by
  rcases executeSwitch_cases h with ⟨-, rfl⟩ | ⟨bid, d, d', w₁, hbid, hd, hd', hn, hcases⟩
  · exact hs
  · have hs₁ : CacheSound { w with bdDep := Function.update w.bdDep bid (some d') } := by
      refine hs.setEntry hd rfl rfl rfl (fun v _ hf => ?_) (fun v hmem hf => ?_)
      · rw [hd']
        exact (d.findNew_coverCase (signedOf value) v).1 hf
      · rw [hd', (d.findNew_coverCase (signedOf value) v).2 (fun he => hv bid hbid (he ▸ hmem))]
        exact hf
    have hs₂ := hs₁.noted hn
    rcases hcases with rfl | ⟨-, rfl⟩ | ⟨-, -, -, -, rfl⟩
    · exact hs₂
    · exact hs₂.coverBranch bid
    · exact hs₂.addTarget bid

end World

theorem CacheSound.begin {w : World} (h : CacheSound w) (cur : StateId) (it : Iteration) :
    CacheSound (w.begin cur it) :=
  h.congr rfl (fun _ => rfl) rfl

theorem Config.execute_cacheSound {c : Config} {it : Iteration} {cur : StateId} {w : World}
    (hs : CacheSound c.world) (hc : CacheCondition c it) (h : c.execute it = some (cur, w)) : CacheSound w := by
  obtain ⟨-, h⟩ := Config.execute_eq_some h
  have hb := hs.begin cur it
  cases ha : it.action with
  | br inst taken tracked v1 v2 =>
    rw [ha] at h
    obtain ⟨w₁, hn, hfull, hcases⟩ := World.executeBr_cases h
    have hs₁ := hb.noted hn
    rcases hcases with rfl | ⟨bid, hbid, ⟨-, rfl⟩ | ⟨hf, hi, ht, hp, d, d', c1, c2, hd, -, rfl, rfl, hr, rfl⟩⟩
    · exact hs₁
    · exact hs₁.coverBranch bid
    · rw [hfull, World.begin_branchStats] at hf
      have hsame := hc.record inst taken tracked c1 c2 ha hf bid d d' hbid hi ht hp hd hr
      have hs₂ : CacheSound { w₁ with bdDep := Function.update w₁.bdDep bid (some d') } := by
        refine hs₁.setEntry (d := d) (by rw [hn.rest]; exact hd) rfl rfl rfl (fun v hv hf => ?_) (fun v hv hf => ?_)
        · rw [hn.rest] at hv
          rw [hsame v (.inl hv)]
          exact hf
        · rw [hn.rest] at hv
          rw [hsame v (.inr hv)]
          exact hf
      exact hs₂.addTarget bid
  | symbolicBr inst t f tracked =>
    rw [ha] at h
    cases h
    exact (hb.noted (World.branchStats_noted cur _ inst t f tracked)).congr rfl (fun _ => rfl) rfl
  | switch inst value =>
    rw [ha] at h
    exact World.executeSwitch_cacheSound hb (hc.switch inst value ha) h
  | store inst isPointer value iter =>
    rw [ha] at h
    rcases World.executeStore_cases h with rfl | ⟨v, -, -, -, hst⟩
    · exact hb
    · have hr : CacheSound ((c.world.begin cur it).rememberStore cur ((c.world.begin cur it).si2id inst)
          (signedOf v) iter) := hb.congr rfl (fun _ => rfl) rfl
      exact hr.congr (by rw [hst.rest]) hst.values (by rw [hst.rest])
  | other inst =>
    rw [ha] at h
    cases h
    exact hb

theorem CacheSound.step {c c' : Config} {it : Iteration} (hs : CacheSound c.world) (hc : CacheCondition c it)
    (h : c.step it = some c') : CacheSound c'.world := by
  have hu := hc.first c' h
  obtain ⟨cur, w₁, w₂, w₃, h₁, h₂, h₃, rfl⟩ := Config.step_eq_some h
  have hr := World.checkMemory_rest (World.update_updateTargetBranch h₂) h₃
  have hu₂ : UncheckedFail w₂ := by
    have hu₃ : UncheckedFail w₃ := hu
    rw [hr] at hu₃
    exact hu₃
  have hs₂ := (World.update_frame h₂).caches.sound hu₂ (Config.execute_cacheSound hs hc h₁)
  have hs₃ : CacheSound w₃ := by
    rw [hr]
    exact hs₂.congr rfl (fun _ => rfl) rfl
  exact hs₃.congr rfl (fun _ => rfl) rfl

theorem Start.cacheSound {c : Config} (h : Start c) : CacheSound c.world := by
  obtain ⟨w, hw, hr⟩ := h.rest
  rw [hr]
  refine ⟨fun bid d _ v hv => ?_, fun bid d _ v hv => ?_⟩
  · rw [show World.invalidStoreValues _ bid = none from hw.invalidStoreValues bid] at hv
    cases hv
  · rw [show World.validStoreValues _ bid = [] from hw.validStoreValues bid] at hv
    cases hv

/-- In every run whose iterations satisfy `CacheCondition`, the cache is sound when an iteration starts and after its
handler, and no lookup changes the answer of a recomputation. -/
theorem cacheSound_of_run {c : Config} (h : Run CacheCondition c) :
    (CacheSound c.world ∧ LookupsAgree c.world) ∧
      ∀ it cur w, Allowed c it → CacheCondition c it → c.execute it = some (cur, w) →
        CacheSound w ∧ LookupsAgree w := by
  have hs := h.invariant (fun c => CacheSound c.world) (fun _ h => h.cacheSound)
    fun _ _ _ hi _ hc hs => hi.step hc hs
  refine ⟨⟨hs, hs.lookups⟩, fun it cur w _ hc hex => ?_⟩
  have hw := Config.execute_cacheSound hs hc hex
  exact ⟨hw, hw.lookups⟩

/-- The store writes `7`, and the branch sees `7`: the first value of the branch is the one that covered it. -/
theorem cacheSound_of_run_seven :
    ∃ c, Run CacheCondition c ∧ c.world.invalidStoreValues 1 = some [7] ∧ CacheSound c.world := by
  have hrun : ∃ c₁ c₂, (twoBranchesStart [0]).step { action := .store 3 false (some 7) [] } = some c₁ ∧
      c₁.step { action := .br 0 false true (some 7) (some 5) } = some c₂ ∧
      (∀ bid, c₁.world.invalidStoreValues bid = none) ∧ (∀ bid, c₁.world.validStoreValues bid = []) ∧
      UncheckedFail c₁.world ∧ UncheckedFail c₂.world ∧ Allowed c₁ { action := .br 0 false true (some 7) (some 5) } ∧
      c₂.world.invalidStoreValues 1 = some [7] :=
    ⟨_, _, rfl, rfl, fun _ => rfl, fun _ => rfl, by decide, by decide, by decide,
      by decide⟩
  obtain ⟨c₁, c₂, h₁, h₂, hi, hv, hu₁, hu₂, ha₂, h7⟩ := hrun
  have s₁ : Step CacheCondition (twoBranchesStart [0]) c₁ := by
    refine ⟨_, by decide, ⟨fun c' h => ?_, fun _ _ h => ?_, fun _ _ _ _ _ h => ?_⟩, h₁⟩
    · rw [h₁] at h
      cases h
      exact hu₁
    · cases h
    · cases h
  have s₂ : Step CacheCondition c₁ c₂ := by
    refine ⟨_, ha₂, ⟨fun c' h => ?_, fun _ _ h => ?_, fun _ _ _ _ _ _ _ bid _ _ _ _ _ _ _ _ v hmem => ?_⟩, h₂⟩
    · rw [h₂] at h
      cases h
      exact hu₂
    · cases h
    · rw [hi, hv] at hmem
      simp at hmem
  have h : Run CacheCondition c₂ := ⟨_, twoBranches_start, (Relation.ReflTransGen.single s₁).tail s₂⟩
  exact ⟨c₂, h, h7, (cacheSound_of_run h).1.1⟩

/-- The store writes `5`, and the branch sees `7` (the store was to another object): `5` is cached as invalid, but it
covers the branch. -/
theorem not_cacheSound_five : ∃ c, Run (fun _ _ => True) c ∧ ¬ CacheSound c.world := by
  have h : ∃ c, (twoBranchesStart [0]).runs [{ action := .store 3 false (some 5) [] },
      { action := .br 0 false true (some 7) (some 5) }] = some c ∧
      (c.world.bdDep 1).any (fun d => d.findNew 5) ∧ 5 ∈ (c.world.invalidStoreValues 1).getD [] :=
    ⟨_, rfl, by decide, by decide⟩
  obtain ⟨c, hc, hd, hv⟩ := h
  refine ⟨c, twoBranches_start.run hc, fun hs => ?_⟩
  obtain ⟨d, hd, hn⟩ := (Option.any_eq_true _ _).1 hd
  rw [hs.invalid 1 d hd 5 hv] at hn
  cases hn

end CgsKlee
