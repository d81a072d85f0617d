import CgsKlee.Ida.Matching

/-!
# Reading the metadata back

The labels of a variable are made of its id, and the executor looks for ids below the number of variables with
stores.  So it reads, for each such id, the last variable with stores that was written under it (`lastVariable`):
a variable whose id is not below that number is not looked for, and of two variables with the same id the first is
overwritten.  The stores of a branch survive exactly if each of them belongs to a variable that is read
(`Legible`).
-/

namespace CgsKlee.Ida

open Metadata

def variableNum (vs : List VD2SDDep) : Nat := (vs.filter fun v => v.storeDeps ≠ []).length

def lastVariable : List VD2SDDep → Nat → Option VD2SDDep
  | [], _ => none
  | v :: vs, vid =>
    match lastVariable vs vid with
    | some u => some u
    | none => if v.id = vid ∧ v.storeDeps ≠ [] then some v else none

/-- Every store of a variable belongs to a variable that is the last one with its id, an id below the number of
variables with stores. -/
def Legible (vs : List VD2SDDep) : Prop :=
  ∀ v ∈ vs, ∀ SD ∈ v.storeDeps, ∃ u, lastVariable vs u.id = some u ∧ u.id < variableNum vs ∧ SD ∈ u.storeDeps

variable {vs : List VD2SDDep} {an : Analysis} {bvDeps : List BD2VDDep}

theorem lastVariable_mem {vid : Nat} {u : VD2SDDep} (h : lastVariable vs vid = some u) :
    u ∈ vs ∧ u.id = vid := by
  induction vs with
  | nil => cases h
  | cons v vs ih =>
    unfold lastVariable at h
    split at h
    · cases h
      rename_i hu
      exact ⟨List.mem_cons_of_mem _ (ih hu).1, (ih hu).2⟩
    · split at h
      · rename_i hv
        cases h
        exact ⟨List.mem_cons_self, hv.1⟩
      · cases h

variable {store_id : InstID → Nat} {BI : InstID}

private def Outside (BI J : InstID) (l : Label) : Prop := J ≠ BI ∨ l = .bid ∨ l = .sid ∨ l = .vNum

private theorem setStores_other (SDSet : List StoreDep) (k vid : Nat) (md : Metadata) {J : InstID} {l : Label}
    (h : ∀ i, k ≤ i → ¬(J = BI ∧ l = .vStore vid i)) :
    ((SDSet.zipIdx k).foldl (fun md (e : StoreDep × Nat) =>
      md.setMetadata BI (.vStore vid e.2) (store_id e.1.inst)) md).getMetadata J l = md.getMetadata J l := by
  induction SDSet generalizing k md with
  | nil => rfl
  | cons SD SDSet ih =>
    rw [List.zipIdx_cons, List.foldl_cons, ih (k + 1) _ fun i hi => h i (by omega), getMetadata_setMetadata,
      if_neg (h k (Nat.le_refl k))]

private theorem setStores_store (SDSet : List StoreDep) (k vid : Nat) (md : Metadata) {i : Nat}
    {SD : StoreDep} (h : SDSet[i]? = some SD) :
    ((SDSet.zipIdx k).foldl (fun md (e : StoreDep × Nat) =>
      md.setMetadata BI (.vStore vid e.2) (store_id e.1.inst)) md).getMetadata BI (.vStore vid (k + i)) =
      some (store_id SD.inst) := by
  induction SDSet generalizing k md i with
  | nil => cases h
  | cons a SDSet ih =>
    rw [List.zipIdx_cons, List.foldl_cons]
    cases i with
    | zero =>
      cases h
      -- the stores that follow have larger indices
      rw [setStores_other _ _ _ _ fun i hi hl => by simp only [Label.vStore.injEq] at hl; omega]
      simp
    | succ i =>
      rw [show k + (i + 1) = k + 1 + i by omega]
      exact ih (k + 1) _ h

private structure Written (store_id : InstID → Nat) (BI : InstID) (md : Metadata) (v : VD2SDDep) : Prop where
  num : md.getMetadata BI (.vStoreNum v.id) = some v.storeDeps.length
  store : ∀ i SD, v.storeDeps[i]? = some SD → md.getMetadata BI (.vStore v.id i) = some (store_id SD.inst)

private def SameVariable (BI : InstID) (md md' : Metadata) (vid : Nat) : Prop :=
  md'.getMetadata BI (.vStoreNum vid) = md.getMetadata BI (.vStoreNum vid) ∧
    ∀ i, md'.getMetadata BI (.vStore vid i) = md.getMetadata BI (.vStore vid i)

private theorem SameVariable.written {md md' : Metadata} {v : VD2SDDep} (h : SameVariable BI md md' v.id)
    (hw : Written store_id BI md v) : Written store_id BI md' v :=
  ⟨h.1.trans hw.num, fun i SD hi => (h.2 i).trans (hw.store i SD hi)⟩

private theorem setVariable_spec {n n' : Nat} {md md' : Metadata} {v : VD2SDDep}
    (h : setVariable store_id BI (n, md) v = some (n', md')) :
    (v.storeDeps = [] ∧ n' = n - 1 ∧ md' = md) ∨
    (v.storeDeps ≠ [] ∧ n' = n ∧ Written store_id BI md' v ∧ (∀ J l, Outside BI J l →
      md'.getMetadata J l = md.getMetadata J l) ∧ ∀ vid ≠ v.id,
      SameVariable BI md md' vid) := by
  unfold setVariable at h
  split at h
  · rename_i hv
    simp only [Option.some.injEq, Prod.mk.injEq] at h
    exact .inl ⟨hv, h.1.symm, h.2.symm⟩
  · rename_i hv
    simp only [Option.map_eq_some_iff, Prod.mk.injEq] at h
    obtain ⟨type, -, rfl, rfl⟩ := h
    refine .inr ⟨hv, rfl, ⟨?_, ?_⟩, ?_, ?_⟩
    · unfold setStores
      rw [setStores_other _ _ _ _ (by simp)]
      simp
    · intro i SD hi
      have hs := @setStores_store store_id BI v.storeDeps 0 v.id
        ((md.setMetadata BI (.vType v.id) type).setMetadata BI (.vStoreNum v.id) v.storeDeps.length) i SD hi
      rw [Nat.zero_add] at hs
      exact hs
    · intro J l hl
      unfold setStores
      rw [setStores_other _ _ _ _ fun i _ h => by rcases hl with hl | rfl | rfl | rfl <;> simp_all]
      rcases hl with hl | rfl | rfl | rfl <;> simp_all
    · intro vid hvid
      have hne : ∀ i j, Label.vStore vid i ≠ .vStore v.id j := fun i j h => hvid (by simpa using (Label.vStore.inj h).1)
      unfold setStores
      constructor
      · rw [setStores_other _ _ _ _ (by simp)]
        simp [hvid]
      · intro i
        rw [setStores_other _ _ _ _ fun j _ h => hne i j h.2]
        simp

private theorem variableNum_le (vs : List VD2SDDep) : variableNum vs ≤ vs.length := List.length_filter_le _ vs

private theorem setVariables_spec {n n' : Nat} {md md' : Metadata}
    (h : vs.foldlM (setVariable store_id BI) (n, md) = some (n', md')) :
    n' = n - (vs.length - variableNum vs) ∧
    (∀ J l, Outside BI J l → md'.getMetadata J l = md.getMetadata J l) ∧
    (∀ vid, lastVariable vs vid = none → SameVariable BI md md' vid) ∧
    ∀ vid u, lastVariable vs vid = some u → Written store_id BI md' u := by
  induction vs generalizing n md with
  | nil =>
    simp only [List.foldlM_nil, Option.pure_def, Option.some.injEq, Prod.mk.injEq] at h
    obtain ⟨rfl, rfl⟩ := h
    exact ⟨rfl, fun _ _ _ => rfl, fun _ _ => ⟨rfl, fun _ => rfl⟩, fun _ _ hu => by cases hu⟩
  | cons v vs ih =>
    simp only [List.foldlM_cons, Option.bind_eq_bind, Option.bind_eq_some_iff, Prod.exists] at h
    obtain ⟨n₁, md₁, hv, hvs⟩ := h
    obtain ⟨hn, hout, hnone, hsome⟩ := ih hvs
    have hle := variableNum_le vs
    rcases setVariable_spec hv with ⟨hempty, rfl, rfl⟩ | ⟨hne, rfl, hw, hout₁, hother⟩
    · -- a variable without stores writes nothing and is not counted
      have hlast : ∀ vid, lastVariable (v :: vs) vid = lastVariable vs vid := by
        intro vid
        simp only [lastVariable, hempty]
        cases lastVariable vs vid <;> simp
      have hnum : variableNum (v :: vs) = variableNum vs := by simp [variableNum, hempty]
      refine ⟨?_, hout, ?_, ?_⟩
      · rw [hn, hnum, List.length_cons]
        omega
      · exact fun vid h => hnone vid (hlast vid ▸ h)
      · exact fun vid u h => hsome vid u (hlast vid ▸ h)
    · have hnum : variableNum (v :: vs) = variableNum vs + 1 := by simp [variableNum, hne]
      refine ⟨?_, fun J l hl => (hout J l hl).trans (hout₁ J l hl), ?_, ?_⟩
      · rw [hn, hnum, List.length_cons]
        omega
      · intro vid h
        simp only [lastVariable] at h
        split at h
        · cases h
        · rename_i hvid
          have hid : vid ≠ v.id := fun he => by simp [he, hne] at h
          have h₂ := hnone vid hvid
          have h₁ := hother vid hid
          exact ⟨h₂.1.trans h₁.1, fun i => (h₂.2 i).trans (h₁.2 i)⟩
      · intro vid u h
        simp only [lastVariable] at h
        split at h
        · rename_i hu
          cases h
          exact hsome vid u hu
        · rename_i hvid
          split at h
          · rename_i hid
            cases h
            exact (hnone v.id (hid.1 ▸ hvid)).written hw
          · cases h

/-- What the executor finds at a branch with stores. -/
private structure BranchWritten (store_id : InstID → Nat) (md : Metadata) (r : BD2VDDep) : Prop where
  vNum : md.getMetadata r.branch_dep.inst .vNum = some (variableNum r.varDeps)
  absent : ∀ vid, lastVariable r.varDeps vid = none → md.getMetadata r.branch_dep.inst (.vStoreNum vid) = none
  written : ∀ vid u, lastVariable r.varDeps vid = some u → Written store_id r.branch_dep.inst md u

private theorem setVariables_isSome (store_id : InstID → Nat) (BI : InstID)
    (hw : ∀ v ∈ vs, v.WellFormed an) (acc : Nat × Metadata) : ∃ acc', vs.foldlM (setVariable store_id BI) acc = some acc' := by
  obtain ⟨acc', h, -⟩ := Loops.foldlM_isSome (f := setVariable store_id BI) (l := vs) (s := acc) (fun _ => True)
    (fun v hv acc _ => by
      unfold setVariable
      split
      · exact ⟨_, rfl, trivial⟩
      · rename_i hne
        obtain ⟨type, ht⟩ := Option.isSome_iff_exists.1 ((hw v hv).2 hne)
        exact ⟨_, by rw [ht]; rfl, trivial⟩) trivial
  exact ⟨acc', h⟩

private theorem setBranch_spec (store_id : InstID → Nat) {r : BD2VDDep}
    (hw : ∀ v ∈ r.varDeps, v.WellFormed an) (md : Metadata) :
    ∃ md', setBranch store_id md r = some md' ∧
      (∀ J l, J ≠ r.branch_dep.inst ∨ l = .bid ∨ l = .sid → md'.getMetadata J l = md.getMetadata J l) ∧
      (r.store_num ≠ 0 → (∀ vid, md.getMetadata r.branch_dep.inst (.vStoreNum vid) = none) →
        BranchWritten store_id md' r) := by
  unfold setBranch
  split
  · rename_i h0
    exact ⟨md, rfl, fun _ _ _ => rfl, fun h => (h h0).elim⟩
  · obtain ⟨⟨n', md'⟩, h⟩ := setVariables_isSome store_id r.branch_dep.inst hw (r.varDeps.length, md)
    obtain ⟨hn, hout, hnone, hsome⟩ := setVariables_spec h
    have hle := variableNum_le r.varDeps
    refine ⟨_, by rw [h]; rfl, ?_, ?_⟩
    · intro J l hl
      have hkeep : ¬(J = r.branch_dep.inst ∧ l = .vNum) := by
        rintro ⟨rfl, rfl⟩
        simp at hl
      rw [getMetadata_setMetadata, if_neg hkeep]
      exact hout J l (hl.imp_right fun hl => hl.imp_right .inl)
    · intro _ hfree
      have hsame : ∀ vid, SameVariable r.branch_dep.inst md'
          (md'.setMetadata r.branch_dep.inst .vNum n') vid := fun vid => ⟨by simp, by simp⟩
      refine ⟨?_, ?_, ?_⟩
      · rw [getMetadata_setMetadata, if_pos ⟨rfl, rfl⟩, hn]
        congr 1
        omega
      · intro vid hvid
        rw [(hsame vid).1, (hnone vid hvid).1]
        exact hfree vid
      · intro vid u hu
        exact (hsame u.id).written (hsome vid u hu)

private theorem setBranches_spec (store_id : InstID → Nat) {md : Metadata}
    (hnd : (bvDeps.map (·.branch_dep.inst)).Nodup) (hw : ∀ r ∈ bvDeps, ∀ v ∈ r.varDeps, v.WellFormed an)
    (hfree : ∀ r ∈ bvDeps, ∀ vid, md.getMetadata r.branch_dep.inst (.vStoreNum vid) = none) :
    ∃ md', bvDeps.foldlM (setBranch store_id) md = some md' ∧
      (∀ J l, (∀ r ∈ bvDeps, r.branch_dep.inst ≠ J) ∨ l = .bid ∨ l = .sid →
        md'.getMetadata J l = md.getMetadata J l) ∧
      ∀ r ∈ bvDeps, r.store_num ≠ 0 → BranchWritten store_id md' r := by
  induction bvDeps generalizing md with
  | nil => exact ⟨md, rfl, fun _ _ _ => rfl, by simp⟩
  | cons r bvDeps ih =>
    simp only [List.map_cons, List.nodup_cons, List.mem_map, not_exists, not_and] at hnd
    obtain ⟨md₁, h₁, hkeep₁, hwr₁⟩ := setBranch_spec store_id (hw r (by simp)) md
    obtain ⟨md', h, hkeep, hwr⟩ := ih hnd.2 (fun r hr => hw r (by simp [hr])) fun q hq vid => by
      rw [hkeep₁ _ _ (.inl (hnd.1 q hq))]
      exact hfree q (by simp [hq]) vid
    refine ⟨md', by simp [List.foldlM_cons, h₁, h], ?_, ?_⟩
    · intro J l hl
      rw [hkeep J l (hl.imp_left fun hl q hq => hl q (by simp [hq])),
        hkeep₁ J l (hl.imp_left fun hl => (hl r (by simp)).symm)]
    · intro q hq h0
      rcases List.mem_cons.1 hq with rfl | hq
      · -- the later branches are other instructions
        have hsame : ∀ l, md'.getMetadata q.branch_dep.inst l = md₁.getMetadata q.branch_dep.inst l := fun l =>
          hkeep _ l (.inl hnd.1)
        obtain ⟨hvNum, habsent, hwritten⟩ := hwr₁ h0 (hfree q (by simp))
        exact ⟨(hsame _).trans hvNum, fun vid h => (hsame _).trans (habsent vid h), fun vid u h =>
          SameVariable.written ⟨hsame _, fun _ => hsame _⟩ (hwritten vid u h)⟩
      · exact hwr q hq h0

private theorem setBranchIDs_spec (bvDeps : List BD2VDDep) (md : Metadata)
    (hnd : (bvDeps.map (·.branch_dep.inst)).Nodup) :
    (∀ J l, l ≠ .bid → (bvDeps.foldl setBranchID md).getMetadata J l = md.getMetadata J l) ∧
    (∀ J b, (bvDeps.foldl setBranchID md).getMetadata J .bid = some b → md.getMetadata J .bid = some b ∨
      ∃ r ∈ bvDeps, r.store_num ≠ 0 ∧ r.branch_dep.inst = J ∧ r.id = b) ∧
    (∀ J, (∀ r ∈ bvDeps, r.branch_dep.inst ≠ J) →
      (bvDeps.foldl setBranchID md).getMetadata J .bid = md.getMetadata J .bid) ∧
    ∀ r ∈ bvDeps, r.store_num ≠ 0 →
      (bvDeps.foldl setBranchID md).getMetadata r.branch_dep.inst .bid = some r.id := by
  induction bvDeps generalizing md with
  | nil => exact ⟨fun _ _ _ => rfl, fun _ _ h => .inl h, fun _ _ => rfl, by simp⟩
  | cons r bvDeps ih =>
    simp only [List.map_cons, List.nodup_cons, List.mem_map, not_exists, not_and] at hnd
    obtain ⟨hother, hfrom, hkeep, hset⟩ := ih (setBranchID md r) hnd.2
    have hone : ∀ J l, ¬(J = r.branch_dep.inst ∧ l = .bid) →
        (setBranchID md r).getMetadata J l = md.getMetadata J l := by
      intro J l h
      unfold setBranchID
      split
      · rfl
      · rw [getMetadata_setMetadata, if_neg h]
    have hset₁ : r.store_num ≠ 0 → (setBranchID md r).getMetadata r.branch_dep.inst .bid = some r.id := by
      intro h
      simp [setBranchID, h]
    refine ⟨?_, ?_, ?_, ?_⟩
    · intro J l hl
      rw [List.foldl_cons, hother J l hl, hone J l fun h => hl h.2]
    · intro J b h
      rcases hfrom J b h with h | ⟨q, hq, h⟩
      · by_cases hJ : J = r.branch_dep.inst
        · by_cases h0 : r.store_num = 0
          · exact .inl (by simpa [setBranchID, h0] using h)
          · subst hJ
            rw [hset₁ h0] at h
            exact .inr ⟨r, by simp, h0, rfl, by simpa using h⟩
        · exact .inl (by rwa [hone J .bid fun h => hJ h.1] at h)
      · exact .inr ⟨q, by simp [hq], h⟩
    · intro J hJ
      rw [List.foldl_cons, hkeep J fun q hq => hJ q (by simp [hq]), hone J .bid fun h => hJ r (by simp) h.1.symm]
    · intro q hq h0
      rcases List.mem_cons.1 hq with rfl | hq
      · rw [List.foldl_cons, hkeep _ hnd.1, hset₁ h0]
      · exact hset q hq h0

private theorem setStoreIDs_spec (SDs : List StoreDep) (n : Numbering) (hnd : (SDs.map (·.inst)).Nodup) :
    (∀ J l, (∀ SD ∈ SDs, SD.inst ≠ J) ∨ l ≠ .sid →
      (SDs.foldl Numbering.setStoreID n).md.getMetadata J l = n.md.getMetadata J l) ∧
    (∀ J, (∀ SD ∈ SDs, SD.inst ≠ J) → (SDs.foldl Numbering.setStoreID n).store_id J = n.store_id J) ∧
    (∀ SD ∈ SDs, n.store_num < (SDs.foldl Numbering.setStoreID n).store_id SD.inst ∧
      (SDs.foldl Numbering.setStoreID n).md.getMetadata SD.inst .sid =
        some ((SDs.foldl Numbering.setStoreID n).store_id SD.inst)) ∧
    ∀ SD ∈ SDs, ∀ SD' ∈ SDs, (SDs.foldl Numbering.setStoreID n).store_id SD.inst =
      (SDs.foldl Numbering.setStoreID n).store_id SD'.inst → SD.inst = SD'.inst := by
  induction SDs generalizing n with
  | nil => exact ⟨fun _ _ _ => rfl, fun _ _ => rfl, by simp, by simp⟩
  | cons a SDs ih =>
    simp only [List.map_cons, List.nodup_cons, List.mem_map, not_exists, not_and] at hnd
    obtain ⟨hmd, hid, hset, hinj⟩ := ih (n.setStoreID a) hnd.2
    have hnum : (n.setStoreID a).store_num = n.store_num + 1 := rfl
    have ha : (SDs.foldl Numbering.setStoreID (n.setStoreID a)).store_id a.inst = n.store_num + 1 := by
      rw [hid a.inst hnd.1]
      simp [Numbering.setStoreID]
    simp only [List.foldl_cons]
    refine ⟨?_, ?_, ?_, ?_⟩
    · intro J l hl
      have hkeep : ¬(J = a.inst ∧ l = .sid) := fun h => hl.elim (fun hl => hl a (by simp) h.1.symm) fun hl => hl h.2
      rw [hmd J l (hl.imp_left fun hl SD hSD => hl SD (by simp [hSD]))]
      simp only [Numbering.setStoreID, getMetadata_setMetadata, if_neg hkeep]
    · intro J hJ
      have hne : J ≠ a.inst := fun h => hJ a (by simp) h.symm
      rw [hid J fun SD hSD => hJ SD (by simp [hSD])]
      simp [Numbering.setStoreID, hne]
    · intro SD hSD
      rcases List.mem_cons.1 hSD with rfl | hSD
      · refine ⟨by omega, ?_⟩
        rw [hmd _ _ (.inl hnd.1), ha]
        simp [Numbering.setStoreID]
      · have h := hset SD hSD
        exact ⟨by omega, h.2⟩
    · intro SD hSD SD' hSD' he
      rcases List.mem_cons.1 hSD with rfl | hmem
      · rcases List.mem_cons.1 hSD' with rfl | hmem'
        · rfl
        · have h := (hset SD' hmem').1
          omega
      · rcases List.mem_cons.1 hSD' with rfl | hmem'
        · have h := (hset SD hmem).1
          omega
        · exact hinj SD hmem SD' hmem' he

/-- The metadata of the module, as the executor reads it. -/
private structure Encoded (SDs : List StoreDep) (bvDeps : List BD2VDDep) (store_id : InstID → Nat)
    (md : Metadata) : Prop where
  bid : ∀ J b, md.getMetadata J .bid = some b →
    ∃ r ∈ bvDeps, r.store_num ≠ 0 ∧ r.branch_dep.inst = J ∧ r.id = b
  bid_of : ∀ r ∈ bvDeps, r.store_num ≠ 0 → md.getMetadata r.branch_dep.inst .bid = some r.id
  sid : ∀ SD ∈ SDs, md.getMetadata SD.inst .sid = some (store_id SD.inst)
  inj : ∀ SD ∈ SDs, ∀ SD' ∈ SDs, store_id SD.inst = store_id SD'.inst → SD.inst = SD'.inst
  branch : ∀ r ∈ bvDeps, r.store_num ≠ 0 → BranchWritten store_id md r

private theorem setInstMetaData_spec {SDs : List StoreDep}
    (hm : Matched an bvDeps) (hs : (SDs.map (·.inst)).Nodup) :
    ∃ md store_id, setInstMetaData SDs bvDeps = some md ∧ Encoded SDs bvDeps store_id md := by
  obtain ⟨hb₁, hb₂, -, hb₃⟩ := setBranchIDs_spec bvDeps (fun _ _ => none) hm.insts_nodup
  obtain ⟨hs₁, -, hs₂, hs₃⟩ := setStoreIDs_spec SDs { md := bvDeps.foldl setBranchID fun _ _ => none } hs
  unfold setInstMetaData
  generalize SDs.foldl Numbering.setStoreID { md := bvDeps.foldl setBranchID fun _ _ => none } = n at *
  have hfree : ∀ r ∈ bvDeps, ∀ vid, n.md.getMetadata r.branch_dep.inst (.vStoreNum vid) = none := by
    intro r _ vid
    rw [hs₁ _ _ (.inr (by simp)), hb₁ _ _ (by simp)]
    rfl
  obtain ⟨md, h, hkeep, hwr⟩ := setBranches_spec n.store_id hm.insts_nodup hm.wellFormed hfree
  have hbid : ∀ J, md.getMetadata J .bid = (bvDeps.foldl setBranchID fun _ _ => none).getMetadata J .bid := by
    intro J
    rw [hkeep J .bid (by simp), hs₁ J .bid (.inr (by simp))]
  refine ⟨md, n.store_id, h, ⟨?_, ?_, ?_, hs₃, hwr⟩⟩
  · intro J b hJ
    rw [hbid] at hJ
    exact (hb₂ J b hJ).resolve_left (by simp [getMetadata])
  · intro r hr h0
    rw [hbid]
    exact hb₃ r hr h0
  · intro SD hSD
    rw [hkeep _ .sid (by simp)]
    exact (hs₂ SD hSD).2

@[simp] theorem mem_insertNew {α : Type} [DecidableEq α] {l : List α} {a b : α} :
    b ∈ insertNew l a ↔ b ∈ l ∨ b = a := by
  unfold insertNew
  split
  · rename_i h
    exact ⟨.inl, fun hb => hb.elim id fun hb => hb ▸ h⟩
  · simp

variable {md : Metadata} {w : World}

private theorem loadStore_isSome (I : InstID × InstKind) {sid : StoreID} (h : (w.id2si sid).isSome) :
    ((loadStore md w I).id2si sid).isSome := by
  unfold loadStore
  split
  · rename_i s _ _
    by_cases hs : sid = s
    · subst hs
      simp
    · simpa [hs] using h
  · exact h

private theorem loadStores_spec (md : Metadata) (insts : List (InstID × InstKind)) (w : World) :
    (insts.foldl (loadStore md) w).bdDep = w.bdDep ∧
    (insts.foldl (loadStore md) w).storetTobranches = w.storetTobranches ∧
    ∀ sid, (w.id2si sid).isSome ∨ (∃ I, (I, InstKind.store) ∈ insts ∧ md.getMetadata I .sid = some sid) →
      ((insts.foldl (loadStore md) w).id2si sid).isSome := by
  induction insts generalizing w with
  | nil => exact ⟨rfl, rfl, fun sid h => by simpa using h⟩
  | cons a insts ih =>
    obtain ⟨hb, ht, hi⟩ := ih (loadStore md w a)
    have hframe : (loadStore md w a).bdDep = w.bdDep ∧
        (loadStore md w a).storetTobranches = w.storetTobranches := by
      unfold loadStore
      split <;> exact ⟨rfl, rfl⟩
    refine ⟨hb.trans hframe.1, ht.trans hframe.2, fun sid h => hi sid ?_⟩
    rcases h with h | ⟨I, hI, hs⟩
    · exact .inl (loadStore_isSome a h)
    · rcases List.mem_cons.1 hI with rfl | hI
      · exact .inl (by simp [loadStore, hs])
      · exact .inr ⟨I, hI, hs⟩

/-- While a branch is loaded, what the loop has added to the executor since `w₀`. -/
private structure Loading (w₀ : World) (bid : BranchID) (acc : World × BDDep) : Prop where
  id2si : acc.1.id2si = w₀.id2si
  bdDep : acc.1.bdDep = w₀.bdDep
  branches : ∀ s b, b ∈ acc.1.storetTobranches s ↔ b ∈ w₀.storetTobranches s ∨ (b = bid ∧ s ∈ acc.2.stores)

variable {F : FuncID} {I : InstID} {bid : BranchID} {acc : World × BDDep} {w₀ : World}

private theorem loadVariableStore_spec {vid i : Nat} {sid : StoreID} (h : Loading w₀ bid acc)
    (hl : md.getMetadata I (.vStore vid i) = some sid) (hk : (w₀.id2si sid).isSome) :
    ∃ acc', loadVariableStore md F I bid vid acc i = some acc' ∧ Loading w₀ bid acc' ∧
      ∀ s, s ∈ acc'.2.stores ↔ s ∈ acc.2.stores ∨ s = sid := by
  obtain ⟨SI, hSI⟩ := Option.isSome_iff_exists.1 hk
  rw [← h.id2si] at hSI
  simp only [loadVariableStore, hl, Option.map_some, hSI]
  refine ⟨_, rfl, ⟨h.id2si, h.bdDep, ?_⟩, ?_⟩
  · intro s b
    by_cases hs : s = sid
    · subst hs
      simp only [Function.update_self, mem_insertNew, h.branches]
      tauto
    · simp only [Function.update_of_ne hs, mem_insertNew, h.branches, hs, or_false]
  · intro s
    simp

private theorem loadVariable_spec {vid : Nat} {u : VD2SDDep} (h : Loading w₀ bid acc)
    (hw : Written store_id I md u) (hk : ∀ SD ∈ u.storeDeps, (w₀.id2si (store_id SD.inst)).isSome)
    (hu : u.id = vid) :
    ∃ acc', loadVariable md F I bid acc vid = some acc' ∧ Loading w₀ bid acc' ∧
      ∀ s, s ∈ acc'.2.stores ↔ s ∈ acc.2.stores ∨ ∃ SD ∈ u.storeDeps, store_id SD.inst = s := by
  subst hu
  obtain ⟨acc', hf, hl, hmem⟩ := Loops.foldlM_collect (f := loadVariableStore md F I bid u.id)
    (l := List.range u.storeDeps.length) (Loading w₀ bid) (fun acc s => s ∈ acc.2.stores)
    (fun i s => ∃ SD, u.storeDeps[i]? = some SD ∧ store_id SD.inst = s)
    (fun i hi acc hacc => by
      have hlt := List.mem_range.1 hi
      have hget : u.storeDeps[i]? = some u.storeDeps[i] := List.getElem?_eq_getElem hlt
      obtain ⟨acc', h₁, h₂, h₃⟩ := loadVariableStore_spec (F := F) hacc (hw.store i _ hget)
        (hk _ (List.getElem_mem hlt))
      refine ⟨acc', h₁, h₂, fun s => ?_⟩
      rw [h₃ s, hget]
      simp [eq_comm]) h
  have hread : ∀ s, s ∈ acc'.2.stores ↔ s ∈ acc.2.stores ∨ ∃ SD ∈ u.storeDeps, store_id SD.inst = s := by
    intro s
    rw [hmem s]
    constructor
    · rintro (hs | ⟨i, -, SD, hSD, hs⟩)
      · exact .inl hs
      · exact .inr ⟨SD, List.mem_of_getElem? hSD, hs⟩
    · rintro (hs | ⟨SD, hSD, hs⟩)
      · exact .inl hs
      · obtain ⟨i, hi, rfl⟩ := List.getElem_of_mem hSD
        exact .inr ⟨i, List.mem_range.2 hi, _, List.getElem?_eq_getElem hi, hs⟩
  simp only [loadVariable, hw.num, hf, Option.map_some]
  split
  · exact ⟨_, rfl, ⟨hl.id2si, hl.bdDep, hl.branches⟩, hread⟩
  · exact ⟨_, rfl, hl, hread⟩

/-- The store ids that are read for the variables `vs`. -/
private def Read (store_id : InstID → Nat) (vs : List VD2SDDep) (s : StoreID) : Prop :=
  ∃ u, lastVariable vs u.id = some u ∧ u.id < variableNum vs ∧ ∃ SD ∈ u.storeDeps, store_id SD.inst = s

private theorem loadDependency_spec {r : BD2VDDep} {bdDep : BDDep} (hw : BranchWritten store_id md r)
    (hk : ∀ v ∈ r.varDeps, ∀ SD ∈ v.storeDeps, (w.id2si (store_id SD.inst)).isSome) (hs : bdDep.stores = []) :
    ∃ w' bdDep', loadDependency md F r.branch_dep.inst r.id bdDep w = some w' ∧
      w'.bdDep = Function.update w.bdDep r.id (some bdDep') ∧ w'.id2si = w.id2si ∧
      (∀ s b, b ∈ w'.storetTobranches s ↔ b ∈ w.storetTobranches s ∨ (b = r.id ∧ s ∈ bdDep'.stores)) ∧
      ∀ s, s ∈ bdDep'.stores ↔ Read store_id r.varDeps s := by
  let w₁ : World := { w with
    id2bi := Function.update w.id2bi r.id (some r.branch_dep.inst)
    bi2id := Function.update w.bi2id r.branch_dep.inst (some r.id) }
  have hstart : Loading w r.id (w₁, bdDep) := ⟨rfl, rfl, fun s b => by simp [hs, w₁]⟩
  obtain ⟨⟨w', bdDep'⟩, hf, hl, hmem⟩ := Loops.foldlM_collect
    (f := loadVariable md F r.branch_dep.inst r.id) (l := List.range (variableNum r.varDeps)) (Loading w r.id)
    (fun acc s => s ∈ acc.2.stores)
    (fun vid s => ∃ u, lastVariable r.varDeps vid = some u ∧ ∃ SD ∈ u.storeDeps, store_id SD.inst = s)
    (fun vid _ acc hacc => by
      cases hu : lastVariable r.varDeps vid with
      | none => exact ⟨acc, by simp only [loadVariable, hw.absent vid hu], hacc, by simp⟩
      | some u =>
        obtain ⟨hmem, hid⟩ := lastVariable_mem hu
        obtain ⟨acc', h₁, h₂, h₃⟩ := loadVariable_spec (F := F) hacc (hw.written vid u hu) (hk u hmem) hid
        exact ⟨acc', h₁, h₂, fun s => by rw [h₃ s]; simp⟩) hstart
  refine ⟨{ w' with bdDep := Function.update w'.bdDep r.id (some bdDep') }, bdDep', ?_, ?_, hl.id2si, hl.branches,
    fun s => ?_⟩
  · have hf' : List.foldlM (loadVariable md F r.branch_dep.inst r.id) (w₁, bdDep)
        (List.range (variableNum r.varDeps)) = some (w', bdDep') := hf
    simp only [loadDependency, hw.vNum, Option.bind_eq_bind, Option.bind_some]
    rw [hf']
    rfl
  · have hb := hl.bdDep
    dsimp only at hb ⊢
    rw [hb]
  · rw [hmem s]
    simp only [hs, List.not_mem_nil, false_or, List.mem_range, Read]
    constructor
    · rintro ⟨vid, hlt, u, hu, h⟩
      obtain ⟨-, rfl⟩ := lastVariable_mem hu
      exact ⟨u, hu, hlt, h⟩
    · rintro ⟨u, hu, hlt, h⟩
      exact ⟨u.id, hlt, u, hu, h⟩

/-- `store_num > 0`, and an `icmp` as the condition if the branch is a `br`. -/
def BD2VDDep.Relevant (an : Analysis) (r : BD2VDDep) : Prop :=
  r.store_num ≠ 0 ∧ (r.branch_dep.inst, InstKind.br none) ∉ an.insts

/-- The executor has an entry for every relevant branch, with exactly the ids written for the stores of all its
variables, and `storetTobranches` is the inverse relation. -/
def RoundTrip (an : Analysis) (bvDeps : List BD2VDDep) (md : Metadata) (w : World) : Prop :=
  (∀ r ∈ bvDeps, r.Relevant an → ∃ bdDep, w.bdDep r.id = some bdDep ∧
    ∀ sid, sid ∈ bdDep.stores ↔ ∃ v ∈ r.varDeps, ∃ SD ∈ v.storeDeps, md.getMetadata SD.inst .sid = some sid) ∧
  ∀ sid b, b ∈ w.storetTobranches sid ↔ ∃ bdDep, w.bdDep b = some bdDep ∧ sid ∈ bdDep.stores

structure Blank (w : World) : Prop where
  bdDep : ∀ b, w.bdDep b = none
  storetTobranches : ∀ s, w.storetTobranches s = []

/-- The invariant of the loop over the branches of the module. -/
private structure Inverse (store_id : InstID → Nat) (bvDeps : List BD2VDDep) (w₀ w : World) : Prop where
  id2si : w.id2si = w₀.id2si
  read : ∀ r ∈ bvDeps, ∀ bdDep, w.bdDep r.id = some bdDep → ∀ s, s ∈ bdDep.stores ↔ Read store_id r.varDeps s
  inverse : ∀ s b, b ∈ w.storetTobranches s ↔ ∃ bdDep, w.bdDep b = some bdDep ∧ s ∈ bdDep.stores

private theorem entry_stores {kind : InstKind} {bdDep : BDDep} (h : kind.entry = some bdDep) :
    bdDep.stores = [] := by
  cases kind with
  | br cond =>
    simp only [InstKind.entry, Option.map_eq_some_iff] at h
    obtain ⟨pred, -, rfl⟩ := h
    rfl
  | switch cases =>
    simp only [InstKind.entry, Option.some.injEq] at h
    subst h
    rfl
  | store => cases h
  | other => cases h

section Decode

variable {an : Analysis} {SDs : List StoreDep} {bvDeps : List BD2VDDep}

private theorem Inverse.update {w' : World} {bdDep : BDDep} {r : BD2VDDep} (h : Inverse store_id bvDeps w₀ w)
    (hids : (bvDeps.map (·.id)).Nodup) (hr : r ∈ bvDeps)
    (hb : w'.bdDep = Function.update w.bdDep r.id (some bdDep)) (hi : w'.id2si = w.id2si)
    (ht : ∀ s b, b ∈ w'.storetTobranches s ↔ b ∈ w.storetTobranches s ∨ (b = r.id ∧ s ∈ bdDep.stores))
    (hs : ∀ s, s ∈ bdDep.stores ↔ Read store_id r.varDeps s) : Inverse store_id bvDeps w₀ w' := by
  refine ⟨hi.trans h.id2si, ?_, ?_⟩
  · intro q hq bd hbd
    rw [hb] at hbd
    by_cases hid : q.id = r.id
    · obtain rfl : q = r := List.inj_on_of_nodup_map hids hq hr hid
      simp only [Function.update_self, Option.some.injEq] at hbd
      exact hbd ▸ hs
    · rw [Function.update_of_ne hid] at hbd
      exact h.read q hq bd hbd
  · intro s b
    rw [ht, h.inverse, hb]
    by_cases hbr : b = r.id
    · subst hbr
      simp only [Function.update_self, Option.some.injEq, exists_eq_left', true_and]
      -- an entry that is replaced has the same stores
      refine ⟨fun hor => hor.elim ?_ id, .inr⟩
      rintro ⟨bd, hbd, hmem⟩
      exact (hs s).2 ((h.read r hr bd hbd s).1 hmem)
    · simp [hbr]

private theorem loadBranch_spec {e : InstID × InstKind} (hm : Matched an bvDeps)
    (he : Encoded SDs bvDeps store_id md)
    (hk : ∀ r ∈ bvDeps, ∀ v ∈ r.varDeps, ∀ SD ∈ v.storeDeps, (w₀.id2si (store_id SD.inst)).isSome)
    (h : Inverse store_id bvDeps w₀ w) :
    ∃ w', loadBranch md F w e = some w' ∧ Inverse store_id bvDeps w₀ w' ∧
      ∀ b, (w'.bdDep b).isSome ↔ (w.bdDep b).isSome ∨ (e.2.entry.isSome ∧ md.getMetadata e.1 .bid = some b) := by
  unfold loadBranch
  split
  · rename_i bdDep bid hentry hbid
    obtain ⟨r, hr, h0, hinst, rfl⟩ := he.bid e.1 bid hbid
    obtain ⟨w', bdDep', hl, hb, hi, ht, hs⟩ := loadDependency_spec (F := F) (he.branch r hr h0)
      (h.id2si ▸ hk r hr) (entry_stores hentry)
    refine ⟨w', hinst ▸ hl, h.update hm.ids_nodup hr hb hi ht hs, fun b => ?_⟩
    rw [hb, hentry, hbid]
    by_cases hbr : b = r.id
    · simp [hbr]
    · have hbr' : r.id ≠ b := fun h => hbr h.symm
      simp [hbr, hbr']
  · rename_i hno
    refine ⟨w, rfl, h, fun b => ?_⟩
    refine ⟨.inl, fun hor => hor.resolve_right ?_⟩
    rintro ⟨hentry, hbid⟩
    obtain ⟨bdDep, hb⟩ := Option.isSome_iff_exists.1 hentry
    exact hno bdDep b hb hbid

private theorem entry_isSome_of_relevant {r : BD2VDDep} (hm : Matched an bvDeps) (hr : r ∈ bvDeps)
    (hrel : r.Relevant an) : ∃ kind, (r.branch_dep.inst, kind) ∈ an.insts ∧ kind.entry.isSome := by
  obtain ⟨kind, hmem, hb⟩ := an.branches_mem _ (hm.branch_mem r hr)
  refine ⟨kind, hmem, ?_⟩
  cases kind with
  | br cond =>
    cases cond with
    | none => exact (hrel.2 hmem).elim
    | some pred => rfl
  | switch cases => rfl
  | store => cases hb
  | other => cases hb

private theorem setModule_spec (hm : Matched an bvDeps) (hs : SDs.Perm an.stores)
    (he : Encoded SDs bvDeps store_id md) (hw : Blank w) :
    ∃ w', setModule an.prog md w = some w' ∧
      (∀ r ∈ bvDeps, r.Relevant an → ∃ bdDep, w'.bdDep r.id = some bdDep ∧
        ∀ s, s ∈ bdDep.stores ↔ Read store_id r.varDeps s) ∧
      ∀ s b, b ∈ w'.storetTobranches s ↔ ∃ bdDep, w'.bdDep b = some bdDep ∧ s ∈ bdDep.stores := by
  obtain ⟨hb₁, ht₁, hi₁⟩ := loadStores_spec md an.insts w
  -- every store of the analysis is a store of the module and has its id
  have hk : ∀ r ∈ bvDeps, ∀ v ∈ r.varDeps, ∀ SD ∈ v.storeDeps,
      ((an.insts.foldl (loadStore md) w).id2si (store_id SD.inst)).isSome := by
    intro r hr v hv SD hSD
    have hmem := (hm.wellFormed r hr v hv).1 SD hSD
    exact hi₁ _ (.inr ⟨SD.inst, an.stores_mem SD hmem, he.sid SD (hs.mem_iff.2 hmem)⟩)
  have hstart : Inverse store_id bvDeps (an.insts.foldl (loadStore md) w) (an.insts.foldl (loadStore md) w) := by
    refine ⟨rfl, ?_, ?_⟩
    · intro r _ bdDep h
      rw [hb₁, hw.bdDep] at h
      cases h
    · intro s b
      rw [ht₁, hw.storetTobranches, hb₁, hw.bdDep]
      simp
  obtain ⟨w', hf, hinv, hmem⟩ := Loops.foldlM_collect
    (f := fun w (e : FuncID × InstID × InstKind) => loadBranch md e.1 w e.2)
    (l := an.prog.flatMap fun g => g.2.map (g.1, ·)) (Inverse store_id bvDeps (an.insts.foldl (loadStore md) w))
    (fun w b => (w.bdDep b).isSome) (fun e b => e.2.2.entry.isSome ∧ md.getMetadata e.2.1 .bid = some b)
    (fun _ _ _ h => loadBranch_spec hm he hk h) hstart
  refine ⟨w', ?_, ?_, hinv.inverse⟩
  · unfold setModule
    rw [← Loops.foldlM_groups] at hf
    exact hf
  · intro r hr hrel
    obtain ⟨kind, hkind, hentry⟩ := entry_isSome_of_relevant hm hr hrel
    obtain ⟨g, hg, hin⟩ := List.mem_flatMap.1 hkind
    have hsome : (w'.bdDep r.id).isSome := (hmem r.id).2 (.inr
      ⟨(g.1, r.branch_dep.inst, kind), List.mem_flatMap.2 ⟨g, hg, List.mem_map_of_mem hin⟩, hentry,
        he.bid_of r hr hrel.1⟩)
    obtain ⟨bdDep, hbd⟩ := Option.isSome_iff_exists.1 hsome
    exact ⟨bdDep, hbd, hinv.read r hr bdDep hbd⟩

end Decode

theorem setModule_of_runOnModule {built : List BD2VDDep} {SDs : List StoreDep} {w : World}
    (hb : runOnModule an = some built) (hr : Reordered built bvDeps) (hs : SDs.Perm an.stores) (hw : Blank w) :
    ∃ md w', setInstMetaData SDs bvDeps = some md ∧ setModule an.prog md w = some w' ∧
      ∀ I J b, md.getMetadata I .bid = some b → md.getMetadata J .bid = some b → I = J := by
  have hm : Matched an bvDeps := (matched_of_runOnModule hb).reordered hr
  obtain ⟨md, store_id, hset, he⟩ := setInstMetaData_spec hm ((hs.map _).nodup_iff.2 an.stores_nodup)
  obtain ⟨w', hload, -⟩ := setModule_spec hm hs he hw
  refine ⟨md, w', hset, hload, ?_⟩
  intro I J b hI hJ
  obtain ⟨r, hr, -, rfl, hid⟩ := he.bid I b hI
  obtain ⟨r', hr', -, rfl, hid'⟩ := he.bid J b hJ
  rw [List.inj_on_of_nodup_map hm.ids_nodup hr hr' (hid.trans hid'.symm)]

/-- The dependencies of the analysis arrive in the executor exactly if the variables of every relevant branch are
legible. -/
theorem roundTrip_iff {an : Analysis} {built bvDeps : List BD2VDDep} {SDs : List StoreDep} {w : World}
    (hb : runOnModule an = some built) (hr : Reordered built bvDeps) (hs : SDs.Perm an.stores) (hw : Blank w) :
    (∃ md w', setInstMetaData SDs bvDeps = some md ∧ setModule an.prog md w = some w' ∧
      RoundTrip an bvDeps md w') ↔ ∀ r ∈ bvDeps, r.Relevant an → Legible r.varDeps := by
  have hm : Matched an bvDeps := (matched_of_runOnModule hb).reordered hr
  obtain ⟨md, store_id, hset, he⟩ := setInstMetaData_spec hm ((hs.map _).nodup_iff.2 an.stores_nodup)
  obtain ⟨w', hload, hread, hinv⟩ := setModule_spec hm hs he hw
  have hmem : ∀ r ∈ bvDeps, ∀ v ∈ r.varDeps, ∀ SD ∈ v.storeDeps, SD ∈ SDs := fun r hr v hv SD hSD =>
    hs.mem_iff.2 ((hm.wellFormed r hr v hv).1 SD hSD)
  constructor
  · rintro ⟨md', w'', hset', hload', hrt⟩ r hr hrel v hv SD hSD
    obtain rfl : md = md' := Option.some.inj (hset.symm.trans hset')
    obtain rfl : w' = w'' := Option.some.inj (hload.symm.trans hload')
    obtain ⟨bdDep, hbd, hst⟩ := hread r hr hrel
    obtain ⟨bdDep', hbd', hst'⟩ := hrt.1 r hr hrel
    obtain rfl : bdDep = bdDep' := Option.some.inj (hbd.symm.trans hbd')
    have hin := (hst' (store_id SD.inst)).2 ⟨v, hv, SD, hSD, he.sid SD (hmem r hr v hv SD hSD)⟩
    obtain ⟨u, hu, hlt, SD', hSD', hid⟩ := (hst _).1 hin
    -- the id determines the store
    have hu' := (lastVariable_mem hu).1
    have hinst := he.inj SD' (hmem r hr u hu' SD' hSD') SD (hmem r hr v hv SD hSD) hid
    have hsd : SD' = SD := List.inj_on_of_nodup_map an.stores_nodup ((hm.wellFormed r hr u hu').1 SD' hSD')
      ((hm.wellFormed r hr v hv).1 SD hSD) hinst
    exact ⟨u, hu, hlt, hsd ▸ hSD'⟩
  · intro hleg
    refine ⟨md, w', hset, hload, ?_, hinv⟩
    intro r hr hrel
    obtain ⟨bdDep, hbd, hst⟩ := hread r hr hrel
    refine ⟨bdDep, hbd, fun sid => (hst sid).trans ⟨?_, ?_⟩⟩
    · rintro ⟨u, hu, -, SD, hSD, rfl⟩
      have hu' := (lastVariable_mem hu).1
      exact ⟨u, hu', SD, hSD, he.sid SD (hmem r hr u hu' SD hSD)⟩
    · rintro ⟨v, hv, SD, hSD, hid⟩
      obtain ⟨u, hu, hlt, hSD'⟩ := hleg r hr hrel v hv SD hSD
      rw [he.sid SD (hmem r hr v hv SD hSD)] at hid
      exact ⟨u, hu, hlt, SD, hSD', Option.some.inj hid⟩

/-! ### A parameter and a local variable

`int main() { int x = 2; f(x); }` calls `void f(int p) { int b = 1; if (cond) … }`, where the condition is either
`p == 3` or `p + b == 3`.  The function `main` is `0` and holds the store `10` to `x`, the load `12` of `x` and the
call `11`; the function `f` is `1` and holds the store `20` of its argument, the store `21` to `b` and the branch
`22`. -/

/-- The module, for a branch with the data dependencies `deps`. -/
def callWithLocal (deps : List DataDep) : Analysis where
  prog := [(0, [(10, .store), (12, .other), (11, .other)]), (1, [(20, .store), (21, .store), (22, .br (some .eq))])]
  sdMap := [(0, [⟨10, .localVariable 5⟩]), (1, [⟨21, .localVariable 6⟩])]
  fbd := [(1, [⟨22, 1, deps⟩])]
  callGraph := [(0, []), (1, [⟨11, 0⟩])]
  operand := fun I i => if I = 11 ∧ i = 0 then some 12 else none
  extractDataDependency := fun I => if I = 12 then [.localVariable 5] else []
  isPotentiallyReachable := fun _ _ => true
  stores_mem := by simp
  stores_nodup := by decide
  branches_mem := fun bd h => ⟨.br (some .eq), by
    have h' : bd = ⟨22, 1, deps⟩ := by simpa using h
    simp [h', InstKind.isBranch]⟩
  branches_nodup := by simp

def paramAndLocal : BD2VDDep :=
  { branch_dep := ⟨22, 1, [.localVariable 6, .nonPointerParam 0]⟩, id := 1, store_num := 2
    varDeps := [⟨0, some (.localVariable 6), [⟨21, .localVariable 6⟩]⟩,
      ⟨0, some (.localVariable 5), [⟨10, .localVariable 5⟩]⟩] }

theorem VD2SDDep.Reordered.refl (v : VD2SDDep) : v.Reordered v := ⟨rfl, rfl, List.Perm.refl _⟩

theorem BD2VDDep.Reordered.refl (r : BD2VDDep) : r.Reordered r :=
  ⟨rfl, rfl, rfl, r.varDeps, List.Perm.refl _, List.forall₂_same.2 fun v _ => VD2SDDep.Reordered.refl v⟩

theorem Reordered.refl (bvDeps : List BD2VDDep) : Reordered bvDeps bvDeps :=
  ⟨bvDeps, List.Perm.refl _, List.forall₂_same.2 fun r _ => BD2VDDep.Reordered.refl r⟩

theorem blank_default : Blank default := ⟨fun _ => rfl, fun _ => rfl⟩

/-- The two variables of `p + b == 3` are both written under the id `0`, so that the store to `b` is lost. -/
theorem not_roundTrip_paramAndLocal :
    runOnModule (callWithLocal [.localVariable 6, .nonPointerParam 0]) = some [paramAndLocal] ∧
    Reordered [paramAndLocal] [paramAndLocal] ∧ Blank default ∧
    ¬∃ md w', setInstMetaData (callWithLocal [.localVariable 6, .nonPointerParam 0]).stores [paramAndLocal] = some md ∧
      setModule (callWithLocal [.localVariable 6, .nonPointerParam 0]).prog md default = some w' ∧
      RoundTrip (callWithLocal [.localVariable 6, .nonPointerParam 0]) [paramAndLocal] md w' := by
  refine ⟨by decide, Reordered.refl _, blank_default, ?_⟩
  rintro ⟨md, w', hset, hload, hrt, -⟩
  -- the store to `b` has the id `2`, and the entry of the branch has only the store `1`
  have hrun : ((setInstMetaData (callWithLocal [.localVariable 6, .nonPointerParam 0]).stores [paramAndLocal]).bind
      fun md => (setModule (callWithLocal [.localVariable 6, .nonPointerParam 0]).prog md default).map fun w =>
        (md.getMetadata 21 .sid, (w.bdDep 1).map (·.stores))) = some (some 2, some [1]) := by decide
  rw [hset, Option.bind_some, hload, Option.map_some, Option.some.injEq, Prod.mk.injEq] at hrun
  obtain ⟨bdDep, hbd, hst⟩ := hrt paramAndLocal (by simp) ⟨by decide, by decide⟩
  have hbd' : w'.bdDep 1 = some bdDep := hbd
  have hstores : bdDep.stores = [1] := by simpa [hbd'] using hrun.2
  have hmem := (hst 2).2 ⟨_, List.mem_cons_self, ⟨21, .localVariable 6⟩, by simp, hrun.1⟩
  rw [hstores] at hmem
  simp at hmem

def onlyParam : BD2VDDep :=
  { branch_dep := ⟨22, 1, [.nonPointerParam 0]⟩, id := 1, store_num := 1
    varDeps := [⟨0, some (.localVariable 5), [⟨10, .localVariable 5⟩]⟩] }

theorem legible_singleton {v : VD2SDDep} (h : v.id = 0) : Legible [v] := by
  intro u hu SD hSD
  obtain rfl := List.mem_singleton.1 hu
  have hne : u.storeDeps ≠ [] := List.ne_nil_of_mem hSD
  exact ⟨u, by simp [lastVariable, hne], by simp [variableNum, hne, h], hSD⟩

/-- The store to `x` in the caller arrives at `p == 3`. -/
theorem roundTrip_iff_onlyParam :
    ∃ md w', setInstMetaData (callWithLocal [.nonPointerParam 0]).stores [onlyParam] = some md ∧
      setModule (callWithLocal [.nonPointerParam 0]).prog md default = some w' ∧
      RoundTrip (callWithLocal [.nonPointerParam 0]) [onlyParam] md w' :=
  (roundTrip_iff (by decide) (Reordered.refl _) (List.Perm.refl _) blank_default).2 fun r hr _ => by
    obtain rfl := List.mem_singleton.1 hr
    exact legible_singleton rfl

end CgsKlee.Ida
