import CgsKlee.Core.Run

/-!
# The work lists of branches

`targetBranches`, `partlyCoveredBranches` and `fullyCoveredBranches` in a run.  Ids move between the lists in five
places: the `Br` and `Switch` handlers add a new id to one of the first two, promote an id from the second to the
first when a target is covered, and push covered ids to the third; the refresh of the targets empties the first and
refills it from the second.

That a covered id never comes back (`Carried.covered`) rests on two facts about the program: an id is carried by one
instruction, and what makes a branch covered (`stats::fullBranches` for a `br`, no uncovered case for a `switch`) stays.
-/

namespace CgsKlee

/-- The lists have no duplicates and are disjoint, there are not too many targets, and what is still to be covered
depends on a store. -/
structure WorkLists (w : World) : Prop where
  targets : w.targetBranches.Nodup
  partly : w.partlyCoveredBranches.Nodup
  fully : w.fullyCoveredBranches.Nodup
  targets_partly : w.targetBranches.Disjoint w.partlyCoveredBranches
  targets_fully : w.targetBranches.Disjoint w.fullyCoveredBranches
  partly_fully : w.partlyCoveredBranches.Disjoint w.fullyCoveredBranches
  bound : w.targetBranches.length ≤ w.targetBranchNum
  stores : ∀ b, b ∈ w.targetBranches ∨ b ∈ w.partlyCoveredBranches → ∃ d, w.bdDep b = some d ∧ d.stores ≠ []

def Closed (w : World) (inst : InstID) (b : BranchID) : Prop :=
  ((w.kmodule.inst inst).opcode = .br → w.fullBranches inst ≠ 0) ∧
    ((w.kmodule.inst inst).opcode = .switch → ∀ d, w.bdDep b = some d → d.unCoveredValues = [])

/-- Every id is carried by one instruction, and covered ids are closed. -/
structure Carried (w : World) : Prop where
  branch : ∀ i b, w.bi2id i = some b → w.id2bi b = some i
  covered : ∀ b ∈ w.fullyCoveredBranches, ∀ i, w.bi2id i = some b → Closed w i b

variable {b : BranchID} {w w' : World} {l : List BranchID} {cur : StateId} {inst : InstID} {c : Config}

theorem Carried.inj (h : Carried w) {i j : InstID} (hi : w.bi2id i = some b)
    (hj : w.bi2id j = some b) : i = j := by
  have h₁ := h.branch i b hi
  rw [h.branch j b hj] at h₁
  exact (Option.some.inj h₁).symm

private theorem nodup_snoc (hl : l.Nodup) (hb : b ∉ l) : (l ++ [b]).Nodup := by
  rw [← List.concat_eq_append]
  exact List.Nodup.concat hb hl

private theorem disjoint_snoc {l' : List BranchID} (hl : l.Disjoint l') (hb : b ∉ l') :
    (l ++ [b]).Disjoint l' := by
  intro x hx hx'
  rcases List.mem_append.1 hx with hx | hx
  · exact hl hx hx'
  · exact hb (List.mem_singleton.1 hx ▸ hx')

private theorem disjoint_snoc_right {l' : List BranchID} (hl : l.Disjoint l') (hb : b ∉ l) :
    l.Disjoint (l' ++ [b]) := by
  intro x hx hx'
  rcases List.mem_append.1 hx' with hx' | hx'
  · exact hl hx hx'
  · exact hb (List.mem_singleton.1 hx' ▸ hx)

namespace WorkLists

variable {w : World} {bid : BranchID}

theorem congr {w' : World} (h : WorkLists w) (ht : w'.targetBranches = w.targetBranches)
    (hp : w'.partlyCoveredBranches = w.partlyCoveredBranches) (hf : w'.fullyCoveredBranches = w.fullyCoveredBranches)
    (hn : w'.targetBranchNum = w.targetBranchNum)
    (hd : ∀ b d, w.bdDep b = some d → ∃ d', w'.bdDep b = some d' ∧ d'.stores = d.stores) : WorkLists w' where
  targets := by rw [ht]; exact h.targets
  partly := by rw [hp]; exact h.partly
  fully := by rw [hf]; exact h.fully
  targets_partly := by rw [ht, hp]; exact h.targets_partly
  targets_fully := by rw [ht, hf]; exact h.targets_fully
  partly_fully := by rw [hp, hf]; exact h.partly_fully
  bound := by rw [ht, hn]; exact h.bound
  stores b hb := by
    rw [ht, hp] at hb
    obtain ⟨d, hd', hs⟩ := h.stores b hb
    obtain ⟨d', hd', hs'⟩ := hd b d hd'
    exact ⟨d', hd', hs'.symm ▸ hs⟩

theorem promote (h : WorkLists w) (hlast : w.partlyCoveredBranches.getLast? = some bid)
    (hlt : w.targetBranches.length < w.targetBranchNum) :
    WorkLists { w with
      partlyCoveredBranches := w.partlyCoveredBranches.dropLast, targetBranches := w.targetBranches ++ [bid] } := by
  have hmem : bid ∈ w.partlyCoveredBranches := List.mem_of_getLast? hlast
  have hpartly : (w.partlyCoveredBranches.dropLast ++ [bid]).Nodup := by
    rw [List.dropLast_append_getLast? bid hlast]
    exact h.partly
  have hnot : bid ∉ w.partlyCoveredBranches.dropLast := fun hb =>
    (List.nodup_append.1 hpartly).2.2 bid hb bid (by simp) rfl
  have hsub : ∀ b ∈ w.partlyCoveredBranches.dropLast, b ∈ w.partlyCoveredBranches := fun b hb =>
    List.dropLast_subset _ hb
  exact
    { targets := nodup_snoc h.targets fun ht => h.targets_partly ht hmem
      partly := (List.nodup_append.1 hpartly).1
      fully := h.fully
      targets_partly := disjoint_snoc (fun b ht hp => h.targets_partly ht (hsub b hp)) hnot
      targets_fully := disjoint_snoc h.targets_fully fun hf => h.partly_fully hmem hf
      partly_fully := fun b hb hf => h.partly_fully (hsub b hb) hf
      bound := by
        show (w.targetBranches ++ [bid]).length ≤ w.targetBranchNum
        rw [List.length_append, List.length_singleton]
        omega
      stores := by
        rintro b (hb | hb)
        · rcases List.mem_append.1 hb with hb | hb
          · exact h.stores b (.inl hb)
          · exact h.stores b (.inr (List.mem_singleton.1 hb ▸ hmem))
        · exact h.stores b (.inr (hsub b hb)) }

theorem coverTarget (h : WorkLists w) (hnew : bid ∉ w.fullyCoveredBranches)
    (hmem : bid ∈ w.targetBranches) :
    WorkLists { w with
      fullyCoveredBranches := w.fullyCoveredBranches ++ [bid], targetBranches := w.targetBranches.erase bid } where
  targets := h.targets.erase bid
  partly := h.partly
  fully := nodup_snoc h.fully hnew
  targets_partly b hb hp := h.targets_partly (List.mem_of_mem_erase hb) hp
  targets_fully := by
    refine disjoint_snoc_right (fun b hb hf => h.targets_fully (List.mem_of_mem_erase hb) hf) fun hb => ?_
    exact (h.targets.mem_erase_iff.1 hb).1 rfl
  partly_fully := disjoint_snoc_right h.partly_fully fun hp => h.targets_partly hmem hp
  bound := by
    have hlen := List.length_erase_of_mem hmem
    have hbound := h.bound
    show (w.targetBranches.erase bid).length ≤ w.targetBranchNum
    omega
  stores b hb := h.stores b (hb.imp_left fun hb => List.mem_of_mem_erase hb)

theorem coverPartly (h : WorkLists w) (hnew : bid ∉ w.fullyCoveredBranches)
    (hmem : bid ∉ w.targetBranches) :
    WorkLists { w with
      fullyCoveredBranches := w.fullyCoveredBranches ++ [bid]
      partlyCoveredBranches := w.partlyCoveredBranches.erase bid } where
  targets := h.targets
  partly := h.partly.erase bid
  fully := nodup_snoc h.fully hnew
  targets_partly b hb hp := h.targets_partly hb (List.mem_of_mem_erase hp)
  targets_fully := disjoint_snoc_right h.targets_fully hmem
  partly_fully := by
    refine disjoint_snoc_right (fun b hb hf => h.partly_fully (List.mem_of_mem_erase hb) hf) fun hb => ?_
    exact (h.partly.mem_erase_iff.1 hb).1 rfl
  bound := h.bound
  stores b hb := h.stores b (hb.imp_right fun hb => List.mem_of_mem_erase hb)

theorem coverBranch (h : WorkLists w) (bid : BranchID) : WorkLists (w.coverBranch bid) := by
  have hsame : ∀ b d, w.bdDep b = some d → ∃ d', w.bdDep b = some d' ∧ d'.stores = d.stores := fun _ d hd =>
    ⟨d, hd, rfl⟩
  unfold World.coverBranch
  by_cases hnew : bid ∈ w.fullyCoveredBranches
  · rw [if_pos hnew]
    exact h
  rw [if_neg hnew]
  dsimp only
  by_cases hmem : bid ∈ w.targetBranches
  · rw [if_pos hmem]
    have hcover := h.coverTarget hnew hmem
    cases hlast : w.partlyCoveredBranches.getLast? with
    | none => exact hcover.congr rfl rfl rfl rfl hsame
    | some next =>
      have hlen := List.length_erase_of_mem hmem
      have hpos := List.length_pos_of_mem hmem
      have hbound := h.bound
      have hlt : (w.targetBranches.erase bid).length < w.targetBranchNum := by omega
      exact (hcover.promote hlast hlt).congr rfl rfl rfl rfl hsame
  · rw [if_neg hmem]
    exact (h.coverPartly hnew hmem).congr rfl rfl rfl rfl hsame

theorem addTarget (h : WorkLists w) {d : BDDep} (hd : w.bdDep bid = some d)
    (hs : d.stores ≠ []) (ht : bid ∉ w.targetBranches) (hp : bid ∉ w.partlyCoveredBranches)
    (hf : bid ∉ w.fullyCoveredBranches) : WorkLists (w.addTarget bid) := by
  have hstores : ∀ b, b = bid → ∃ d, w.bdDep b = some d ∧ d.stores ≠ [] := fun b hb => ⟨d, hb ▸ hd, hs⟩
  unfold World.addTarget
  split
  · rename_i hlt
    exact
      { targets := nodup_snoc h.targets ht
        partly := h.partly
        fully := h.fully
        targets_partly := disjoint_snoc h.targets_partly hp
        targets_fully := disjoint_snoc h.targets_fully hf
        partly_fully := h.partly_fully
        bound := by
          show (w.targetBranches ++ [bid]).length ≤ w.targetBranchNum
          rw [List.length_append, List.length_singleton]
          omega
        stores := fun b hb => by
          rcases hb with hb | hb
          · rcases List.mem_append.1 hb with hb | hb
            · exact h.stores b (.inl hb)
            · exact hstores b (List.mem_singleton.1 hb)
          · exact h.stores b (.inr hb) }
  · exact
      { targets := h.targets
        partly := nodup_snoc h.partly hp
        fully := h.fully
        targets_partly := disjoint_snoc_right h.targets_partly ht
        targets_fully := h.targets_fully
        partly_fully := disjoint_snoc h.partly_fully hf
        bound := h.bound
        stores := fun b hb => by
          rcases hb with hb | hb
          · exact h.stores b (.inl hb)
          · rcases List.mem_append.1 hb with hb | hb
            · exact h.stores b (.inr hb)
            · exact hstores b (List.mem_singleton.1 hb) }

end WorkLists

/-- Ids are not given to further instructions, full coverage stays, and entries keep their stores and get no new
uncovered case. -/
structure Evolves (w w' : World) : Prop where
  kmodule : w'.kmodule = w.kmodule
  id2bi : w'.id2bi = w.id2bi
  bi2id : ∀ i b, w'.bi2id i = some b → w.bi2id i = some b
  full : ∀ i, w.fullBranches i ≠ 0 → w'.fullBranches i ≠ 0
  cases : ∀ b d', w'.bdDep b = some d' → ∃ d, w.bdDep b = some d ∧ (d.unCoveredValues = [] → d'.unCoveredValues = [])
  stores : ∀ b d, w.bdDep b = some d → ∃ d', w'.bdDep b = some d' ∧ d'.stores = d.stores

namespace Evolves

theorem of_eq {w w' : World} (hk : w'.kmodule = w.kmodule) (hi : w'.id2bi = w.id2bi) (hb : w'.bi2id = w.bi2id)
    (hf : w'.fullBranches = w.fullBranches) (hd : w'.bdDep = w.bdDep) : Evolves w w' :=
  ⟨hk, hi, by rw [hb]; exact fun _ _ h => h, by rw [hf]; exact fun _ h => h,
    fun b d h => ⟨d, by rw [← hd]; exact h, id⟩, fun b d h => ⟨d, by rw [hd]; exact h, rfl⟩⟩

theorem of_noted {cur : StateId} {inst : InstID} {w w' : World} (h : Noted cur inst w w') : Evolves w w' :=
  ⟨by rw [h.rest], by rw [h.rest], by rw [h.rest]; exact fun _ _ h => h, h.full,
    fun b d hd => ⟨d, by rw [← h.bdDep]; exact hd, id⟩, fun b d hd => ⟨d, by rw [h.bdDep]; exact hd, rfl⟩⟩

theorem setEntry {w : World} {bid : BranchID} {d d' : BDDep} (hd : w.bdDep bid = some d) (hs : d'.stores = d.stores)
    (hc : d.unCoveredValues = [] → d'.unCoveredValues = []) :
    Evolves w { w with bdDep := Function.update w.bdDep bid (some d') } := by
  refine ⟨rfl, rfl, fun _ _ h => h, fun _ h => h, fun b e he => ?_, fun b e he => ?_⟩ <;> by_cases hb : b = bid
  · subst hb
    simp only [Function.update_self] at he
    cases he
    exact ⟨d, hd, hc⟩
  · simp only [Function.update_of_ne hb] at he
    exact ⟨e, he, id⟩
  · subst hb
    rw [hd] at he
    cases he
    exact ⟨d', by simp, hs⟩
  · exact ⟨e, by simp [hb, he], rfl⟩

theorem coverBranch (w : World) (bid : BranchID) : Evolves w (w.coverBranch bid) := by
  unfold World.coverBranch
  split
  · exact of_eq rfl rfl rfl rfl rfl
  · dsimp only
    split
    · split <;> exact of_eq rfl rfl rfl rfl rfl
    · exact of_eq rfl rfl rfl rfl rfl

theorem addTarget (w : World) (bid : BranchID) : Evolves w (w.addTarget bid) := by
  unfold World.addTarget
  split <;> exact of_eq rfl rfl rfl rfl rfl

theorem closed {w w' : World} (h : Evolves w w') {i : InstID} {b : BranchID} (hc : Closed w i b) : Closed w' i b := by
  refine ⟨fun ho => h.full i (hc.1 (by rw [← h.kmodule]; exact ho)), fun ho d hd => ?_⟩
  obtain ⟨d₀, hd₀, hcases⟩ := h.cases b d hd
  exact hcases (hc.2 (by rw [← h.kmodule]; exact ho) d₀ hd₀)

theorem carried {w w' : World} (h : Evolves w w') (hc : Carried w)
    (hnew : ∀ b ∈ w'.fullyCoveredBranches, b ∉ w.fullyCoveredBranches → ∀ i, w'.bi2id i = some b → Closed w' i b) :
    Carried w' := by
  refine ⟨fun i b hi => ?_, fun b hb i hi => ?_⟩
  · rw [h.id2bi]
    exact hc.branch i b (h.bi2id i b hi)
  · by_cases hold : b ∈ w.fullyCoveredBranches
    · exact h.closed (hc.covered b hold i (h.bi2id i b hi))
    · exact hnew b hb hold i hi

end Evolves

theorem World.coverBranch_fully (w : World) (bid : BranchID) :
    (w.coverBranch bid).fullyCoveredBranches =
      if bid ∈ w.fullyCoveredBranches then w.fullyCoveredBranches else w.fullyCoveredBranches ++ [bid] := by
  unfold World.coverBranch
  split
  · rfl
  · dsimp only
    split
    · split <;> rfl
    · rfl

theorem World.addTarget_fully (w : World) (bid : BranchID) :
    (w.addTarget bid).fullyCoveredBranches = w.fullyCoveredBranches := by
  unfold World.addTarget
  split <;> rfl

/-- The invariant of the work lists, and that no covered id is forgotten. -/
structure Keeps (w w' : World) : Prop where
  lists : WorkLists w'
  carried : Carried w'
  fully : ∀ b ∈ w.fullyCoveredBranches, b ∈ w'.fullyCoveredBranches

theorem Evolves.keeps (h : Evolves w w') (hl : WorkLists w) (hc : Carried w)
    (ht : w'.targetBranches = w.targetBranches) (hp : w'.partlyCoveredBranches = w.partlyCoveredBranches)
    (hf : w'.fullyCoveredBranches = w.fullyCoveredBranches) (hn : w'.targetBranchNum = w.targetBranchNum) :
    Keeps w w' :=
  ⟨hl.congr ht hp hf hn h.stores, h.carried hc (by rw [hf]; exact fun b hb hnb => absurd hb hnb),
    by rw [hf]; exact fun _ h => h⟩

theorem Keeps.of_eq (hl : WorkLists w) (hc : Carried w) (hk : w'.kmodule = w.kmodule)
    (hi : w'.id2bi = w.id2bi) (hb : w'.bi2id = w.bi2id) (hfull : w'.fullBranches = w.fullBranches)
    (hd : w'.bdDep = w.bdDep) (ht : w'.targetBranches = w.targetBranches)
    (hp : w'.partlyCoveredBranches = w.partlyCoveredBranches) (hf : w'.fullyCoveredBranches = w.fullyCoveredBranches)
    (hn : w'.targetBranchNum = w.targetBranchNum) : Keeps w w' :=
  (Evolves.of_eq hk hi hb hfull hd).keeps hl hc ht hp hf hn

theorem Keeps.trans {w₁ w₂ w₃ : World} (h₁ : Keeps w₁ w₂) (h₂ : Keeps w₂ w₃) : Keeps w₁ w₃ :=
  ⟨h₂.lists, h₂.carried, fun b hb => h₂.fully b (h₁.fully b hb)⟩

theorem Keeps.of_noted (hl : WorkLists w) (hc : Carried w)
    (hn : Noted cur inst w w') : Keeps w w' :=
  (Evolves.of_noted hn).keeps hl hc hn.targetBranches hn.partlyCoveredBranches (by rw [hn.rest]) (by rw [hn.rest])

theorem Keeps.coverBranch (hl : WorkLists w) (hc : Carried w) {bid : BranchID}
    (hi : w.bi2id inst = some bid) (hclosed : Closed w inst bid) : Keeps w (w.coverBranch bid) := by
  have he := Evolves.coverBranch w bid
  refine ⟨hl.coverBranch bid, he.carried hc fun b hb hnb i hib => ?_, fun b hb => ?_⟩
  · have hbid : b = bid := by
      rw [World.coverBranch_fully] at hb
      split at hb
      · exact absurd hb hnb
      · rcases List.mem_append.1 hb with hb | hb
        · exact absurd hb hnb
        · exact List.mem_singleton.1 hb
    subst hbid
    rw [hc.inj (he.bi2id i b hib) hi]
    exact he.closed hclosed
  · rw [World.coverBranch_fully]
    split
    · exact hb
    · exact List.mem_append_left _ hb

theorem Keeps.addTarget (hl : WorkLists w) (hc : Carried w) {bid : BranchID} {d : BDDep}
    (hd : w.bdDep bid = some d) (hs : d.stores ≠ []) (ht : bid ∉ w.targetBranches)
    (hp : bid ∉ w.partlyCoveredBranches) (hf : bid ∉ w.fullyCoveredBranches) : Keeps w (w.addTarget bid) :=
  ⟨hl.addTarget hd hs ht hp hf, (Evolves.addTarget w bid).carried hc (by
    rw [World.addTarget_fully]; exact fun b hb hnb => absurd hb hnb),
    by rw [World.addTarget_fully]; exact fun _ h => h⟩

theorem World.executeBr_keeps {taken tracked : Bool}
    {v1 v2 : Option (BitVec 64)} (hl : WorkLists w) (hc : Carried w) (ho : (w.kmodule.inst inst).opcode = .br)
    (h : w.executeBr cur inst taken tracked v1 v2 = some w') : Keeps w w' := by
  obtain ⟨w₁, hn, -, hcases⟩ := World.executeBr_cases h
  have k₁ := Keeps.of_noted hl hc hn
  rcases hcases with rfl | ⟨bid, hbid, ⟨hf, rfl⟩ | ⟨hf, -, ht, hp, d, d', c1, c2, hd, hs, -, -, hr, rfl⟩⟩
  · exact k₁
  · refine k₁.trans (Keeps.coverBranch k₁.lists k₁.carried (by rw [hn.bi2id]; exact hbid) ⟨fun _ => hf, fun hsw => ?_⟩)
    rw [hn.rest] at hsw
    exact absurd (ho.symm.trans hsw) (by decide)
  · obtain ⟨hst, hcs⟩ := KModule.recordEntry_keeps hr
    have hd₁ : w₁.bdDep bid = some d := by rw [hn.bdDep]; exact hd
    have k₂ := (Evolves.setEntry hd₁ hst (fun h => by rw [hcs]; exact h)).keeps k₁.lists k₁.carried rfl rfl rfl rfl
    refine (k₁.trans k₂).trans (Keeps.addTarget k₂.lists k₂.carried (d := d') (by simp) (by rw [hst]; exact hs)
      (by rw [← hn.targetBranches] at ht; exact ht) (by rw [← hn.partlyCoveredBranches] at hp; exact hp)
      (fun hm => ?_))
    -- a covered branch has both sides visited
    exact (k₁.carried.covered bid hm inst (by rw [hn.bi2id]; exact hbid)).1 (by rw [hn.rest]; exact ho) hf

theorem World.executeSwitch_keeps {value : BitVec 64}
    (hl : WorkLists w) (hc : Carried w) (ho : (w.kmodule.inst inst).opcode = .switch)
    (h : w.executeSwitch cur inst value = some w') : Keeps w w' := by
  rcases World.executeSwitch_cases h with ⟨-, rfl⟩ | ⟨bid, d, d', w₁, hbid, hd, hd', hn, hcases⟩
  · exact ⟨hl, hc, fun _ h => h⟩
  · have hst : d'.stores = d.stores := by rw [hd']; rfl
    have hcs : d.unCoveredValues = [] → d'.unCoveredValues = [] := fun h => by rw [hd', BDDep.coverCase, h]; rfl
    have k₀ := (Evolves.setEntry hd hst hcs).keeps hl hc rfl rfl rfl rfl
    have k₁ := k₀.trans (Keeps.of_noted k₀.lists k₀.carried hn)
    have hd₁ : w₁.bdDep bid = some d' := by rw [hn.bdDep]; simp
    have hbid₁ : w₁.bi2id inst = some bid := by rw [hn.bi2id]; exact hbid
    have ho₁ : (w₁.kmodule.inst inst).opcode = .switch := by rw [hn.rest]; exact ho
    rcases hcases with rfl | ⟨hcov, rfl⟩ | ⟨hcov, ht, hp, hs, rfl⟩
    · exact k₁
    · refine k₁.trans (Keeps.coverBranch k₁.lists k₁.carried hbid₁ ⟨fun hbr => ?_, fun _ e he => ?_⟩)
      · exact absurd (ho₁.symm.trans hbr) (by decide)
      · rw [hd₁] at he
        cases he
        exact hcov
    · refine k₁.trans (Keeps.addTarget k₁.lists k₁.carried hd₁ (by rw [hd']; exact hs)
        (by rw [hn.targetBranches]; exact ht) (by rw [hn.partlyCoveredBranches]; exact hp) (fun hm => ?_))
      exact hcov ((k₁.carried.covered bid hm inst hbid₁).2 ho₁ d' hd₁)

theorem Action.execute_keeps {a : Action} (hl : WorkLists w) (hc : Carried w)
    (ho : a.Fits w.kmodule) (h : a.execute w cur = some w') : Keeps w w' := by
  cases a with
  | br inst taken tracked v1 v2 => exact World.executeBr_keeps hl hc ho h
  | symbolicBr inst t f tracked =>
    cases h
    have k₁ := Keeps.of_noted hl hc (World.branchStats_noted cur w inst t f tracked)
    refine k₁.trans (Evolves.keeps ⟨rfl, rfl, fun i b hi => ?_, fun _ h => h, fun b d hd => ⟨d, hd, id⟩,
      fun b d hd => ⟨d, hd, rfl⟩⟩ k₁.lists k₁.carried rfl rfl rfl rfl)
    by_cases hinst : i = inst
    · subst hinst
      simp [World.executeSymbolicBr] at hi
    · simpa [World.executeSymbolicBr, hinst] using hi
  | switch inst value => exact World.executeSwitch_keeps hl hc ho h
  | store inst isPointer value iter =>
    rcases World.executeStore_cases h with rfl | ⟨v, -, -, -, hs⟩
    · exact ⟨hl, hc, fun _ h => h⟩
    · have k₁ : Keeps w (w.rememberStore cur (w.si2id inst) (signedOf v) iter) :=
        Keeps.of_eq hl hc rfl rfl rfl rfl rfl rfl rfl rfl rfl
      generalize w.rememberStore cur (w.si2id inst) (signedOf v) iter = w₁ at hs k₁
      refine k₁.trans (Keeps.of_eq k₁.lists k₁.carried ?_ ?_ ?_ ?_ ?_ ?_ ?_ ?_ ?_) <;> rw [hs.rest]
  | other inst =>
    cases h
    exact ⟨hl, hc, fun _ h => h⟩

namespace World

/-- `update` may write `BI2ID` only where it is already defined. -/
def ReachedBranch (w : World) (cur : StateId) : Prop :=
  (w.heap cur).reachBranch = true → (w.bi2id (w.heap cur).prevPC).isSome

variable {cur : StateId} {w w' : World} {added : List StateId} {current : Option StateId}

theorem reachBranchBlock_bi2id (h : w.reachBranchBlock cur = some w')
    (hr : w.ReachedBranch cur) : w'.bi2id = w.bi2id := by
  rcases reachBranchBlock_eq_some h with ⟨-, rfl⟩ | ⟨hb, w₁, ⟨-, h₁⟩ | ⟨-, rfl⟩, rfl⟩
  · rfl
  · obtain ⟨bid, w₂, sts, bsts, -, h₂, -, rfl⟩ := targetCovered_eq_some h₁
    obtain ⟨I, d, kept, moved, w₃, -, -, hs, rfl⟩ := handleFullyCoveredBranch_eq_some h₂
    have hu := unlinkStores_rest (w.kmodule.functionOf I) bid d.stores (w, [])
    generalize d.stores.foldl (unlinkStore (w.kmodule.functionOf I) bid) (w, []) = acc at hs hu
    have hf := (sweep_loopFrame (fun _ _ _ _ => visitCovered_frame) hs).bi2id
    rw [hu] at hf
    exact hf
  · -- the write of `operator[]` puts back what is there
    obtain ⟨b, hb⟩ := Option.isSome_iff_exists.1 (hr hb)
    have hd : (w.dropTarget cur).bi2id = w.bi2id := by
      unfold dropTarget
      dsimp only
      split
      · rw [hb]
        exact Function.update_eq_self_iff.2 hb.symm
      · rfl
    show (w.targetMissed cur).bi2id = w.bi2id
    unfold targetMissed
    dsimp only
    split <;> exact hd

theorem updateCurrent_bi2id
    (h : w.updateCurrent cur added = some w') (hr : w.ReachedBranch cur) : w'.bi2id = w.bi2id := by
  obtain ⟨w₁, w₂, w₃, h₁, h₂, h₃, h₄⟩ := updateCurrent_eq_some h
  have hw₁ := rotate_rest h₁
  have b₂ : w₂.bi2id = w.bi2id := by
    have hb := reachBranchBlock_bi2id h₂ (by rw [hw₁]; exact hr)
    rw [hw₁] at hb
    exact hb
  have b₃ : w₃.bi2id = w₂.bi2id := by
    rcases reachStoreBlock_eq_some h₃ with ⟨-, rfl⟩ | ⟨-, -, istart, kept, moved, v, -, hs, rfl⟩
    · rfl
    · have hf : Frame w₂ v := Loops.sweep_rel Frame Frame.refl Frame.trans (fun _ _ _ _ _ => visitInfo_frame) hs
      exact hf.bi2id
  have b₄ : w'.bi2id = w₃.bi2id := by
    rcases newPartlyBlock_eq_some h₄ with ⟨-, rfl⟩ | ⟨-, bid, v, -, hv, rfl⟩
    · rfl
    · have hf := (handlePartlyCoveredBranch_frame hv).bi2id
      exact hf
  rw [b₄, b₃, b₂]

theorem updateCurrent_keeps (hl : WorkLists w) (hc : Carried w)
    (h : w.updateCurrent cur added = some w') (hr : w.ReachedBranch cur) : Keeps w w' := by
  have f := updateCurrent_blockFrame h
  exact Keeps.of_eq hl hc f.kmodule f.id2bi (updateCurrent_bi2id h hr) f.fullBranches f.bdDep f.targetBranches
    f.partlyCoveredBranches f.fullyCoveredBranches f.targetBranchNum

theorem promoteBranches_workLists {n : Nat} (hl : WorkLists w)
    (hn : w.targetBranches.length + n ≤ w.targetBranchNum) (h : promoteBranches current n w = some w') :
    WorkLists w' := by
  induction n generalizing w with
  | zero =>
    cases h
    exact hl
  | succ n ih =>
    rcases promoteBranches_succ_eq_some h with ⟨-, rfl⟩ | ⟨bid, w₁, hlast, h₁, h₂⟩
    · exact hl
    · have hf := handlePartlyCoveredBranch_frame h₁
      have hp := hl.promote hlast (by omega)
      refine ih (hp.congr hf.targetBranches hf.partlyCoveredBranches hf.fullyCoveredBranches hf.targetBranchNum
        fun b d hd => ⟨d, by rw [hf.bdDep]; exact hd, rfl⟩) ?_ h₂
      rw [hf.targetBranches, hf.targetBranchNum]
      simp only [List.length_append, List.length_singleton]
      omega

theorem refreshBlock_workLists (hl : WorkLists w)
    (h : w.refreshBlock current = some w') : WorkLists w' := by
  rcases refreshBlock_eq_some h with ⟨-, rfl⟩ | ⟨-, kept, moved, w₁, w₂, hs, hp, rfl⟩
  · exact hl
  · have hf := (sweep_loopFrame (fun _ _ _ _ => visitRefresh_frame) hs).toFrame
    have hl₁ : WorkLists { w₁ with branchStates := kept, states := w₁.states ++ moved, targetBranches := [] } :=
      { targets := List.nodup_nil
        partly := by rw [hf.rest]; exact hl.partly
        fully := by rw [hf.rest]; exact hl.fully
        targets_partly := fun _ h => by cases h
        targets_fully := fun _ h => by cases h
        partly_fully := by rw [hf.rest]; exact hl.partly_fully
        bound := Nat.zero_le _
        stores := fun b hb => by
          rw [hf.rest] at hb ⊢
          exact hl.stores b (.inr (hb.resolve_left fun h => by cases h)) }
    exact (promoteBranches_workLists hl₁ (by simp) hp).congr rfl rfl rfl rfl fun b d hd => ⟨d, hd, rfl⟩

theorem refreshBlock_keeps (hl : WorkLists w) (hc : Carried w)
    (h : w.refreshBlock current = some w') : Keeps w w' := by
  have f := refreshBlock_refreshFrame h
  have hfully : w'.fullyCoveredBranches = w.fullyCoveredBranches := by rw [f.rest]
  refine ⟨refreshBlock_workLists hl h, Evolves.carried (w := w) (Evolves.of_eq ?_ ?_ ?_ ?_ ?_) hc ?_, ?_⟩
  · rw [f.rest]
  · rw [f.rest]
  · rw [f.rest]
  · rw [f.rest]
  · rw [f.rest]
  · rw [hfully]
    exact fun b hb hnb => absurd hb hnb
  · rw [hfully]
    exact fun _ h => h

theorem keeps_vectors (hl : WorkLists w) (hc : Carried w) (states branchStates : List StateId) :
    Keeps w { w with states := states, branchStates := branchStates } :=
  Keeps.of_eq hl hc rfl rfl rfl rfl rfl rfl rfl rfl rfl

theorem update_keeps {removed : List StateId} (hl : WorkLists w) (hc : Carried w)
    (hr : w.ReachedBranch cur) (h : w.update (some cur) added removed = some w') : Keeps w w' := by
  obtain ⟨w₁, w₂, h₁, h₂, h₃⟩ := update_cases h
  have k₁ : Keeps w w₁ := by
    rcases h₁ with ⟨-, rfl⟩ | ⟨cur', hcur, -, hup⟩
    · exact ⟨hl, hc, fun _ h => h⟩
    · cases hcur
      exact updateCurrent_keeps hl hc hup hr
  have k₂ := k₁.trans (refreshBlock_keeps k₁.lists k₁.carried h₂)
  rw [h₃]
  exact k₂.trans (keeps_vectors k₂.lists k₂.carried _ _)

end World

theorem Config.execute_reachedBranch {it : Iteration} (hq : Quiet c)
    (hp : Partition c) (h : c.execute it = some (cur, w)) : w.ReachedBranch cur := by
  obtain ⟨hsel, h⟩ := Config.execute_eq_some h
  have hdown := (hq.begin hp hsel it (.inl (hp.selectState_mem hsel))).2
  have hprev : ((c.world.begin cur it).heap cur).prevPC = it.action.inst := by simp [World.begin]
  have hnoted : ∀ {inst : InstID} {w₀ w₁ : World}, Noted cur inst w₀ w₁ → w₀.heap = (c.world.begin cur it).heap →
      inst = it.action.inst → w₁.ReachedBranch cur := fun hn h₀ hi hb => by
    rcases hn.current with hcur | ⟨hs, hcur⟩
    · rw [hcur, h₀, hdown] at hb
      cases hb
    · rw [hcur, h₀, hn.bi2id]
      show (World.bi2id _ ((c.world.begin cur it).heap cur).prevPC).isSome
      rw [hprev, ← hi]
      exact hs
  have hcover : ∀ {w₁ : World} (bid : BranchID), w₁.ReachedBranch cur → (w₁.coverBranch bid).ReachedBranch cur :=
    fun {w₁} bid hw₁ => by
      unfold World.coverBranch
      split
      · exact hw₁
      · dsimp only
        split
        · split <;> exact hw₁
        · exact hw₁
  have hadd : ∀ {w₁ : World} (bid : BranchID), w₁.ReachedBranch cur → (w₁.addTarget bid).ReachedBranch cur :=
    fun {w₁} bid hw₁ => by
      unfold World.addTarget
      split <;> exact hw₁
  cases ha : it.action with
  | br inst taken tracked v1 v2 =>
    rw [ha] at h
    obtain ⟨w₁, hn, -, hcases⟩ := World.executeBr_cases h
    have hr := hnoted hn rfl (by rw [ha]; rfl)
    rcases hcases with rfl | ⟨bid, -, ⟨-, rfl⟩ | ⟨-, -, -, -, d, d', c1, c2, -, -, -, -, -, rfl⟩⟩
    · exact hr
    · exact hcover bid hr
    · exact hadd bid hr
  | symbolicBr inst t f tracked =>
    rw [ha] at h
    cases h
    intro hb
    have hheap := World.branchStats_heap (c.world.begin cur it) inst t f tracked
    rw [show ((c.world.begin cur it).executeSymbolicBr inst t f tracked).heap = _ from hheap, hdown] at hb
    cases hb
  | switch inst value =>
    rw [ha] at h
    rcases World.executeSwitch_cases h with ⟨-, rfl⟩ | ⟨bid, d, d', w₁, -, -, -, hn, hcases⟩
    · intro hb
      rw [hdown] at hb
      cases hb
    · have hr := hnoted hn rfl (by rw [ha]; rfl)
      rcases hcases with rfl | ⟨-, rfl⟩ | ⟨-, -, -, -, rfl⟩
      · exact hr
      · exact hcover bid hr
      · exact hadd bid hr
  | store inst isPointer value iter =>
    rw [ha] at h
    intro hb
    rcases World.executeStore_cases h with rfl | ⟨v, -, -, -, hs⟩
    · rw [hdown] at hb
      cases hb
    · have hb' := hs.reachBranch hb
      rw [(World.rememberStore_flags _ cur _ _ iter).2, hdown] at hb'
      cases hb'
  | other inst =>
    rw [ha] at h
    cases h
    intro hb
    rw [hdown] at hb
    cases hb

theorem Config.execute_keeps {it : Iteration} (hl : WorkLists c.world)
    (hc : Carried c.world) (ha : Allowed c it) (h : c.execute it = some (cur, w)) : Keeps c.world w := by
  have k₀ : Keeps c.world (c.world.begin cur it) := Keeps.of_eq hl hc rfl rfl rfl rfl rfl rfl rfl rfl rfl
  exact k₀.trans (Action.execute_keeps k₀.lists k₀.carried ha.opcode (Config.execute_eq_some h).2)

theorem Config.step_keeps {c' : Config} {it : Iteration} (hp : Partition c) (hq : Quiet c) (hl : WorkLists c.world)
    (hc : Carried c.world) (ha : Allowed c it) (h : c.step it = some c') : Keeps c.world c'.world := by
  obtain ⟨cur, w₁, w₂, w₃, h₁, h₂, h₃, rfl⟩ := Config.step_eq_some h
  have k₁ := Config.execute_keeps hl hc ha h₁
  have k₂ := k₁.trans (World.update_keeps k₁.lists k₁.carried (Config.execute_reachedBranch hq hp h₁) h₂)
  have hr := World.checkMemory_rest (World.update_updateTargetBranch h₂) h₃
  have k₃ : Keeps c.world w₃ := by
    rw [hr]
    exact k₂.trans (World.keeps_vectors k₂.lists k₂.carried _ _)
  exact k₃.trans (Keeps.of_eq k₃.lists k₃.carried rfl rfl rfl rfl rfl rfl rfl rfl rfl)

structure WorkListInv (c : Config) : Prop where
  partition : Partition c
  quiet : Quiet c
  lists : WorkLists c.world
  carried : Carried c.world

theorem WorkListInv.step {c c' : Config} {it : Iteration} (hi : WorkListInv c) (ha : Allowed c it)
    (h : c.step it = some c') : WorkListInv c' :=
  have hk := Config.step_keeps hi.partition hi.quiet hi.lists hi.carried ha h
  ⟨hi.partition.step ha h, hi.quiet.step hi.partition h, hk.lists, hk.carried⟩

theorem Start.workListInv (h : Start c) : WorkListInv c := by
  refine ⟨h.partition, h.quiet, ?_, ?_⟩ <;> obtain ⟨w, hw, hr⟩ := h.rest <;> rw [hr]
  · constructor
    all_goals simp [hw.targetBranches, hw.partlyCoveredBranches, hw.fullyCoveredBranches]
  · exact ⟨fun i b hb => (hw.branch i b hb).1, fun b hb => by
      rw [show World.fullyCoveredBranches _ = [] from hw.fullyCoveredBranches] at hb
      cases hb⟩

theorem WorkListInv.fully {c' : Config} (hi : WorkListInv c)
    (h : Relation.ReflTransGen (Step fun _ _ => True) c c') :
    WorkListInv c' ∧ ∀ b ∈ c.world.fullyCoveredBranches, b ∈ c'.world.fullyCoveredBranches := by
  induction h with
  | refl => exact ⟨hi, fun _ h => h⟩
  | tail _ hs ih =>
    obtain ⟨it, ha, -, hs⟩ := hs
    have hk := Config.step_keeps ih.1.partition ih.1.quiet ih.1.lists ih.1.carried ha hs
    exact ⟨ih.1.step ha hs, fun b hb => hk.fully b (ih.2 b hb)⟩

/-- In every run, when an iteration starts and after its handler, the three lists have no duplicates and are disjoint,
there are at most `TargetBranchNum` targets, every id that is still to be covered has an entry with a store, and an id
that is fully covered never comes back to the other two lists. -/
theorem workLists_of_run {c : Config} (h : Run (fun _ _ => True) c) :
    WorkLists c.world ∧
      (∀ it cur w, Allowed c it → c.execute it = some (cur, w) → WorkLists w) ∧
      ∀ c', Relation.ReflTransGen (Step fun _ _ => True) c c' → ∀ b ∈ c.world.fullyCoveredBranches,
        b ∈ c'.world.fullyCoveredBranches ∧ b ∉ c'.world.targetBranches ∧ b ∉ c'.world.partlyCoveredBranches := by
  have hi := h.invariant WorkListInv (fun _ h => h.workListInv) fun _ _ _ hi ha _ hs => hi.step ha hs
  refine ⟨hi.lists, fun it cur w ha hex => (Config.execute_keeps hi.lists hi.carried ha hex).lists,
    fun c' hcc' b hb => ?_⟩
  obtain ⟨hi', hf⟩ := hi.fully hcc'
  exact ⟨hf b hb, fun ht => hi'.lists.targets_fully ht (hf b hb), fun hp => hi'.lists.partly_fully hp (hf b hb)⟩

/-- The second branch becomes a target and is then covered. -/
theorem workLists_of_run_covered :
    ∃ c, Run (fun _ _ => True) c ∧ c.world.fullyCoveredBranches = [2] ∧ WorkLists c.world := by
  have hrun : ∃ c, (twoBranchesStart [0]).runs [{ action := .br 4 false true (some 7) (some 5) },
      { action := .br 4 true true (some 5) (some 5) }] = some c ∧ c.world.fullyCoveredBranches = [2] :=
    ⟨_, rfl, by decide⟩
  obtain ⟨c, hc, hl⟩ := hrun
  have h := twoBranches_start.run hc
  exact ⟨c, h, hl, (workLists_of_run h).1⟩

end CgsKlee
