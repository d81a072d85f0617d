import Mathlib.Order.WellFounded

/-!
# Passes until nothing changes

A loop that goes over a list again and again, lets each entry change the state, and ends after a pass without a change.
It ends if every change makes a measure smaller (`exists_repeatPass`), and then no entry changes the state any more
(`repeatPass_spec`).
-/

namespace Passes

variable {ι σ : Type}

def pass (step : ι → σ → Option σ) (entries : List ι) (s : σ) : σ × Bool :=
  entries.foldl (fun (s : σ × Bool) i =>
    match step i s.1 with
    | some s' => (s', true)
    | none => s) (s, false)

def repeatPass (step : ι → σ → Option σ) (entries : List ι) : Nat → σ → Option σ
  | 0, _ => none
  | fuel + 1, s =>
    let (s', changed) := pass step entries s
    if changed then repeatPass step entries fuel s' else some s'

variable {step : ι → σ → Option σ} {entries : List ι} {s s' : σ} {P : σ → Prop} {β : Type} [Preorder β]
  {measure : σ → β}

private def visit (step : ι → σ → Option σ) (s : σ × Bool) (i : ι) : σ × Bool :=
  match step i s.1 with
  | some s' => (s', true)
  | none => s

private theorem changed_of_true (s : σ × Bool) (h : s.2 = true) : (entries.foldl (visit step) s).2 = true := by
  induction entries generalizing s with
  | nil => exact h
  | cons i entries ih =>
    rw [List.foldl_cons]
    apply ih
    unfold visit
    split
    · rfl
    · exact h

private theorem foldl_unchanged (s : σ × Bool) (h : (entries.foldl (visit step) s).2 = false) :
    entries.foldl (visit step) s = s ∧ ∀ i ∈ entries, step i s.1 = none := by
  induction entries generalizing s with
  | nil => exact ⟨rfl, nofun⟩
  | cons i entries ih =>
    rw [List.foldl_cons] at h ⊢
    cases hi : step i s.1 with
    | some s' =>
      have hvisit : visit step s i = (s', true) := by
        unfold visit
        rw [hi]
      rw [hvisit, changed_of_true _ rfl] at h
      cases h
    | none =>
      have hvisit : visit step s i = s := by
        unfold visit
        rw [hi]
      rw [hvisit] at h ⊢
      obtain ⟨heq, hnone⟩ := ih s h
      exact ⟨heq, List.forall_mem_cons.mpr ⟨hi, hnone⟩⟩

theorem pass_unchanged (h : (pass step entries s).2 = false) :
    (pass step entries s).1 = s ∧ ∀ i ∈ entries, step i s = none := by
  obtain ⟨heq, hnone⟩ := foldl_unchanged (s, false) h
  exact ⟨congrArg Prod.fst heq, hnone⟩

private theorem foldl_measure (hstep : ∀ i s s', P s → step i s = some s' → P s' ∧ measure s' < measure s)
    (s : σ × Bool) (hs : P s.1) :
    P (entries.foldl (visit step) s).1 ∧ measure (entries.foldl (visit step) s).1 ≤ measure s.1 ∧
      (s.2 = false → (entries.foldl (visit step) s).2 = true →
        measure (entries.foldl (visit step) s).1 < measure s.1) := by
  induction entries generalizing s with
  | nil =>
    refine ⟨hs, le_rfl, fun hfalse htrue => ?_⟩
    rw [List.foldl_nil, hfalse] at htrue
    cases htrue
  | cons i entries ih =>
    rw [List.foldl_cons]
    cases hi : step i s.1 with
    | none =>
      have hvisit : visit step s i = s := by
        unfold visit
        rw [hi]
      rw [hvisit]
      exact ih s hs
    | some s' =>
      have hvisit : visit step s i = (s', true) := by
        unfold visit
        rw [hi]
      rw [hvisit]
      obtain ⟨hP, hlt⟩ := hstep i s.1 s' hs hi
      obtain ⟨hP', hle, -⟩ := ih (s', true) hP
      exact ⟨hP', hle.trans hlt.le, fun _ _ => hle.trans_lt hlt⟩

theorem pass_measure (entries : List ι)
    (hstep : ∀ i s s', P s → step i s = some s' → P s' ∧ measure s' < measure s) (hs : P s) :
    P (pass step entries s).1 ∧ ((pass step entries s).2 = true → measure (pass step entries s).1 < measure s) := by
  obtain ⟨hP, -, hlt⟩ := foldl_measure hstep (s, false) hs
  exact ⟨hP, hlt rfl⟩

theorem exists_repeatPass [WellFoundedLT β]
    (hstep : ∀ i s s', P s → step i s = some s' → P s' ∧ measure s' < measure s) (hs : P s) :
    ∃ fuel s', repeatPass step entries fuel s = some s' := by
  induction hm : measure s using WellFoundedLT.induction generalizing s with
  | ind b ih =>
    subst hm
    obtain ⟨hP, hlt⟩ := pass_measure entries hstep hs
    by_cases hchanged : (pass step entries s).2 = true
    · obtain ⟨fuel, s', hrun⟩ := ih _ (hlt hchanged) hP rfl
      exact ⟨fuel + 1, s', (if_pos hchanged).trans hrun⟩
    · exact ⟨1, _, if_neg hchanged⟩

theorem repeatPass_spec (hstep : ∀ i s s', P s → step i s = some s' → P s' ∧ measure s' < measure s) {fuel : Nat}
    (hs : P s) (h : repeatPass step entries fuel s = some s') : P s' ∧ ∀ i ∈ entries, step i s' = none := by
  induction fuel generalizing s with
  | zero => cases h
  | succ fuel ih =>
    unfold repeatPass at h
    dsimp only at h
    split at h
    · exact ih (pass_measure entries hstep hs).1 h
    · rename_i hchanged
      obtain ⟨heq, hnone⟩ := pass_unchanged (Bool.eq_false_iff.mpr hchanged)
      rw [heq] at h
      cases h
      exact ⟨hs, hnone⟩

theorem repeatPass_mono {fuel fuel' : Nat} (h : repeatPass step entries fuel s = some s') (hle : fuel ≤ fuel') :
    repeatPass step entries fuel' s = some s' := by
  induction fuel generalizing fuel' s with
  | zero => cases h
  | succ fuel ih =>
    obtain ⟨fuel', rfl⟩ := Nat.exists_eq_add_of_lt (Nat.lt_of_lt_of_le (Nat.succ_pos fuel) hle)
    unfold repeatPass at h ⊢
    dsimp only at h ⊢
    split at h
    · rename_i hchanged
      rw [if_pos hchanged]
      exact ih h (by omega)
    · rename_i hchanged
      rw [if_neg hchanged]
      exact h

theorem repeatPass_unique {fuel fuel' : Nat} {s₁ s₂ : σ} (h₁ : repeatPass step entries fuel s = some s₁)
    (h₂ : repeatPass step entries fuel' s = some s₂) : s₁ = s₂ := by
  have h₁' := repeatPass_mono h₁ (Nat.le_max_left fuel fuel')
  have h₂' := repeatPass_mono h₂ (Nat.le_max_right fuel fuel')
  exact Option.some.inj (h₁'.symm.trans h₂')

end Passes
