import Mathlib.Data.List.Perm.Basic

/-!
# Loops that erase while they iterate

A loop over a vector that erases some of the entries it visits and pushes them to another vector is a `sweep`:
it splits the vector into the entries that stay and the entries that leave, both in their old order, and threads
a state through the visits.  A loop that may stop with an error and only threads a state is `List.foldlM` in
`Option`.  For both there are two rules: the entries are kept (`sweep_perm`), and a reflexive and transitive
relation that holds across one visit holds across the loop (`sweep_rel`, `foldlM_rel`).
-/

namespace Loops

variable {α σ : Type}

/-- Visit the entries in order; an entry for which `visit` answers `true` leaves the vector.  The result is the
list of entries that stay, the list of entries that left, and the final state. -/
def sweep (visit : σ → α → Option (Bool × σ)) : List α → σ → Option (List α × List α × σ)
  | [], s => some ([], [], s)
  | a :: l, s =>
    match visit s a with
    | none => none
    | some (out, s') =>
      match sweep visit l s' with
      | none => none
      | some (kept, moved, s'') =>
        if out then some (kept, a :: moved, s'') else some (a :: kept, moved, s'')

theorem sweep_cons_eq_some {visit : σ → α → Option (Bool × σ)} {a : α} {l kept moved : List α} {s s'' : σ}
    (h : sweep visit (a :: l) s = some (kept, moved, s'')) :
    ∃ out s' kept' moved', visit s a = some (out, s') ∧ sweep visit l s' = some (kept', moved', s'') ∧
      kept = (if out then kept' else a :: kept') ∧ moved = (if out then a :: moved' else moved') := by
  simp only [sweep] at h
  split at h
  · cases h
  · rename_i out s' hv
    split at h
    · cases h
    · rename_i kept' moved' s₂ hs
      refine ⟨out, s', kept', moved', hv, ?_, ?_⟩
      · cases out <;> simp only [Bool.false_eq_true, if_false, if_true, Option.some.injEq, Prod.mk.injEq] at h <;>
          rw [hs, h.2.2]
      · cases out <;> simp at h <;> simp [← h.1, ← h.2.1]

theorem sweep_perm {visit : σ → α → Option (Bool × σ)} {l kept moved : List α} {s s' : σ}
    (h : sweep visit l s = some (kept, moved, s')) : (kept ++ moved).Perm l := by
  induction l generalizing s kept moved with
  | nil =>
    cases h
    exact List.Perm.refl _
  | cons a l ih =>
    obtain ⟨out, s₁, kept', moved', -, hs, rfl, rfl⟩ := sweep_cons_eq_some h
    cases out
    · exact (ih hs).cons a
    · exact List.perm_middle.trans ((ih hs).cons a)

theorem sweep_rel {visit : σ → α → Option (Bool × σ)} (R : σ → σ → Prop) (hrefl : ∀ s, R s s)
    (htrans : ∀ {s₁ s₂ s₃}, R s₁ s₂ → R s₂ s₃ → R s₁ s₃) {l kept moved : List α} {s s' : σ}
    (hv : ∀ a ∈ l, ∀ out s₁ s₂, visit s₁ a = some (out, s₂) → R s₁ s₂)
    (h : sweep visit l s = some (kept, moved, s')) : R s s' := by
  induction l generalizing s kept moved with
  | nil =>
    cases h
    exact hrefl _
  | cons a l ih =>
    obtain ⟨out, s₁, kept', moved', hvis, hs, -, -⟩ := sweep_cons_eq_some h
    exact htrans (hv a (by simp) _ _ _ hvis) (ih (fun b hb => hv b (by simp [hb])) hs)

theorem sweep_isSome (visit : σ → α → Option (Bool × σ)) (P : σ → Prop) {l : List α} {s : σ}
    (hv : ∀ a ∈ l, ∀ s₁, P s₁ → ∃ out s₂, visit s₁ a = some (out, s₂) ∧ P s₂) (hs : P s) :
    ∃ kept moved s', sweep visit l s = some (kept, moved, s') ∧ P s' := by
  induction l generalizing s with
  | nil => exact ⟨[], [], s, rfl, hs⟩
  | cons a l ih =>
    obtain ⟨out, s₁, hvis, hs₁⟩ := hv a (by simp) s hs
    obtain ⟨kept, moved, s₂, hsw, hs₂⟩ := ih (fun b hb => hv b (by simp [hb])) hs₁
    cases out
    · exact ⟨a :: kept, moved, s₂, by simp [sweep, hvis, hsw], hs₂⟩
    · exact ⟨kept, a :: moved, s₂, by simp [sweep, hvis, hsw], hs₂⟩

theorem mem_eraseP_iff {f : α → Bool} {l : List α} {a q : α} (hl : l.Nodup) (ha : l.find? f = some a) :
    q ∈ l.eraseP f ↔ q ∈ l ∧ q ≠ a := by
  induction l with
  | nil => cases ha
  | cons b l ih =>
    obtain ⟨hb, hl⟩ := List.nodup_cons.mp hl
    by_cases hf : f b = true
    · rw [List.find?_cons_of_pos hf] at ha
      obtain rfl := Option.some.inj ha
      rw [List.eraseP_cons_of_pos hf, List.mem_cons]
      constructor
      · intro hq
        refine ⟨.inr hq, ?_⟩
        rintro rfl
        exact hb hq
      · rintro ⟨rfl | hq, hne⟩
        · exact absurd rfl hne
        · exact hq
    · rw [List.find?_cons_of_neg hf] at ha
      rw [List.eraseP_cons_of_neg hf, List.mem_cons, List.mem_cons, ih hl ha]
      have hba : b ≠ a := by
        rintro rfl
        exact hb (List.mem_of_find?_eq_some ha)
      constructor
      · rintro (rfl | ⟨hq, hne⟩)
        · exact ⟨.inl rfl, hba⟩
        · exact ⟨.inr hq, hne⟩
      · rintro ⟨rfl | hq, hne⟩
        · exact .inl rfl
        · exact .inr ⟨hq, hne⟩

theorem not_of_mem_eraseP {f : α → Bool} {l : List α} (h : l.countP f ≤ 1) {b : α}
    (hb : b ∈ l.eraseP f) : ¬ f b = true := by
  induction l with
  | nil => cases hb
  | cons a l ih =>
    by_cases ha : f a = true
    · rw [List.countP_cons_of_pos ha] at h
      have hzero : l.countP f = 0 := by omega
      rw [List.eraseP_cons_of_pos ha] at hb
      exact List.countP_eq_zero.mp hzero b hb
    · rw [List.countP_cons_of_neg ha] at h
      rw [List.eraseP_cons_of_neg ha] at hb
      rcases List.mem_cons.mp hb with he | hb
      · rw [he]
        exact ha
      · exact ih h hb

theorem exists_mem_eraseP {f : α → Bool} {l : List α} (h : ¬ l.countP f ≤ 1) : ∃ b ∈ l.eraseP f, f b = true := by
  induction l with
  | nil => simp at h
  | cons a l ih =>
    by_cases ha : f a = true
    · rw [List.countP_cons_of_pos ha] at h
      have hpos : 0 < l.countP f := by omega
      rw [List.eraseP_cons_of_pos ha]
      exact List.countP_pos_iff.mp hpos
    · rw [List.countP_cons_of_neg ha] at h
      obtain ⟨b, hb, hf⟩ := ih h
      rw [List.eraseP_cons_of_neg ha]
      exact ⟨b, List.mem_cons_of_mem a hb, hf⟩

theorem foldlM_rel {f : σ → α → Option σ} (R : σ → σ → Prop) (hrefl : ∀ s, R s s)
    (htrans : ∀ {s₁ s₂ s₃}, R s₁ s₂ → R s₂ s₃ → R s₁ s₃) {l : List α} {s s' : σ}
    (hf : ∀ a ∈ l, ∀ s₁ s₂, f s₁ a = some s₂ → R s₁ s₂) (h : l.foldlM f s = some s') : R s s' := by
  induction l generalizing s with
  | nil =>
    simp only [List.foldlM_nil, Option.pure_def, Option.some.injEq] at h
    subst h
    exact hrefl s
  | cons a l ih =>
    simp only [List.foldlM_cons, Option.bind_eq_bind, Option.bind_eq_some_iff] at h
    obtain ⟨s₁, h₁, h₂⟩ := h
    exact htrans (hf a (by simp) _ _ h₁) (ih (fun b hb => hf b (by simp [hb])) h₂)

theorem foldlM_isSome {f : σ → α → Option σ} (P : σ → Prop) {l : List α} {s : σ}
    (hf : ∀ a ∈ l, ∀ s₁, P s₁ → ∃ s₂, f s₁ a = some s₂ ∧ P s₂) (hs : P s) :
    ∃ s', l.foldlM f s = some s' ∧ P s' := by
  induction l generalizing s with
  | nil => exact ⟨s, rfl, hs⟩
  | cons a l ih =>
    obtain ⟨s₁, h₁, hs₁⟩ := hf a (by simp) s hs
    obtain ⟨s₂, h₂, hs₂⟩ := ih (fun b hb => hf b (by simp [hb])) hs₁
    exact ⟨s₂, by simp [List.foldlM_cons, h₁, h₂], hs₂⟩

theorem foldlM_collect {β : Type} {f : σ → α → Option σ} (P : σ → Prop) (mem : σ → β → Prop) (new : α → β → Prop)
    {l : List α} {s : σ}
    (hf : ∀ a ∈ l, ∀ s₁, P s₁ → ∃ s₂, f s₁ a = some s₂ ∧ P s₂ ∧ ∀ b, mem s₂ b ↔ mem s₁ b ∨ new a b) (hs : P s) :
    ∃ s', l.foldlM f s = some s' ∧ P s' ∧ ∀ b, mem s' b ↔ mem s b ∨ ∃ a ∈ l, new a b := by
  induction l generalizing s with
  | nil => exact ⟨s, rfl, hs, by simp⟩
  | cons a l ih =>
    obtain ⟨s₁, h₁, hs₁, hm₁⟩ := hf a (by simp) s hs
    obtain ⟨s₂, h₂, hs₂, hm₂⟩ := ih (fun b hb => hf b (by simp [hb])) hs₁
    refine ⟨s₂, by simp [List.foldlM_cons, h₁, h₂], hs₂, fun b => ?_⟩
    rw [hm₂ b, hm₁ b]
    simp only [List.mem_cons, exists_eq_or_imp, or_assoc]

theorem foldlM_groups {β : Type} (f : σ → β × α → Option σ) (groups : List (β × List α)) (s : σ) :
    groups.foldlM (fun s g => g.2.foldlM (fun s a => f s (g.1, a)) s) s =
      (groups.flatMap fun g => g.2.map (g.1, ·)).foldlM f s := by
  induction groups generalizing s with
  | nil => rfl
  | cons g groups ih =>
    rw [List.foldlM_cons, List.flatMap_cons, List.foldlM_append, List.foldlM_map]
    exact congrArg _ (funext ih)

variable {β γ : Type} {R : α → β → Prop}

theorem mapM_forall₂ {f : α → Option β} {l : List α} {l' : List β} (h : l.mapM f = some l') :
    List.Forall₂ (fun a b => f a = some b) l l' := by
  induction l generalizing l' with
  | nil =>
    simp only [List.mapM_nil, Option.pure_def, Option.some.injEq] at h
    subst h
    exact .nil
  | cons a l ih =>
    simp only [List.mapM_cons, Option.bind_eq_bind, Option.pure_def, Option.bind_eq_some_iff, Option.some.injEq] at h
    obtain ⟨b, hb, bs, hbs, rfl⟩ := h
    exact .cons hb (ih hbs)

theorem map_eq_of_forall₂ {f : α → γ} {g : β → γ} {l : List α} {l' : List β}
    (h : List.Forall₂ (fun a b => f a = g b) l l') : l.map f = l'.map g := by
  induction h with
  | nil => rfl
  | cons hab _ ih => rw [List.map_cons, List.map_cons, hab, ih]

theorem exists_of_forall₂ {l : List α} {l' : List β} (h : List.Forall₂ R l l') {b : β} (hb : b ∈ l') :
    ∃ a ∈ l, R a b := by
  induction h with
  | nil => cases hb
  | cons hab _ ih =>
    rcases List.mem_cons.1 hb with rfl | hb
    · exact ⟨_, List.mem_cons_self, hab⟩
    · obtain ⟨a, ha, hr⟩ := ih hb
      exact ⟨a, List.mem_cons_of_mem _ ha, hr⟩

theorem forall_of_forall₂ {S : α → β → Prop} {P : α → Prop} {l : List α} {l' : List β} (h : List.Forall₂ R l l')
    (h' : List.Forall₂ S l l') (hP : ∀ a b, R a b → S a b → P a) : ∀ a ∈ l, P a := by
  induction h with
  | nil => exact fun a ha => absurd ha List.not_mem_nil
  | cons hab _ ih =>
    cases h' with
    | cons hab' htail =>
      intro a ha
      rcases List.mem_cons.1 ha with rfl | ha
      · exact hP _ _ hab hab'
      · exact ih htail a ha

theorem forall₂_mem {l : List α} {l' : List β} (h : List.Forall₂ R l l') :
    List.Forall₂ (fun a b => a ∈ l ∧ R a b) l l' := by
  induction h with
  | nil => exact .nil
  | cons hab _ ih =>
    refine .cons ⟨List.mem_cons_self, hab⟩ (ih.imp fun a b hR => ?_)
    exact ⟨List.mem_cons_of_mem _ hR.1, hR.2⟩

theorem zip_of_forall₂_map {f : γ → α} {l : List γ} {l' : List β} (h : List.Forall₂ R (l.map f) l') :
    ∀ p ∈ l.zip l', R (f p.1) p.2 := by
  induction l generalizing l' with
  | nil => simp
  | cons c l ih =>
    rw [List.map_cons] at h
    cases h with
    | cons hab htail =>
      intro p hp
      rcases List.mem_cons.1 hp with rfl | hp
      · exact hab
      · exact ih htail p hp

end Loops
