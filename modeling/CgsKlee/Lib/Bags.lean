import Mathlib.Data.List.Perm.Basic
import Mathlib.Data.List.Nodup
import Mathlib.Data.List.Dedup

/-!
# Containers as bags

A container of some kind is looked at through the list of its elements, up to their order.  A loop that puts elements
in, or takes elements out, one by one succeeds when every single step does (`foldlM_insert`, `foldlM_remove`), and
without duplicates a list is what is taken out of it and what is left (`perm_append_filter`).
-/

namespace Bags

variable {α β : Type}

theorem foldlM_remove (view : α → List β) {remove : α → β → Option α}
    (hremove : ∀ a b rest, (view a).Perm (b :: rest) → ∃ a', remove a b = some a' ∧ (view a').Perm rest)
    {a : α} {removed rest : List β} (h : (view a).Perm (removed ++ rest)) :
    ∃ a', removed.foldlM remove a = some a' ∧ (view a').Perm rest := by
  induction removed generalizing a with
  | nil => exact ⟨a, rfl, h⟩
  | cons b removed ih =>
    obtain ⟨a₁, hrun, hview⟩ := hremove a b _ h
    obtain ⟨a₂, hrun', hview'⟩ := ih hview
    exact ⟨a₂, by simp [List.foldlM_cons, hrun, hrun'], hview'⟩

theorem foldlM_insert (view : α → List β) (insert : α → β → Option α)
    (hinsert : ∀ a b, b ∉ view a → ∃ a', insert a b = some a' ∧ (view a').Perm (view a ++ [b]))
    {a : α} {added : List β} (h : (view a ++ added).Nodup) :
    ∃ a', added.foldlM insert a = some a' ∧ (view a').Perm (view a ++ added) := by
  induction added generalizing a with
  | nil => exact ⟨a, rfl, by rw [List.append_nil]⟩
  | cons b added ih =>
    have hnot : b ∉ view a := by
      intro hb
      exact (List.nodup_append.mp h).2.2 b hb b (by simp) rfl
    obtain ⟨a₁, hrun, hview⟩ := hinsert a b hnot
    have hperm : (view a₁ ++ added).Perm (view a ++ b :: added) := by
      have := hview.append_right added
      rwa [List.append_assoc, List.singleton_append] at this
    obtain ⟨a₂, hrun', hview'⟩ := ih (hperm.nodup_iff.mpr h)
    exact ⟨a₂, by simp [List.foldlM_cons, hrun, hrun'], hview'.trans hperm⟩

section Decidable

variable [DecidableEq β]

theorem perm_append_filter {l removed : List β} (hl : l.Nodup) (hr : removed.Nodup) (hsub : ∀ b ∈ removed, b ∈ l) :
    l.Perm (removed ++ l.filter fun b => b ∉ removed) := by
  have hnodup : (removed ++ l.filter fun b => b ∉ removed).Nodup := by
    refine List.nodup_append.mpr ⟨hr, hl.filter _, ?_⟩
    rintro a ha b hb rfl
    simp [ha] at hb
  rw [List.perm_ext_iff_of_nodup hl hnodup]
  intro b
  simp only [List.mem_append, List.mem_filter, decide_eq_true_eq]
  constructor
  · intro hb
    by_cases hbr : b ∈ removed
    · exact .inl hbr
    · exact .inr ⟨hb, hbr⟩
  · rintro (hb | ⟨hb, -⟩)
    · exact hsub b hb
    · exact hb

end Decidable

theorem mapM_of_forall {f : α → Option β} {P : β → Prop} {l : List α} (h : ∀ a ∈ l, ∃ b, f a = some b ∧ P b) :
    ∃ l', l.mapM f = some l' ∧ l'.length = l.length ∧ ∀ b ∈ l', P b := by
  induction l with
  | nil => exact ⟨[], rfl, rfl, by simp⟩
  | cons a l ih =>
    obtain ⟨b, hb, hP⟩ := h a (by simp)
    obtain ⟨l', hl', hlen, hall⟩ := ih fun a ha => h a (by simp [ha])
    refine ⟨b :: l', by simp [List.mapM_cons, hb, hl'], by simp [hlen], ?_⟩
    intro x hx
    obtain rfl | hx := List.mem_cons.mp hx
    · exact hP
    · exact hall x hx

end Bags
