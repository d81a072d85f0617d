import Mathlib.Logic.Relation

/-!
# Forests given by parents

A forest is a map from nodes to their parents.  `Up parent a b` says that `b` is `a` or an ancestor of `a`.  The
rules say how `Up` changes with the forest: it does not when the parents of all ancestors stay
(`up_congr`), and contracting a node that has one child keeps it between the other nodes (`up_contract`).
-/

namespace Forest

open Relation

variable {α : Type}

def Up (parent : α → Option α) : α → α → Prop := ReflTransGen fun a b => parent a = some b

variable {parent parent' : α → Option α} {a b c n p : α}

theorem up_refl (parent : α → Option α) (a : α) : Up parent a a := .refl

theorem Up.trans (h : Up parent a b) (h' : Up parent b c) : Up parent a c := ReflTransGen.trans h h'

theorem up_parent (h : parent a = some b) : Up parent a b := .single h

theorem up_iff_head : Up parent a c ↔ a = c ∨ ∃ b, parent a = some b ∧ Up parent b c := by
  rw [Up, ReflTransGen.cases_head_iff]

theorem up_iff_tail : Up parent a c ↔ c = a ∨ ∃ b, Up parent a b ∧ parent b = some c := by
  rw [Up, ReflTransGen.cases_tail_iff]

theorem up_root (h : parent a = none) : Up parent a b ↔ a = b := by
  rw [up_iff_head]
  simp [h]

theorem up_congr (h : ∀ x, Up parent a x → parent' x = parent x) : Up parent' a c ↔ Up parent a c := by
  constructor
  · intro hup
    induction hup with
    | refl => exact .refl
    | tail _ hstep ih => exact ih.tail ((h _ ih).symm.trans hstep)
  · intro hup
    induction hup with
    | refl => exact .refl
    | tail hup hstep ih => exact ih.tail ((h _ hup).trans hstep)

theorem up_of_leaf (h : ∀ x, parent x ≠ some n) : Up parent a n ↔ a = n := by
  rw [up_iff_tail]
  constructor
  · rintro (rfl | ⟨b, -, hb⟩)
    · rfl
    · exact absurd hb (h b)
  · rintro rfl
    exact .inl rfl

theorem up_contract (hc : parent c = some n) (honly : ∀ x, parent x = some n → x = c) (hn : parent n ≠ some n)
    (hnew : parent' c = parent n) (hold : ∀ x, x ≠ c → x ≠ n → parent' x = parent x) (ha : a ≠ n) (hb : b ≠ n) :
    Up parent' a b ↔ Up parent a b := by
  constructor
  · intro hup
    -- a step of the new forest is one or two steps of the old one, and never ends in `n`
    have hstep : ∀ {x y}, x ≠ n → parent' x = some y → Up parent x y ∧ y ≠ n := by
      intro x y hx hxy
      by_cases hxc : x = c
      · subst hxc
        rw [hnew] at hxy
        refine ⟨(up_parent hc).trans (up_parent hxy), ?_⟩
        rintro rfl
        exact hn hxy
      · rw [hold x hxc hx] at hxy
        refine ⟨up_parent hxy, ?_⟩
        rintro rfl
        exact hxc (honly x hxy)
    have hboth : Up parent a b ∧ b ≠ n := by
      clear hb
      induction hup with
      | refl => exact ⟨.refl, ha⟩
      | tail _ hxy ih =>
        obtain ⟨hup, hne⟩ := hstep ih.2 hxy
        exact ⟨ih.1.trans hup, hne⟩
    exact hboth.1
  · intro hup
    -- by induction from the top; from `n` itself the walk goes on at its parent
    have hboth : (a ≠ n → Up parent' a b) ∧ (a = n → ∃ p, parent n = some p ∧ Up parent' p b) := by
      clear ha
      induction hup using ReflTransGen.head_induction_on with
      | refl => exact ⟨fun _ => .refl, fun h => absurd h hb⟩
      | @head x y hxy _ ih =>
        refine ⟨?_, ?_⟩
        · intro hx
          by_cases hy : y = n
          · subst hy
            obtain rfl := honly x hxy
            obtain ⟨p, hp, hup⟩ := ih.2 rfl
            exact ReflTransGen.head (hnew.trans hp) hup
          · have hxc : x ≠ c := by
              rintro rfl
              rw [hc, Option.some.injEq] at hxy
              exact hy hxy.symm
            exact ReflTransGen.head ((hold x hxc hx).trans hxy) (ih.1 hy)
        · rintro rfl
          have hy : y ≠ x := by
            rintro rfl
            exact hn hxy
          exact ⟨y, hxy, ih.1 hy⟩
    exact hboth.1 ha

end Forest
