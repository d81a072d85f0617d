import CgsKlee.Expr.Constraints
import CgsKlee.Expr.VisitorSound
import Mathlib.Data.Prod.Lex

/-!
# Adding a constraint keeps the right models

A constraint holds, fails or has no value under an assignment.  Replacing constraints by others is right if it keeps
that all hold and that one fails (`ConstraintSet.Replaces`); constraints without a value may become anything.  When an
equality rewrites the set, a constraint keeps its value where the equality holds, and it is not touched where it has a
value although the equality has none; where the equality fails, it is itself a constraint that fails.
-/

namespace CgsKlee

open Expr ConstantExpr

def Expr.HoldsAt (m : Valuation) (e : Expr) : Prop := e.Defined m ∧ e.eval m = .ofBool true

def Expr.FailsAt (m : Valuation) (e : Expr) : Prop := e.Defined m ∧ e.eval m ≠ .ofBool true

namespace ConstraintSet

def HoldsAt (m : Valuation) (C : ConstraintSet) : Prop := ∀ e ∈ C, e.HoldsAt m

def FailsAt (m : Valuation) (C : ConstraintSet) : Prop := ∃ e ∈ C, e.FailsAt m

def Typed (C : ConstraintSet) : Prop := ∀ e ∈ C, e.WellTyped ∧ e.width = 1

/-- `D` may take the place of `C` under assignments in `H`, and keeps a failure also under those in `U`. -/
structure ReplacesOn (H U : Valuation → Prop) (C D : ConstraintSet) : Prop where
  typed : D.Typed
  holds : ∀ m, H m → C.HoldsAt m → D.HoldsAt m
  fails : ∀ m, H m ∨ U m → C.FailsAt m → D.FailsAt m

def Replaces (C D : ConstraintSet) : Prop := ReplacesOn (fun _ => True) (fun _ => True) C D

variable {H U : Valuation → Prop} {B C D E : ConstraintSet} {m : Valuation} {e e' : Expr}

theorem ReplacesOn.refl (h : C.Typed) : ReplacesOn H U C C := ⟨h, fun _ _ h => h, fun _ _ h => h⟩

theorem ReplacesOn.trans (h : ReplacesOn H U C D) (h' : ReplacesOn H U D E) : ReplacesOn H U C E where
  typed := h'.typed
  holds m hm hC := h'.holds m hm (h.holds m hm hC)
  fails m hm hC := h'.fails m hm (h.fails m hm hC)

theorem Replaces.replacesOn (h : Replaces C D) : ReplacesOn H U C D :=
  ⟨h.typed, fun m _ => h.holds m trivial, fun m _ => h.fails m (Or.inl trivial)⟩

theorem holdsAt_append : HoldsAt m (C ++ D) ↔ HoldsAt m C ∧ HoldsAt m D := by
  exact List.forall_mem_append

theorem failsAt_append : FailsAt m (C ++ D) ↔ FailsAt m C ∨ FailsAt m D := by
  simp only [FailsAt, List.mem_append, or_and_right, exists_or]

theorem typed_append : Typed (C ++ D) ↔ Typed C ∧ Typed D := by
  exact List.forall_mem_append

theorem holdsAt_singleton : HoldsAt m [e] ↔ e.HoldsAt m := by simp [HoldsAt]

theorem failsAt_singleton : FailsAt m [e] ↔ e.FailsAt m := by simp [FailsAt]

theorem typed_singleton : Typed [e] ↔ e.WellTyped ∧ e.width = 1 := by simp [Typed]

theorem ReplacesOn.append (h : ReplacesOn H U B C) (h' : ReplacesOn H U D E) : ReplacesOn H U (B ++ D) (C ++ E) where
  typed := typed_append.mpr ⟨h.typed, h'.typed⟩
  holds m hm hBD := by
    rw [holdsAt_append] at hBD ⊢
    exact ⟨h.holds m hm hBD.1, h'.holds m hm hBD.2⟩
  fails m hm hBD := by
    rw [failsAt_append] at hBD ⊢
    exact hBD.imp (h.fails m hm) (h'.fails m hm)

theorem replacesOn_visited (he : e.width = 1) (h : Visitor.Simplifies H U e e') : ReplacesOn H U [e] [e'] where
  typed := typed_singleton.mpr ⟨h.refines.wellTyped, h.refines.width.trans he⟩
  holds m hm := by
    rw [holdsAt_singleton, holdsAt_singleton]
    rintro ⟨hd, hv⟩
    exact ⟨h.refines.defined m hm hd, (h.refines.eval m hm fun _ => hd).trans hv⟩
  fails m hm := by
    rw [failsAt_singleton, failsAt_singleton]
    rintro ⟨hd, hv⟩
    rcases hm with hm | hm
    · refine ⟨h.refines.defined m hm hd, ?_⟩
      rw [h.refines.eval m hm fun _ => hd]
      exact hv
    · rw [h.unchanged m hm hd]
      exact ⟨hd, hv⟩

theorem eval_and_eq_true {l r : Expr} (hl : l.WellTyped) (hr : r.WellTyped) (hwl : l.width = 1) (hwr : r.width = 1) :
    (Expr.binary .and l r).eval m = .ofBool true ↔ l.eval m = .ofBool true ∧ r.eval m = .ofBool true := by
  obtain ⟨x, y, hx, hy⟩ := exists_bits hl hr hwl hwr m
  simp only [Expr.eval, hx, hy, APInt.map₂_mk, APInt.ofBool, APInt.mk.injEq, heq_eq_eq, true_and]
  clear hx hy
  revert x y
  decide

theorem replaces_and {l r : Expr} (h : Typed [.binary .and l r]) : Replaces [.binary .and l r] [l, r] := by
  obtain ⟨⟨hl, hr, hw⟩, hwl⟩ := typed_singleton.mp h
  have hwl : l.width = 1 := hwl
  have hwr : r.width = 1 := hw.symm.trans hwl
  have hval := fun m => eval_and_eq_true (m := m) hl hr hwl hwr
  refine ⟨?_, ?_, ?_⟩
  · rw [← List.singleton_append, typed_append, typed_singleton, typed_singleton]
    exact ⟨⟨hl, hwl⟩, hr, hwr⟩
  · intro m _ hm
    rw [← List.singleton_append, holdsAt_append, holdsAt_singleton, holdsAt_singleton]
    obtain ⟨⟨hdl, hdr, -⟩, hv⟩ := holdsAt_singleton.mp hm
    rw [hval] at hv
    exact ⟨⟨hdl, hv.1⟩, hdr, hv.2⟩
  · intro m _ hm
    rw [← List.singleton_append, failsAt_append, failsAt_singleton, failsAt_singleton]
    obtain ⟨⟨hdl, hdr, -⟩, hv⟩ := failsAt_singleton.mp hm
    rw [ne_eq, hval, not_and_or] at hv
    exact hv.imp (fun h => ⟨hdl, h⟩) fun h => ⟨hdr, h⟩

end ConstraintSet

theorem eval_eq_constant {c : APInt} {right : Expr} {m : Valuation} (h : (Expr.cmp .eq (.constant c) right).WellTyped) :
    (Expr.cmp .eq (.constant c) right).eval m = .ofBool true ↔ right.eval m = c := by
  obtain ⟨-, hright, hw⟩ := h
  have hwidth : c.width = (right.eval m).width := (hw : c.width = right.width).trans (right.width_eval m hright).symm
  simp only [Expr.eval]
  rw [CmpKind.rel₂_eq hwidth]
  by_cases h : c = right.eval m
  · simp [h]
  · simp only [h, decide_false]
    constructor
    · intro heq
      exact absurd heq (by decide)
    · intro heq
      exact absurd heq.symm h

theorem exprReplaceVisitor_sound {c : APInt} {right : Expr} (hw : c.width = right.width) :
    (ExprReplaceVisitor right c).Sound (fun m => right.eval m = c) (fun m => ¬right.Defined m) := by
  have hmatch : ∀ {e : Expr} {c' : APInt}, (ExprReplaceVisitor right c).visitExpr e = some c' ∨
      (ExprReplaceVisitor right c).visitExprPost e = some c' → e = right ∧ c' = c := by
    intro e c' h
    have h : (if e = right then some c else none) = some c' := h.elim id id
    split at h
    · rename_i he
      exact ⟨he, (Option.some.inj h).symm⟩
    · simp at h
  refine ⟨fun h => ?_, fun h hm => ?_, fun h hm => ?_⟩
  · obtain ⟨rfl, rfl⟩ := hmatch h
    exact hw
  · obtain ⟨rfl, rfl⟩ := hmatch h
    exact hm
  · obtain ⟨rfl, rfl⟩ := hmatch h
    exact hm

namespace ConstraintManager

theorem equality_spec {e : Expr} (he : e.WellTyped) (hw : e.width = 1) :
    (equality e).2.width = (equality e).1.width ∧
      ∀ m, e.eval m = .ofBool true → (equality e).1.eval m = (equality e).2 := by
  unfold equality
  split
  · exact ⟨he.2.2, fun m hm => (eval_eq_constant he).mp hm⟩
  · exact ⟨hw.symm, fun _ hm => hm⟩

theorem exprReplaceVisitor2_sound {C : ConstraintSet} (hC : C.Typed) :
    (ExprReplaceVisitor2 (C.map equality)).Sound (fun m => ∀ e ∈ C, e.eval m = .ofBool true) (fun _ => False) := by
  have hmatch : ∀ {e : Expr} {c : APInt}, (ExprReplaceVisitor2 (C.map equality)).visitExpr e = some c ∨
      (ExprReplaceVisitor2 (C.map equality)).visitExprPost e = some c → ∃ x ∈ C, equality x = (e, c) := by
    intro e c h
    have h : (C.map equality).lookup e = some c := h.elim (fun h => nomatch h) id
    obtain ⟨l₁, l₂, hl, -⟩ := List.lookup_eq_some_iff.mp h
    exact List.mem_map.mp (hl ▸ by simp)
  refine ⟨fun h => ?_, fun h hm => ?_, fun _ hm => hm.elim⟩
  · obtain ⟨x, hx, heq⟩ := hmatch h
    have := (equality_spec (hC x hx).1 (hC x hx).2).1
    rwa [heq] at this
  · obtain ⟨x, hx, heq⟩ := hmatch h
    have := (equality_spec (hC x hx).1 (hC x hx).2).2 _ (hm x hx)
    rwa [heq] at this

section Options

variable (constArrayOpt useVisitorHash rewriteEqualities : Bool)

variable {C : ConstraintSet} {m₀ : Valuation}

/-- `simplifyExpr` succeeds if the constraints hold somewhere where the expression has a value, and its result has the
value of the expression wherever the constraints hold. -/
theorem simplifyExpr_spec (hC : C.Typed) {e : Expr} (he : e.WellTyped)
    (h₀ : ∀ e ∈ C, e.eval m₀ = .ofBool true) (hd : e.Defined m₀) :
    ∃ e', simplifyExpr constArrayOpt useVisitorHash C e = some e' ∧
      e.RefinesOn true (fun m => ∀ e ∈ C, e.eval m = .ofBool true) e' := by
  unfold simplifyExpr
  split
  · exact ⟨e, rfl, .refl he⟩
  · obtain ⟨v, visited, hv, hsimp, -⟩ := (exprReplaceVisitor2_sound hC).visit constArrayOpt useVisitorHash h₀
      VisitedMap.holds_nil he hd
    simp only [hv, Option.bind_eq_bind, Option.bind_some]
    exact ⟨v.1, rfl, hsimp.refines⟩

def Adds (C : ConstraintSet) (e : Expr) : Prop :=
  ConstraintSet.Typed (C ++ [e]) → (∃ m, ConstraintSet.HoldsAt m (C ++ [e])) →
    ∃ C', addConstraintInternal constArrayOpt useVisitorHash rewriteEqualities C e = some C' ∧
      ConstraintSet.Replaces (C ++ [e]) C'.1

def Rewrites (C old : ConstraintSet) : Prop :=
  ∀ {visitor : Visitor} {visited : VisitedMap} {H U : Valuation → Prop}, visitor.Sound H U →
    visited.Holds (Visitor.Simplifies H U) → ConstraintSet.Typed (C ++ old) →
    (∃ m, H m ∧ ConstraintSet.HoldsAt m (C ++ old)) →
    ∃ C', rewriteConstraints constArrayOpt useVisitorHash rewriteEqualities visitor visited C old = some C' ∧
      ConstraintSet.ReplacesOn H U (C ++ old) C'.1

variable {constArrayOpt useVisitorHash rewriteEqualities}

theorem adds_constant {c : APInt} :
    Adds constArrayOpt useVisitorHash rewriteEqualities C (.constant c) := by
  rintro htyped ⟨m, hm⟩
  rw [ConstraintSet.typed_append] at htyped
  obtain ⟨-, hc⟩ : (Expr.constant c).HoldsAt m :=
    ConstraintSet.holdsAt_singleton.mp (ConstraintSet.holdsAt_append.mp hm).2
  obtain rfl : c = .ofBool true := hc
  refine ⟨⟨C, Nat.le_add_right _ _⟩, ?_, htyped.1, fun m _ h => (ConstraintSet.holdsAt_append.mp h).1, ?_⟩
  · unfold addConstraintInternal
    exact if_pos (isTrue_ofBool true)
  · intro m _ h
    rcases ConstraintSet.failsAt_append.mp h with h | h
    · exact h
    · exact absurd rfl (ConstraintSet.failsAt_singleton.mp h).2

theorem Adds.and {l r : Expr}
    (hl : Adds constArrayOpt useVisitorHash rewriteEqualities C l)
    (hr : ∀ C₁ : ConstraintSet, C₁.weight ≤ C.weight + l.weight →
      Adds constArrayOpt useVisitorHash rewriteEqualities C₁ r) :
    Adds constArrayOpt useVisitorHash rewriteEqualities C (.binary .and l r) := by
  rintro htyped ⟨m, hm⟩
  have hand : ConstraintSet.Replaces (C ++ [.binary .and l r]) (C ++ [l] ++ [r]) := by
    rw [ConstraintSet.typed_append] at htyped
    rw [List.append_assoc]
    exact (ConstraintSet.ReplacesOn.refl htyped.1).append (ConstraintSet.replaces_and htyped.2)
  have hm := hand.holds m trivial hm
  have htyped := ConstraintSet.typed_append.mp hand.typed
  obtain ⟨C₁, hC₁, hrep₁⟩ := hl htyped.1 ⟨m, (ConstraintSet.holdsAt_append.mp hm).1⟩
  have hrep : ConstraintSet.Replaces (C ++ [l] ++ [r]) (C₁.1 ++ [r]) := hrep₁.append (.refl htyped.2)
  obtain ⟨C₂, hC₂, hrep₂⟩ := hr C₁.1 C₁.2 hrep.typed ⟨m, hrep.holds m trivial hm⟩
  refine ⟨⟨C₂.1, ?_⟩, ?_, (hand.trans hrep).trans hrep₂⟩
  · have := C₁.2
    have := C₂.2
    simp only [Expr.weight]
    omega
  · unfold addConstraintInternal
    simp only [hC₁, hC₂, Option.bind_eq_bind, Option.bind_some]

theorem Rewrites.eq {c : APInt} {right : Expr}
    (h : Rewrites constArrayOpt useVisitorHash true [] C) :
    Adds constArrayOpt useVisitorHash true C (.cmp .eq (.constant c) right) := by
  rintro htyped ⟨m, hm⟩
  rw [ConstraintSet.typed_append, ConstraintSet.typed_singleton] at htyped
  obtain ⟨hC, heq, -⟩ := htyped
  have hvalue : ∀ {m}, (Expr.cmp .eq (.constant c) right).eval m = .ofBool true ↔ right.eval m = c :=
    eval_eq_constant heq
  have hholds := ConstraintSet.holdsAt_append.mp hm
  have hright := hvalue.mp (ConstraintSet.holdsAt_singleton.mp hholds.2).2
  obtain ⟨C', hC', hrep⟩ := h (exprReplaceVisitor_sound heq.2.2) VisitedMap.holds_nil hC ⟨m, hright, hholds.1⟩
  refine ⟨⟨C'.1 ++ [.cmp .eq (.constant c) right], ?_⟩, ?_, ?_, ?_, ?_⟩
  · have := C'.2
    simp at this ⊢
    omega
  · unfold addConstraintInternal
    simp only [hC', if_true, Option.bind_eq_bind, Option.bind_some]
  · exact ConstraintSet.typed_append.mpr ⟨hrep.typed, ConstraintSet.typed_singleton.mpr ⟨heq, rfl⟩⟩
  · intro m _ hm
    rw [ConstraintSet.holdsAt_append] at hm ⊢
    exact ⟨hrep.holds m (hvalue.mp (ConstraintSet.holdsAt_singleton.mp hm.2).2) hm.1, hm.2⟩
  · intro m _ hm
    rw [ConstraintSet.failsAt_append] at hm ⊢
    rcases hm with hm | hm
    · -- the equality holds, fails, or has no value
      by_cases hd : right.Defined m
      · by_cases hv : right.eval m = c
        · exact Or.inl (hrep.fails m (Or.inl hv) hm)
        · refine Or.inr (ConstraintSet.failsAt_singleton.mpr ⟨⟨trivial, hd⟩, ?_⟩)
          rw [ne_eq, hvalue]
          exact hv
      · exact Or.inl (hrep.fails m (Or.inr hd) hm)
    · exact Or.inr hm

theorem Rewrites.cons {C old : ConstraintSet} {ce : Expr}
    (hunchanged : Rewrites constArrayOpt useVisitorHash rewriteEqualities (C ++ [ce]) old)
    (hadds : ∀ e : Expr, e.weight < ce.weight → Adds constArrayOpt useVisitorHash rewriteEqualities C e)
    (hchanged : ∀ C₁ : ConstraintSet, C₁.weight ≤ C.weight + ce.weight →
      Rewrites constArrayOpt useVisitorHash rewriteEqualities C₁ old) :
    Rewrites constArrayOpt useVisitorHash rewriteEqualities C (ce :: old) := by
  rintro visitor visited H U hsound hvisited htyped ⟨m, hHm, hm⟩
  have hassoc : C ++ ce :: old = C ++ [ce] ++ old := by simp
  rw [hassoc] at htyped hm ⊢
  have htyped' := ConstraintSet.typed_append.mp htyped
  have hce := ConstraintSet.typed_append.mp htyped'.1
  have hm' := ConstraintSet.holdsAt_append.mp (ConstraintSet.holdsAt_append.mp hm).1
  obtain ⟨hwt, hw⟩ := ConstraintSet.typed_singleton.mp hce.2
  obtain ⟨v, visited', hv, hsimp, hvisited'⟩ := hsound.visit constArrayOpt useVisitorHash hHm hvisited hwt
    (ConstraintSet.holdsAt_singleton.mp hm'.2).1
  unfold rewriteConstraints
  simp only [hv, Option.bind_eq_bind, Option.bind_some]
  split
  · obtain ⟨C', hC', hrep⟩ := hunchanged hsound hvisited' htyped ⟨m, hHm, hm⟩
    simp only [hC', Option.bind_some]
    exact ⟨_, rfl, hrep⟩
  · rename_i hne
    have hlt := v.2.resolve_left hne
    have hrep : ConstraintSet.ReplacesOn H U (C ++ [ce] ++ old) (C ++ [v.1] ++ old) :=
      ((ConstraintSet.ReplacesOn.refl hce.1).append (ConstraintSet.replacesOn_visited hw hsimp)).append
        (.refl htyped'.2)
    have hmv := hrep.holds m hHm hm
    have htypedv := ConstraintSet.typed_append.mp hrep.typed
    obtain ⟨C₁, hC₁, hrep₁⟩ := hadds v.1 hlt htypedv.1 ⟨m, (ConstraintSet.holdsAt_append.mp hmv).1⟩
    have hrep' : ConstraintSet.ReplacesOn H U (C ++ [v.1] ++ old) (C₁.1 ++ old) :=
      hrep₁.replacesOn.append (.refl htyped'.2)
    obtain ⟨C₂, hC₂, hrep₂⟩ := hchanged C₁.1 (C₁.2.trans (by omega)) hsound hvisited' hrep'.typed
      ⟨m, hHm, hrep'.holds m hHm hmv⟩
    simp only [hC₁, hC₂, Option.bind_some]
    exact ⟨_, rfl, (hrep.trans hrep').trans hrep₂⟩

theorem rewrites_nil : Rewrites constArrayOpt useVisitorHash rewriteEqualities C [] := by
  rintro visitor visited H U - - htyped -
  rw [List.append_nil] at htyped ⊢
  refine ⟨⟨C, Nat.le_add_right _ _⟩, ?_, .refl htyped⟩
  unfold rewriteConstraints
  rfl

theorem adds_push {e : Expr} (h : ∃ hw, addConstraintInternal constArrayOpt useVisitorHash
    rewriteEqualities C e = some ⟨C ++ [e], hw⟩) : Adds constArrayOpt useVisitorHash rewriteEqualities C e := by
  intro htyped _
  obtain ⟨hw, h⟩ := h
  exact ⟨_, h, .refl htyped⟩

theorem toLex_lt_of_le {a a' b b' : Nat} (ha : a ≤ a') (hb : b < b') : toLex (a, b) < toLex (a', b') := by
  rw [Prod.Lex.toLex_lt_toLex]
  rcases Nat.lt_or_eq_of_le ha with ha | rfl
  · exact Or.inl ha
  · exact Or.inr ⟨rfl, hb⟩

theorem toLex_lt_of_lt {a a' b b' : Nat} (ha : a < a') : toLex (a, b) < toLex (a', b') :=
  Prod.Lex.toLex_lt_toLex.mpr (Or.inl ha)

theorem adds_and_rewrites (p : ℕ ×ₗ ℕ) :
    (∀ C e, toLex (ConstraintSet.weight C + e.weight, e.nodes) = p →
      Adds constArrayOpt useVisitorHash rewriteEqualities C e) ∧
    (∀ C old, toLex (ConstraintSet.weight C + ConstraintSet.weight old, old.length) = p →
      Rewrites constArrayOpt useVisitorHash rewriteEqualities C old) := by
  induction p using WellFoundedLT.induction with
  | ind p ih =>
  constructor
  · rintro C e rfl
    cases e with
    | constant c => exact adds_constant
    | binary kind l r =>
      cases kind with
      | and =>
        refine Adds.and ((ih _ ?_).1 C l rfl) fun C₁ hC₁ => (ih _ ?_).1 C₁ r rfl
        · exact toLex_lt_of_le (by simp only [Expr.weight]; omega) (by simp only [Expr.nodes]; omega)
        · exact toLex_lt_of_le (by simp only [Expr.weight]; omega) (by simp only [Expr.nodes]; omega)
      | _ => exact adds_push ⟨by simp, by unfold addConstraintInternal; rfl⟩
    | cmp kind l r =>
      cases kind with
      | eq =>
        cases l with
        | constant c =>
          cases rewriteEqualities with
          | true =>
            refine Rewrites.eq ((ih _ ?_).2 [] C rfl)
            exact toLex_lt_of_lt (by simp only [ConstraintSet.weight_nil, Expr.weight]; omega)
          | false => exact adds_push ⟨by simp, by unfold addConstraintInternal; rfl⟩
        | _ => exact adds_push ⟨by simp, by unfold addConstraintInternal; rfl⟩
      | _ => exact adds_push ⟨by simp, by unfold addConstraintInternal; rfl⟩
    | _ => exact adds_push ⟨by simp, by unfold addConstraintInternal; rfl⟩
  · rintro C old rfl
    cases old with
    | nil => exact rewrites_nil
    | cons ce old =>
      refine Rewrites.cons ((ih _ ?_).2 _ _ rfl) (fun e he => (ih _ ?_).1 C e rfl) fun C₁ hC₁ => (ih _ ?_).2 C₁ old rfl
      · exact toLex_lt_of_le (by simp; omega) (Nat.lt_succ_self _)
      · exact toLex_lt_of_lt (by rw [ConstraintSet.weight_cons]; omega)
      · exact toLex_lt_of_le (by rw [ConstraintSet.weight_cons]; omega) (Nat.lt_succ_self _)

theorem models_of_replaces {D : ConstraintSet} {e e' : Expr} {m : Valuation}
    (href : e.RefinesOn true (fun m => ∀ e ∈ C, e.eval m = .ofBool true) e')
    (hrep : ConstraintSet.Replaces (C ++ [e']) D) (hC : ∀ x ∈ C, x.Defined m) (he : e.Defined m) :
    (∀ x ∈ D, x.eval m = .ofBool true) ↔ (∀ x ∈ C, x.eval m = .ofBool true) ∧ e.eval m = .ofBool true := by
  constructor
  · intro hD
    -- nothing of what has been replaced fails
    have hfails : ¬ConstraintSet.FailsAt m (C ++ [e']) := by
      intro h
      obtain ⟨x, hx, -, hv⟩ := hrep.fails m (Or.inl trivial) h
      exact hv (hD x hx)
    rw [ConstraintSet.failsAt_append, not_or, ConstraintSet.failsAt_singleton] at hfails
    have hholds : ∀ x ∈ C, x.eval m = .ofBool true := by
      intro x hx
      by_contra hv
      exact hfails.1 ⟨x, hx, hC x hx, hv⟩
    refine ⟨hholds, ?_⟩
    rw [← href.eval m hholds fun _ => he]
    by_contra hv
    exact hfails.2 ⟨href.defined m hholds he, hv⟩
  · rintro ⟨hholds, hv⟩ x hx
    refine (hrep.holds m trivial ?_ x hx).2
    rw [ConstraintSet.holdsAt_append, ConstraintSet.holdsAt_singleton]
    exact ⟨fun y hy => ⟨hC y hy, hholds y hy⟩, href.defined m hholds he, (href.eval m hholds fun _ => he).trans hv⟩

/-- If the set and the constraint hold together under some assignment, `addConstraint` simplifies the constraint and
returns a set that may take the place of the old one with the simplified constraint. -/
theorem addConstraint_replaces (constArrayOpt useVisitorHash rewriteEqualities : Bool) {e : Expr}
    (htyped : ConstraintSet.Typed (C ++ [e])) (hm₀ : ConstraintSet.HoldsAt m₀ (C ++ [e])) :
    ∃ e' C', addConstraint constArrayOpt useVisitorHash rewriteEqualities C e = some C' ∧
      e.RefinesOn true (fun m => ∀ e ∈ C, e.eval m = .ofBool true) e' ∧ ConstraintSet.Replaces (C ++ [e']) C' := by
  obtain ⟨hC, he⟩ := ConstraintSet.typed_append.mp htyped
  obtain ⟨hwt, hw⟩ := ConstraintSet.typed_singleton.mp he
  obtain ⟨hC₀, he₀⟩ := ConstraintSet.holdsAt_append.mp hm₀
  obtain ⟨hd₀, hv₀⟩ := ConstraintSet.holdsAt_singleton.mp he₀
  have hC₀' : ∀ x ∈ C, x.eval m₀ = .ofBool true := fun x hx => (hC₀ x hx).2
  obtain ⟨e', he', href⟩ := simplifyExpr_spec constArrayOpt useVisitorHash hC hwt hC₀' hd₀
  have htyped' : ConstraintSet.Typed (C ++ [e']) :=
    ConstraintSet.typed_append.mpr ⟨hC, ConstraintSet.typed_singleton.mpr ⟨href.wellTyped, href.width.trans hw⟩⟩
  have hholds' : ConstraintSet.HoldsAt m₀ (C ++ [e']) :=
    ConstraintSet.holdsAt_append.mpr ⟨hC₀, ConstraintSet.holdsAt_singleton.mpr
      ⟨href.defined m₀ hC₀' hd₀, (href.eval m₀ hC₀' fun _ => hd₀).trans hv₀⟩⟩
  have hadds : Adds constArrayOpt useVisitorHash rewriteEqualities C e' := (adds_and_rewrites _).1 C e' rfl
  obtain ⟨C', hC', hrep⟩ := hadds htyped' ⟨m₀, hholds'⟩
  refine ⟨e', C'.1, ?_, href, hrep⟩
  unfold addConstraint
  simp only [he', hC', Option.bind_eq_bind, Option.bind_some]

/-- If the set and the constraint hold together under some assignment, `addConstraint` returns a set with the models
of both. -/
theorem addConstraint_spec (constArrayOpt useVisitorHash rewriteEqualities : Bool) {e : Expr}
    (htyped : ConstraintSet.Typed (C ++ [e])) (hm₀ : ConstraintSet.HoldsAt m₀ (C ++ [e])) :
    ∃ C', addConstraint constArrayOpt useVisitorHash rewriteEqualities C e = some C' ∧ ConstraintSet.Typed C' ∧
      ∀ m, (∀ x ∈ C ++ [e], x.Defined m) →
        ((∀ x ∈ C', x.eval m = .ofBool true) ↔ ∀ x ∈ C ++ [e], x.eval m = .ofBool true) := by
  obtain ⟨e', C', hC', href, hrep⟩ :=
    addConstraint_replaces constArrayOpt useVisitorHash rewriteEqualities htyped hm₀
  refine ⟨C', hC', hrep.typed, fun m hd => ?_⟩
  rw [List.forall_mem_append, List.forall_mem_singleton] at hd ⊢
  exact models_of_replaces href hrep hd.1 hd.2

/-- The first byte of a symbolic array of four bytes, and two constraints on it. -/
def firstByte : Expr := .read ⟨0, 4, 32, 8, []⟩ .nil (.ofNat 32 0)

def byteBelowTen : Expr := .cmp .ult firstByte (.ofNat 8 10)

def byteIsFive : Expr := .cmp .eq (.ofNat 8 5) firstByte

end Options

end ConstraintManager

end CgsKlee
