import Mathlib.Tactic.Ring
import CgsKlee.Expr.ArithSound
import CgsKlee.Expr.ExprBuilder

/-!
# Sums and differences of the constant folding builder

Each rule replaces the plain node by another one whose operands, in part, are built by calls back.  What a call returns
refines the plain node and has no more summands (`BuildsSum`).  So the calls of a rule have a smaller `callDepth` than
the rule, the depth is enough, and every call returns: `sum_builds`, by induction on the depth.
-/

namespace CgsKlee

open Expr ConstantExpr

variable {opt : Bool} {l r x y z e : Expr} {c d : APInt}

section Rules

variable {k₁ k₂ : BinaryKind}

def sided : Bool → BinaryKind → APInt → Expr → Expr
  | true, k, c, y => .binary k (.constant c) y
  | false, k, c, y => .binary k y (.constant c)

def BinaryKind.applySided {w : Nat} : Bool → BinaryKind → BitVec w → BitVec w → BitVec w
  | true, k, v, t => k.apply v t
  | false, k, v, t => k.apply t v

/-- What stands before the rest, and with `!left` before the constant, once a sided right operand is taken apart. -/
def BinaryKind.outer : Bool → BinaryKind → BinaryKind → BinaryKind
  | true, k₁, k₂ => k₁.times k₂
  | false, k₁, _ => k₁

def BinaryKind.signed {w : Nat} : BinaryKind → BitVec w → BitVec w
  | .sub, v => -v
  | _, v => v

variable {left : Bool}

namespace BinaryKind.IsSum

variable {w : Nat} (u v t : BitVec w)

theorem outer (h₁ : k₁.IsSum) (h₂ : k₂.IsSum) : ∀ left, (k₁.outer left k₂).IsSum
  | true => h₁.times h₂
  | false => h₁

theorem apply_signed (h₁ : k₁.IsSum) : k₁.apply u v = add.apply (k₁.signed v) u := by
  rcases h₁ with rfl | rfl <;> simp only [BinaryKind.apply, signed] <;> ring

theorem apply_fold (h₁ : k₁.IsSum) (h₂ : k₂.IsSum) : ∀ left,
    k₁.apply u (k₂.applySided left v t) = (k₁.outer left k₂).apply ((k₁.outer (!left) k₂).apply u v) t
  | true => h₁.apply_right u v t h₂
  | false => (h₁.apply_right u t v h₂).trans ((h₁.times h₂).apply_right_comm u t v h₁)

theorem apply_out (h₁ : k₁.IsSum) (h₂ : k₂.IsSum) (left : Bool) : k₁.apply u (k₂.applySided left v t) =
    add.apply ((k₁.outer (!left) k₂).signed v) ((k₁.outer left k₂).apply u t) := by
  rw [h₁.apply_fold u v t h₂, (h₁.outer h₂ (!left)).apply_signed]
  exact (h₁.outer h₂ left).apply_left _ u t (.inl rfl)

end BinaryKind.IsSum

theorem sided_wellTyped (h : (sided left k₂ c y).WellTyped) :
    y.WellTyped ∧ c.width = y.width ∧ (sided left k₂ c y).width = c.width := by
  cases left with
  | true => exact ⟨h.2.1, h.2.2, rfl⟩
  | false => exact ⟨h.1, h.2.2.symm, h.2.2⟩

theorem defined_of_sided {m : Valuation} (h : (sided left k₂ c y).Defined m) : y.Defined m := by
  cases left with
  | true => exact h.2.1
  | false => exact h.1

theorem eval_sided {m : Valuation} {w : Nat} {v t : BitVec w} (hy : y.eval m = ⟨w, t⟩) :
    (sided left k₂ ⟨w, v⟩ y).eval m = ⟨w, k₂.applySided left v t⟩ := by
  cases left <;> simp only [sided, BinaryKind.applySided, Expr.eval, hy, APInt.map₂_mk]

theorem refines_fold (h₁ : k₁.IsSum) (h₂ : k₂.IsSum) (hx : x.WellTyped) (hcd : c.width = d.width)
    (hdx : d.width = x.width) :
    (Expr.binary k₁ (.constant c) (sided left k₂ d x)).Refines opt
      (.binary (k₁.outer left k₂) (.constant (APInt.map₂ (k₁.outer (!left) k₂).apply c d)) x) where
  wellTyped := ⟨trivial, hx, hcd.trans hdx⟩
  width := rfl
  defined := by
    rintro m ⟨-, hd, -⟩
    exact ⟨trivial, defined_of_sided hd, fun h => absurd h (h₁.outer h₂ left).not_isDivision⟩
  eval := by
    intro m _
    obtain ⟨w, u⟩ := c
    obtain ⟨v, rfl⟩ := APInt.exists_value hcd.symm
    obtain ⟨t, ht⟩ := APInt.exists_value ((x.width_eval m hx).trans hdx.symm)
    simp only [Expr.eval, eval_sided ht, ht, APInt.map₂_mk, h₁.apply_fold u v t h₂]

theorem refines_out (h₁ : k₁.IsSum) (h₂ : k₂.IsSum) (hx : x.WellTyped) (hy : y.WellTyped)
    (hcx : c.width = x.width) (hcy : c.width = y.width) :
    (Expr.binary k₁ x (sided left k₂ c y)).Refines opt (.binary .add
      (.constant ⟨c.width, (k₁.outer (!left) k₂).signed c.value⟩) (.binary (k₁.outer left k₂) x y)) where
  wellTyped := ⟨trivial, ⟨hx, hy, hcx.symm.trans hcy⟩, hcx⟩
  width := hcx
  defined := by
    rintro m ⟨hdx, hd, -⟩
    exact ⟨trivial, ⟨hdx, defined_of_sided hd, fun h => absurd h (h₁.outer h₂ left).not_isDivision⟩, nofun⟩
  eval := by
    intro m _
    obtain ⟨w, v⟩ := c
    obtain ⟨u, hu⟩ := APInt.exists_value ((x.width_eval m hx).trans hcx.symm)
    obtain ⟨t, ht⟩ := APInt.exists_value ((y.width_eval m hy).trans hcy.symm)
    simp only [Expr.eval, eval_sided ht, hu, ht, APInt.map₂_mk, h₁.apply_out u v t h₂]

theorem refines_sub_constant (hx : x.WellTyped) (hw : x.width = c.width) :
    (Expr.binary .sub x (.constant c)).Refines opt (.binary .add (.constant (neg c)) x) where
  wellTyped := ⟨trivial, hx, hw.symm⟩
  width := hw.symm
  defined := by
    rintro m ⟨hdx, -, -⟩
    exact ⟨trivial, hdx, nofun⟩
  eval := by
    intro m _
    obtain ⟨w, v⟩ := c
    obtain ⟨u, hu⟩ := APInt.exists_value ((x.width_eval m hx).trans hw)
    simp only [Expr.eval, neg, hu, APInt.map₂_mk, BinaryKind.apply, APInt.mk.injEq, heq_eq_eq, true_and]
    ring

end Rules

namespace ConstantFoldingBuilder

theorem summands_pos : ∀ e : Expr, 0 < summands e
  | .constant _ | .notOptimized _ | .read _ _ _ | .select _ _ _ | .concat _ _ | .extract _ _ _ | .cast _ _ _ | .not _
  | .cmp _ _ _ => Nat.one_pos
  | .binary kind l r => by
    have hl := summands_pos l
    cases kind <;> simp only [summands] <;> omega

theorem callDepth_lt (h : summands x + summands y < summands l + summands r) : callDepth x y < callDepth l r := by
  have hpow : (summands x + summands y + 1) ^ 2 ≤ (summands l + summands r) ^ 2 := Nat.pow_le_pow_left h 2
  have hsq : (summands x + summands y + 1) ^ 2 = (summands x + summands y) ^ 2 + 2 * (summands x + summands y) + 1 := by
    ring
  unfold callDepth
  split <;> split <;> omega

theorem callDepth_lt_left (h : summands x + summands y ≤ summands l + summands r)
    (hleft : summands x < summands l ∨ summands x ≤ summands l ∧ x.isConstant = true ∧ l.isConstant = false) :
    callDepth x y < callDepth l r := by
  have hpow : (summands x + summands y) ^ 2 ≤ (summands l + summands r) ^ 2 := Nat.pow_le_pow_left h 2
  unfold callDepth
  rcases hleft with hlt | ⟨hle, hx, hl⟩
  · split <;> split <;> omega
  · simp only [hx, hl]
    simp
    omega

theorem callDepth_constant_le : callDepth (.constant d) l ≤ callDepth l (.constant c) := by
  have hpos := summands_pos l
  have hcomm : 1 + summands l = summands l + 1 := Nat.add_comm _ _
  have hone : summands (.constant c) = 1 := rfl
  have hone' : summands (.constant d) = 1 := rfl
  unfold callDepth
  rw [hone, hone', hcomm]
  simp only [isConstant, if_true]
  omega

def BuildsSum (kind : BinaryKind) (l r : Expr) (result : Option Expr) : Prop :=
  ∃ e, result = some e ∧ (Expr.binary kind l r).Refines false e ∧ summands e ≤ summands l + summands r

namespace BuildsSum

variable {kind kind' kind'' : BinaryKind} {result : Option Expr} {f : Expr → Option Expr}

theorem plain (hkind : kind.IsSum) (h : (Expr.binary kind l r).WellTyped) :
    BuildsSum kind l r (some (.binary kind l r)) := by
  refine ⟨_, rfl, .refl h, ?_⟩
  rcases hkind with rfl | rfl <;> exact le_rfl

theorem of_refines (h : (Expr.binary kind l r).Refines false (.binary kind' x y))
    (hle : summands x + summands y ≤ summands l + summands r) (hx : BuildsSum kind' x y result) :
    BuildsSum kind l r result := by
  obtain ⟨e, he, href, hsum⟩ := hx
  exact ⟨e, he, h.trans href, hsum.trans hle⟩

theorem bind (h : (Expr.binary kind l r).Refines false (.binary kind' x (.binary kind'' y z)))
    (hle : summands x + (summands y + summands z) ≤ summands l + summands r) (hy : BuildsSum kind'' y z result)
    (hf : ∀ e, e.WellTyped → x.width = e.width → summands e ≤ summands y + summands z → BuildsSum kind' x e (f e)) :
    BuildsSum kind l r (result >>= f) := by
  obtain ⟨e, rfl, href, hsum⟩ := hy
  obtain ⟨hx, -, hw⟩ := h.wellTyped
  have hxe : x.width = e.width := hw.trans href.width.symm
  obtain ⟨e', he', href', hsum'⟩ := hf e href.wellTyped hxe hsum
  exact ⟨e', he', h.trans ((Refines.binary kind' hw (.refl hx) href).trans href'), by omega⟩

end BuildsSum

variable {kind : BinaryKind}

theorem summands_binary (hkind : kind.IsSum) :
    summands (.binary kind x y) = summands x + summands y := by
  rcases hkind with rfl | rfl <;> rfl

theorem summands_sided {left : Bool} (hkind : kind.IsSum) : summands (sided left kind c x) = 1 + summands x := by
  cases left with
  | true => exact summands_binary hkind
  | false => exact (summands_binary hkind).trans (Nat.add_comm _ _)

theorem fold_sum (hkind : kind.IsSum) (hw : c.width = d.width) :
    fold kind c d = some (APInt.map₂ kind.apply c d) := by
  unfold fold
  rw [if_pos ⟨hw, fun hdiv => hkind.not_isDivision hdiv.1⟩]

def CallRight (kind : BinaryKind) (Call : Expr → Expr → Option Expr) (n : Nat) : Prop :=
  ∀ {l r}, l.WellTyped → r.WellTyped → l.width = r.width → callDepth l r < n → BuildsSum kind l r (Call l r)

section Calls

variable {k₁ k₂ k₃ k₄ : BinaryKind} {Call Inner Add Sub : Expr → Expr → Option Expr}

theorem folded_builds (left : Bool) (h₁ : k₁.IsSum) (h₂ : k₂.IsSum) (hr : (sided left k₂ d x).WellTyped)
    (hw : c.width = (sided left k₂ d x).width)
    (hcall : CallRight (k₁.outer left k₂) Call (callDepth (.constant c) (sided left k₂ d x))) :
    BuildsSum k₁ (.constant c) (sided left k₂ d x) (do Call (.constant (← fold (k₁.outer (!left) k₂) c d)) x) := by
  obtain ⟨hx, hdx, hwd⟩ := sided_wellTyped hr
  have hcd : c.width = d.width := hw.trans hwd
  have hsum : summands (sided left k₂ d x) = 1 + summands x := summands_sided h₂
  simp only [fold_sum (h₁.outer h₂ (!left)) hcd, Option.bind_eq_bind, Option.bind_some]
  refine BuildsSum.of_refines (refines_fold h₁ h₂ hx hcd hdx) ?_ (hcall trivial hx (hcd.trans hdx) (callDepth_lt ?_))
  · rw [hsum]
    simp only [summands]
    omega
  · rw [hsum]
    simp only [summands]
    omega

theorem moved_builds (left : Bool) (h₁ : k₁.IsSum) (h₂ : k₂.IsSum) (hl : l.WellTyped) (hlc : l.isConstant = false)
    (hr : (sided left k₂ c y).WellTyped) (hw : l.width = (sided left k₂ c y).width)
    (hinner : CallRight (k₁.outer left k₂) Inner (callDepth l (sided left k₂ c y)))
    (houter : CallRight .add Add (callDepth l (sided left k₂ c y))) :
    BuildsSum k₁ l (sided left k₂ c y)
      (do Add (.constant ⟨c.width, (k₁.outer (!left) k₂).signed c.value⟩) (← Inner l y)) := by
  obtain ⟨hy, hcy, hwc⟩ := sided_wellTyped hr
  have hlc' : l.width = c.width := hw.trans hwc
  have hsum : summands (sided left k₂ c y) = 1 + summands y := summands_sided h₂
  have hpos := summands_pos l
  refine BuildsSum.bind (refines_out h₁ h₂ hl hy hlc'.symm hcy) ?_
    (hinner hl hy (hlc'.trans hcy) (callDepth_lt ?_)) ?_
  · rw [hsum]
    simp only [summands]
    omega
  · rw [hsum]
    omega
  · intro e he hce hsume
    apply houter (wellTyped_constant _) he hce
    apply callDepth_lt_left
    · rw [hsum]
      simp only [summands]
      omega
    · exact Or.inr ⟨hpos, rfl, hlc⟩

theorem shifted_builds {a b : Expr} (h₂ : k₂.IsSum) (hab : (Expr.binary k₂ x y).WellTyped)
    (href : (Expr.binary k₁ (.binary k₂ x y) r).Refines false (.binary k₃ x (.binary k₄ a b)))
    (hsum : summands a + summands b = summands y + summands r)
    (hinner : CallRight k₄ Inner (callDepth (.binary k₂ x y) r))
    (houter : CallRight k₃ Call (callDepth (.binary k₂ x y) r)) :
    BuildsSum k₁ (.binary k₂ x y) r (do Call x (← Inner a b)) := by
  have hxpos := summands_pos x
  have hypos := summands_pos y
  have hleft : summands (.binary k₂ x y) = summands x + summands y := summands_binary h₂
  obtain ⟨-, ⟨ha, hb, hwab⟩, -⟩ := href.wellTyped
  refine BuildsSum.bind href ?_ (hinner ha hb hwab (callDepth_lt ?_)) ?_
  · omega
  · omega
  · intro e he hxe hsume
    apply houter hab.1 he hxe
    apply callDepth_lt_left
    · omega
    · exact Or.inl (by omega)

theorem constant_builds (hadd : CallRight .add Add (callDepth (.constant c) r))
    (hsub : CallRight .sub Sub (callDepth (.constant c) r)) (hr : r.WellTyped) (hw : c.width = r.width) :
    BuildsSum .add (.constant c) r (addConstant Add Sub c r) ∧
      BuildsSum .sub (.constant c) r (subConstant Add Sub c r) := by
  unfold addConstant subConstant
  constructor
  · split
    · rename_i hzero
      exact ⟨r, rfl, refines_zero_add hr hw hzero, by simp only [summands]; omega⟩
    split
    · exact folded_builds true (.inl rfl) (.inl rfl) hr hw hadd
    · exact folded_builds false (.inl rfl) (.inl rfl) hr hw hadd
    · exact folded_builds true (.inl rfl) (.inr rfl) hr hw hsub
    · exact folded_builds false (.inl rfl) (.inr rfl) hr hw hadd
    · exact BuildsSum.plain (.inl rfl) ⟨trivial, hr, hw⟩
  · split
    · exact folded_builds true (.inr rfl) (.inl rfl) hr hw hsub
    · exact folded_builds false (.inr rfl) (.inl rfl) hr hw hsub
    · exact folded_builds true (.inr rfl) (.inr rfl) hr hw hadd
    · exact folded_builds false (.inr rfl) (.inr rfl) hr hw hsub
    · exact BuildsSum.plain (.inr rfl) ⟨trivial, hr, hw⟩

theorem nonConstant_builds (hadd : CallRight .add Add (callDepth l r)) (hsub : CallRight .sub Sub (callDepth l r))
    (hlc : l.isConstant = false) (hl : l.WellTyped) (hr : r.WellTyped) (hw : l.width = r.width) :
    BuildsSum .add l r (addNonConstant Add Sub l r) ∧ BuildsSum .sub l r (subNonConstant Add Sub l r) := by
  unfold addNonConstant subNonConstant
  constructor
  · split
    · rename_i x y
      refine shifted_builds (.inl rfl) hl ?_ rfl hadd hadd
      exact refines_assocL (.inl rfl) (.inl rfl) hl.1 hl.2.1 hr hl.2.2 hw
    · rename_i x y
      refine shifted_builds (.inr rfl) hl ?_ (Nat.add_comm _ _) hsub hadd
      exact refines_add_subL hl.1 hl.2.1 hr hl.2.2 hw
    · split
      · exact moved_builds true (.inl rfl) (.inl rfl) hl hlc hr hw hadd hadd
      · exact moved_builds false (.inl rfl) (.inl rfl) hl hlc hr hw hadd hadd
      · exact moved_builds true (.inl rfl) (.inr rfl) hl hlc hr hw hsub hadd
      · exact moved_builds false (.inl rfl) (.inr rfl) hl hlc hr hw hadd hadd
      · exact BuildsSum.plain (.inl rfl) ⟨hl, hr, hw⟩
  · split
    · rename_i x y
      refine shifted_builds (.inl rfl) hl ?_ rfl hsub hadd
      exact refines_assocL (.inr rfl) (.inl rfl) hl.1 hl.2.1 hr hl.2.2 hw
    · rename_i x y
      refine shifted_builds (.inr rfl) hl ?_ rfl hadd hsub
      exact refines_assocL (.inr rfl) (.inr rfl) hl.1 hl.2.1 hr hl.2.2 hw
    · split
      · exact moved_builds true (.inr rfl) (.inl rfl) hl hlc hr hw hsub hadd
      · exact moved_builds false (.inr rfl) (.inl rfl) hl hlc hr hw hsub hadd
      · exact moved_builds true (.inr rfl) (.inr rfl) hl hlc hr hw hadd hadd
      · exact moved_builds false (.inr rfl) (.inr rfl) hl hlc hr hw hsub hadd
      · exact BuildsSum.plain (.inr rfl) ⟨hl, hr, hw⟩

end Calls

theorem specialize_builds (hkind : kind.IsSum) {constantL : APInt → Expr → Option Expr}
    {constantR : Expr → APInt → Option Expr} {nonConstant : Expr → Expr → Option Expr} (hw : l.width = r.width)
    (hL : ∀ c, l = .constant c → BuildsSum kind l r (constantL c r))
    (hR : ∀ c, r = .constant c → BuildsSum kind l r (constantR l c))
    (hN : l.isConstant = false → BuildsSum kind l r (nonConstant l r)) :
    BuildsSum kind l r (specialize (fold kind) constantL constantR nonConstant l r) := by
  unfold specialize
  split
  · rename_i a b
    rw [fold_sum hkind hw]
    refine ⟨_, rfl, refines_fold_binary kind a b, ?_⟩
    simp only [summands]
    omega
  · exact hL _ rfl
  · exact hR _ rfl
  · rename_i hconst _ _
    apply hN
    cases l with
    | constant a => exact absurd rfl (hconst a)
    | _ => rfl

theorem CallRight.mono {Call : Expr → Expr → Option Expr} {n n' : Nat}
    (h : CallRight kind Call n') (hle : n ≤ n') : CallRight kind Call n :=
  fun hl hr hw hlt => h hl hr hw (hlt.trans_le hle)

theorem bounded_builds (depth : Nat) :
    CallRight .add (addBounded depth) depth ∧ CallRight .sub (subBounded depth) depth := by
  induction depth with
  | zero => exact ⟨fun _ _ _ h => absurd h (Nat.not_lt_zero _), fun _ _ _ h => absurd h (Nat.not_lt_zero _)⟩
  | succ depth ih =>
    obtain ⟨hadd, hsub⟩ := ih
    constructor
    · intro l r hl hr hw hlt
      unfold addBounded
      refine specialize_builds (.inl rfl) hw ?_ ?_ ?_
      · rintro c rfl
        exact (constant_builds (hadd.mono (by omega)) (hsub.mono (by omega)) hr hw).1
      · rintro c rfl
        have hdepth : callDepth (.constant c) l ≤ callDepth l (.constant c) := callDepth_constant_le
        have hsum : summands (.constant c) + summands l ≤ summands l + summands (.constant c) :=
          (Nat.add_comm _ _).le
        exact BuildsSum.of_refines (refines_binary_swap rfl BitVec.add_comm hl hr hw) hsum
          (constant_builds (hadd.mono (by omega)) (hsub.mono (by omega)) hl hw.symm).1
      · intro hlc
        exact (nonConstant_builds (hadd.mono (by omega)) (hsub.mono (by omega)) hlc hl hr hw).1
    · intro l r hl hr hw hlt
      unfold subBounded
      refine specialize_builds (.inr rfl) hw ?_ ?_ ?_
      · rintro c rfl
        exact (constant_builds (hadd.mono (by omega)) (hsub.mono (by omega)) hr hw).2
      · rintro c rfl
        have hdepth : callDepth (.constant (neg c)) l ≤ callDepth l (.constant c) := callDepth_constant_le
        have hsum : summands (.constant (neg c)) + summands l ≤ summands l + summands (.constant c) :=
          (Nat.add_comm _ _).le
        exact BuildsSum.of_refines (refines_sub_constant hl hw) hsum
          (constant_builds (c := neg c) (hadd.mono (by omega)) (hsub.mono (by omega)) hl hw.symm).1
      · intro hlc
        exact (nonConstant_builds (hadd.mono (by omega)) (hsub.mono (by omega)) hlc hl hr hw).2

theorem add_builds (hl : l.WellTyped) (hr : r.WellTyped) (hw : l.width = r.width) :
    Builds false (.binary .add l r) (add l r) := by
  obtain ⟨e, he, href, -⟩ := (bounded_builds (callDepth l r + 1)).1 hl hr hw (Nat.lt_succ_self _)
  exact ⟨e, he, href⟩

theorem sub_builds (hl : l.WellTyped) (hr : r.WellTyped) (hw : l.width = r.width) :
    Builds false (.binary .sub l r) (sub l r) := by
  obtain ⟨e, he, href, -⟩ := (bounded_builds (callDepth l r + 1)).2 hl hr hw (Nat.lt_succ_self _)
  exact ⟨e, he, href⟩

end ConstantFoldingBuilder

end CgsKlee
