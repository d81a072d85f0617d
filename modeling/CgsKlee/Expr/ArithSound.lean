import CgsKlee.Expr.EqSound

/-!
# Arithmetic, shifts and comparisons

What the constructors of the binary kinds return refines the plain node.  A sum or difference with a constant goes down
in the other operand (`createPartialR_builds`); without one the constants inside are moved out, by induction on the
number of nodes of both operands (`create_builds`).
-/

namespace CgsKlee

open Expr ConstantExpr

variable {opt : Bool} {l r a b e : Expr} {c cl k : APInt}

variable {kind : BinaryKind}

theorem refines_binary_of_values (hl : l.WellTyped) (hr : r.WellTyped) (hlr : l.width = r.width)
    (he : e.WellTyped) (hw : e.width = l.width) (hd : ∀ m, l.Defined m → r.Defined m → e.Defined m)
    (hv : ∀ m (x y : BitVec l.width), l.eval m = ⟨l.width, x⟩ → r.eval m = ⟨l.width, y⟩ →
      e.eval m = ⟨l.width, kind.apply x y⟩) : (Expr.binary kind l r).Refines opt e := by
  refine refines_binary_of_eval he hw hd ?_
  intro m
  obtain ⟨x, y, hx, hy⟩ := exists_values hl hr hlr m
  rw [hv m x y hx hy, hx, hy, APInt.map₂_mk]

theorem XorExpr.createPartialR_builds (opt : Bool) (hr : r.WellTyped) (hw : cl.width = r.width) :
    Builds opt (.binary .xor (.constant cl) r) (XorExpr.createPartialR opt cl r) := by
  obtain ⟨w, v⟩ := cl
  dsimp only at hw
  unfold XorExpr.createPartialR
  split
  · rename_i hzero
    refine Builds.pure (refines_neutral hr hw fun x => ?_)
    rw [isZero_iff.mp hzero]
    exact BitVec.zero_xor
  · rename_i hzero
    split
    · rename_i h1
      dsimp only at h1
      subst h1
      refine Builds.of_refines ?_ (EqExpr.createPartialR_builds opt hr hw)
      refine refines_binary_of_eval ⟨trivial, hr, hw⟩ rfl (fun m _ h => ⟨trivial, h⟩) ?_
      intro m
      obtain ⟨x, hx⟩ := APInt.exists_value ((r.width_eval m hr).trans hw.symm)
      simp only [Expr.eval, hx, APInt.ofBool, APInt.map₂_mk, APInt.rel₂_mk, CmpKind.apply, BinaryKind.apply,
        APInt.mk.injEq, heq_eq_eq, true_and]
      clear hx
      revert v x
      decide
    · exact Builds.self ⟨trivial, hr, hw⟩

theorem XorExpr.create_builds (opt : Bool) (hl : l.WellTyped) (hr : r.WellTyped) (hw : l.width = r.width) :
    Builds opt (.binary .xor l r) (XorExpr.create opt l r) :=
  commutative_builds rfl BitVec.xor_comm (XorExpr.createPartialR_builds opt) hl hr hw (Builds.self ⟨hl, hr, hw⟩)

theorem refines_bool_xor (hkind : kind = .add ∨ kind = .sub) (hl : l.WellTyped)
    (hr : r.WellTyped) (hwl : l.width = 1) (hwr : r.width = 1) :
    (Expr.binary kind l r).Refines opt (.binary .xor l r) := by
  refine refines_binary_of_eval ⟨hl, hr, hwl.trans hwr.symm⟩ rfl (fun m hdl hdr => ⟨hdl, hdr, nofun⟩) ?_
  intro m
  obtain ⟨x, y, hx, hy⟩ := exists_bits hl hr hwl hwr m
  simp only [Expr.eval, hx, hy, APInt.map₂_mk, APInt.mk.injEq, heq_eq_eq, true_and]
  clear hx hy
  rcases hkind with rfl | rfl
  · revert x y
    decide
  · revert x y
    decide

def BinaryKind.IsSum (kind : BinaryKind) : Prop := kind = .add ∨ kind = .sub

theorem BinaryKind.IsSum.not_isDivision (h : kind.IsSum) : ¬kind.isDivision = true := by
  rcases h with rfl | rfl <;> simp [BinaryKind.isDivision]

section Sums

variable {k₁ k₂ : BinaryKind}

/-- The product of the signs of two kinds: what stands between `b` and `c` in `a k₂ (b k c) = (a k₂ b) k₁ c`. -/
def BinaryKind.times : BinaryKind → BinaryKind → BinaryKind
  | k, .add => k
  | .add, _ => .sub
  | _, _ => .add

attribute [local simp] BinaryKind.times

namespace BinaryKind.IsSum

theorem times (h₁ : k₁.IsSum) (h₂ : k₂.IsSum) : (k₁.times k₂).IsSum := by
  rcases h₁ with rfl | rfl <;> rcases h₂ with rfl | rfl <;> simp [IsSum]

variable {w : Nat} (x y z : BitVec w)

theorem apply_left (h₁ : k₁.IsSum) (h₂ : k₂.IsSum) :
    k₁.apply (k₂.apply x y) z = k₂.apply x ((k₁.times k₂).apply y z) := by
  rcases h₁ with rfl | rfl <;> rcases h₂ with rfl | rfl <;> simp only [BinaryKind.times, BinaryKind.apply] <;> ring

theorem apply_right (h₁ : k₁.IsSum) (h₂ : k₂.IsSum) :
    k₁.apply x (k₂.apply y z) = (k₁.times k₂).apply (k₁.apply x y) z := by
  rcases h₁ with rfl | rfl <;> rcases h₂ with rfl | rfl <;> simp only [BinaryKind.times, BinaryKind.apply] <;> ring

theorem apply_right_comm (h₁ : k₁.IsSum) (h₂ : k₂.IsSum) :
    k₁.apply (k₂.apply x y) z = k₂.apply (k₁.apply x z) y := by
  rcases h₁ with rfl | rfl <;> rcases h₂ with rfl | rfl <;> simp only [BinaryKind.apply] <;> ring

theorem apply_left_comm (h₂ : k₂.IsSum) :
    BinaryKind.add.apply x (k₂.apply y z) = BinaryKind.add.apply y (k₂.apply x z) := by
  rcases h₂ with rfl | rfl <;> simp only [BinaryKind.apply] <;> ring

end BinaryKind.IsSum

variable (h₁ : k₁.IsSum) (h₂ : k₂.IsSum) (ha : a.WellTyped) (hb : b.WellTyped) (he : e.WellTyped)
  (hab : a.width = b.width) (hae : a.width = e.width)

include h₁ h₂ ha hb he hab hae

theorem refines_assocL :
    (Expr.binary k₁ (.binary k₂ a b) e).Refines opt (.binary k₂ a (.binary (k₁.times k₂) b e)) where
  wellTyped := ⟨ha, ⟨hb, he, hab.symm.trans hae⟩, hab⟩
  width := rfl
  defined := by
    rintro m ⟨⟨hda, hdb, -⟩, hde, -⟩
    exact ⟨hda, ⟨hdb, hde, fun h => absurd h (h₁.times h₂).not_isDivision⟩, fun h => absurd h h₂.not_isDivision⟩
  eval := by
    intro m _
    obtain ⟨x, y, hx, hy⟩ := exists_values ha hb hab m
    obtain ⟨_, z, -, hz⟩ := exists_values ha he hae m
    simp only [Expr.eval, hx, hy, hz, APInt.map₂_mk, h₁.apply_left x y z h₂]

theorem refines_assocR :
    (Expr.binary k₁ a (.binary k₂ b e)).Refines opt (.binary (k₁.times k₂) (.binary k₁ a b) e) where
  wellTyped := ⟨⟨ha, hb, hab⟩, he, hae⟩
  width := rfl
  defined := by
    rintro m ⟨hda, ⟨hdb, hde, -⟩, -⟩
    exact ⟨⟨hda, hdb, fun h => absurd h h₁.not_isDivision⟩, hde, fun h => absurd h (h₁.times h₂).not_isDivision⟩
  eval := by
    intro m _
    obtain ⟨x, y, hx, hy⟩ := exists_values ha hb hab m
    obtain ⟨_, z, -, hz⟩ := exists_values ha he hae m
    simp only [Expr.eval, hx, hy, hz, APInt.map₂_mk, h₁.apply_right x y z h₂]

theorem refines_commR :
    (Expr.binary k₁ (.binary k₂ a b) e).Refines opt (.binary k₂ (.binary k₁ a e) b) where
  wellTyped := ⟨⟨ha, he, hae⟩, hb, hab⟩
  width := rfl
  defined := by
    rintro m ⟨⟨hda, hdb, -⟩, hde, -⟩
    exact ⟨⟨hda, hde, fun h => absurd h h₁.not_isDivision⟩, hdb, fun h => absurd h h₂.not_isDivision⟩
  eval := by
    intro m _
    obtain ⟨x, y, hx, hy⟩ := exists_values ha hb hab m
    obtain ⟨_, z, -, hz⟩ := exists_values ha he hae m
    simp only [Expr.eval, hx, hy, hz, APInt.map₂_mk, h₁.apply_right_comm x y z h₂]

omit h₁ in
theorem refines_leftComm :
    (Expr.binary .add a (.binary k₂ b e)).Refines opt (.binary .add b (.binary k₂ a e)) where
  wellTyped := ⟨hb, ⟨ha, he, hae⟩, hab.symm⟩
  width := hab.symm
  defined := by
    rintro m ⟨hda, ⟨hdb, hde, -⟩, -⟩
    exact ⟨hdb, ⟨hda, hde, fun h => absurd h h₂.not_isDivision⟩, nofun⟩
  eval := by
    intro m _
    obtain ⟨x, y, hx, hy⟩ := exists_values ha hb hab m
    obtain ⟨_, z, -, hz⟩ := exists_values ha he hae m
    simp only [Expr.eval, hx, hy, hz, APInt.map₂_mk, h₂.apply_left_comm x y z]

end Sums

theorem withConstantL_builds {x : Option Expr} (hw : c.width = r.width)
    (hx : Builds opt (.binary kind (.constant c) r) x) :
    Builds opt (.binary kind (.constant c) r) (withConstantL kind c r x) := by
  unfold withConstantL
  rw [if_pos hw]
  split
  · exact Builds.pure (refines_fold_binary kind _ _)
  · exact hx

theorem refines_zero_add (hr : r.WellTyped) (hw : cl.width = r.width) (hcl : isZero cl = true) :
    (Expr.binary .add (.constant cl) r).Refines opt r := by
  refine refines_neutral hr hw fun x => ?_
  rw [isZero_iff.mp hcl]
  exact BitVec.zero_add x

section Partial

private theorem folded_builds {k₁ k₂ : BinaryKind} (h₁ : k₁.IsSum) (h₂ : k₂.IsSum)
    (hr : (Expr.binary k₂ (.constant c) r).WellTyped) (hw : cl.width = c.width) {f : APInt → Option Expr}
    (hf : ∀ ab : APInt, ab.width = r.width → Builds opt (.binary (k₁.times k₂) (.constant ab) r) (f ab)) :
    Builds opt (.binary k₁ (.constant cl) (.binary k₂ (.constant c) r)) (foldConstants k₁ cl c >>= f) := by
  obtain ⟨-, hr, hcr⟩ := hr
  have hcr' : (Expr.binary k₁ (.constant cl) (.constant c)).width = r.width := hw.trans hcr
  simp only [foldConstants, if_pos hw, Option.bind_eq_bind, Option.bind_some]
  refine Builds.of_refines ?_ (hf _ (hw.trans hcr))
  exact (refines_assocR h₁ h₂ (wellTyped_constant cl) (wellTyped_constant c) hr hw (hw.trans hcr)).trans
    (Refines.binary _ hcr' (refines_fold_binary k₁ cl c) (.refl hr))

variable (opt)

/-- `AddExpr_createPartialR` and `SubExpr_createPartialR`, by induction on the right operand. -/
theorem sum_createPartialR_builds {cl : APInt} {r : Expr} (hr : r.WellTyped) (hw : cl.width = r.width) :
    Builds opt (.binary .add (.constant cl) r) (AddExpr.createPartialR opt cl r) ∧
    Builds opt (.binary .sub (.constant cl) r) (SubExpr.createPartialR opt cl r) := by
  induction hn : r.nodes using Nat.strong_induction_on generalizing cl r with
  | _ n ih =>
  subst hn
  -- what is left under a constant has fewer nodes
  have hrest : ∀ {kind : BinaryKind} {b ab : APInt} {c : Expr}, r = .binary kind (.constant b) c →
      ab.width = c.width →
      Builds opt (.binary .add (.constant ab) c) (withConstantL .add ab c (AddExpr.createPartialR opt ab c)) ∧
      Builds opt (.binary .sub (.constant ab) c) (withConstantL .sub ab c (SubExpr.createPartialR opt ab c)) := by
    rintro kind b ab c rfl hab
    obtain ⟨hadd, hsub⟩ := ih c.nodes (by simp only [Expr.nodes]; omega) hr.2.1 hab rfl
    exact ⟨withConstantL_builds hab hadd, withConstantL_builds hab hsub⟩
  constructor
  · unfold AddExpr.createPartialR
    split
    · rename_i h1
      exact Builds.of_refines (refines_bool_xor (Or.inl rfl) trivial hr h1 (hw.symm.trans h1))
        (XorExpr.createPartialR_builds opt hr hw)
    · split
      · rename_i hzero
        exact Builds.pure (refines_zero_add hr hw hzero)
      · split
        · exact folded_builds (.inl rfl) (.inl rfl) hr hw fun ab hab => (hrest rfl hab).1
        · exact folded_builds (.inl rfl) (.inr rfl) hr hw fun ab hab => (hrest rfl hab).2
        · exact Builds.self ⟨trivial, hr, hw⟩
  · unfold SubExpr.createPartialR
    split
    · rename_i h1
      exact Builds.of_refines (refines_bool_xor (Or.inr rfl) trivial hr h1 (hw.symm.trans h1))
        (XorExpr.createPartialR_builds opt hr hw)
    · split
      · exact folded_builds (.inr rfl) (.inl rfl) hr hw fun ab hab => (hrest rfl hab).2
      · exact folded_builds (.inr rfl) (.inr rfl) hr hw fun ab hab => (hrest rfl hab).1
      · exact Builds.self ⟨trivial, hr, hw⟩

theorem AddExpr.createL_builds (hr : r.WellTyped) (hw : cl.width = r.width) :
    Builds opt (.binary .add (.constant cl) r) (AddExpr.createL opt cl r) :=
  withConstantL_builds hw (sum_createPartialR_builds opt hr hw).1

theorem SubExpr.createL_builds (hr : r.WellTyped) (hw : cl.width = r.width) :
    Builds opt (.binary .sub (.constant cl) r) (SubExpr.createL opt cl r) :=
  withConstantL_builds hw (sum_createPartialR_builds opt hr hw).2

theorem SubExpr.createPartial_builds (hl : l.WellTyped) (hw : l.width = c.width) :
    Builds opt (.binary .sub l (.constant c)) (SubExpr.createPartial opt l c) := by
  obtain ⟨w, v⟩ := c
  dsimp only at hw
  refine Builds.of_refines ?_ (sum_createPartialR_builds opt hl hw.symm).1
  refine refines_binary_of_eval ⟨trivial, hl, hw.symm⟩ hw.symm (fun m h _ => ⟨trivial, h, nofun⟩) ?_
  intro m
  obtain ⟨x, hx⟩ := APInt.exists_value ((l.width_eval m hl).trans hw)
  simp only [Expr.eval, hx, APInt.ofNat, APInt.map₂_mk, BinaryKind.apply, APInt.mk.injEq, heq_eq_eq, true_and]
  rw [BitVec.zero_sub]
  ring

theorem SubExpr.createConstantR_builds (hl : l.WellTyped) (hw : l.width = c.width) :
    Builds opt (.binary .sub l (.constant c)) (SubExpr.createConstantR opt l c) := by
  unfold SubExpr.createConstantR
  rw [if_pos hw]
  split
  · exact Builds.pure (refines_fold_binary .sub _ _)
  · exact SubExpr.createPartial_builds opt hl hw

variable {opt}

theorem refines_add_subL (ha : a.WellTyped) (hb : b.WellTyped) (he : e.WellTyped) (hab : a.width = b.width)
    (hae : a.width = e.width) :
    (Expr.binary .add (.binary .sub a b) e).Refines opt (.binary .add a (.binary .sub e b)) :=
  (refines_commR (.inl rfl) (.inr rfl) ha hb he hab hae).trans
    (refines_assocL (.inr rfl) (.inl rfl) ha he hb hae hab)

theorem refines_add_sumR {kind : BinaryKind} (hkind : kind.IsSum) (ha : a.WellTyped) (hb : b.WellTyped)
    (hka : k.width = a.width) (hkb : k.width = b.width) :
    (Expr.binary .add a (.binary kind (.constant k) b)).Refines opt
      (.binary .add (.constant k) (.binary kind a b)) :=
  refines_leftComm hkind ha trivial hb hka.symm (hka.symm.trans hkb)

theorem refines_sub_addR (ha : a.WellTyped) (hb : b.WellTyped) (hka : k.width = a.width) (hkb : k.width = b.width) :
    (Expr.binary .sub a (.binary .add (.constant k) b)).Refines opt
      (.binary .sub (.binary .sub a b) (.constant k)) := by
  have hab : a.width = b.width := hka.symm.trans hkb
  exact (refines_assocR (.inr rfl) (.inl rfl) ha (wellTyped_constant k) hb hka.symm hab).trans
    (refines_commR (.inr rfl) (.inr rfl) ha (wellTyped_constant k) hb hka.symm hab)

theorem refines_sub_subR (ha : a.WellTyped) (hb : b.WellTyped) (hka : k.width = a.width) (hkb : k.width = b.width) :
    (Expr.binary .sub a (.binary .sub (.constant k) b)).Refines opt
      (.binary .sub (.binary .add a b) (.constant k)) := by
  have hab : a.width = b.width := hka.symm.trans hkb
  exact (refines_assocR (.inr rfl) (.inr rfl) ha (wellTyped_constant k) hb hka.symm hab).trans
    (refines_commR (.inl rfl) (.inr rfl) ha (wellTyped_constant k) hb hka.symm hab)

theorem refines_sub_self (ha : a.WellTyped) : (Expr.binary .sub a a).Refines opt (.ofNat a.width 0) := by
  refine refines_binary_of_values ha ha rfl trivial rfl (fun _ _ _ => trivial) ?_
  intro m x y hx hy
  obtain rfl : x = y := by simpa using hx.symm.trans hy
  simp [APInt.ofNat, BinaryKind.apply]

variable (opt)

/-- `AddExpr::create` and `SubExpr::create`, by induction on the nodes of both operands. -/
theorem sum_create_builds {l r : Expr} (hl : l.WellTyped) (hr : r.WellTyped) (hw : l.width = r.width) :
    Builds opt (.binary .add l r) (AddExpr.create opt l r) ∧
    Builds opt (.binary .sub l r) (SubExpr.create opt l r) := by
  induction hn : l.nodes + r.nodes using Nat.strong_induction_on generalizing l r with
  | _ n ih =>
  subst hn
  constructor
  · unfold AddExpr.create
    rw [if_pos hw]
    split
    · exact Builds.pure (refines_fold_binary .add _ _)
    · exact (sum_createPartialR_builds opt hr hw).1
    · exact Builds.of_refines (refines_binary_swap rfl BitVec.add_comm hl hr hw)
        (sum_createPartialR_builds opt hl hw.symm).1
    · split
      · rename_i h1
        exact Builds.pure (refines_bool_xor (Or.inl rfl) hl hr h1 (hw.symm.trans h1))
      · split
        · obtain ⟨-, ha, hka⟩ := hl
          have hab := ih _ (by simp only [Expr.nodes]; omega) ha hr (hka.symm.trans hw) rfl
          exact Builds.bindR (refines_assocL (.inl rfl) (.inl rfl) trivial ha hr hka hw) hab.1 fun e he hwe =>
            AddExpr.createL_builds opt he hwe
        · obtain ⟨-, ha, hka⟩ := hl
          have hba := ih _ (by simp only [Expr.nodes]; omega) hr ha (hw.symm.trans hka) rfl
          exact Builds.bindR (refines_add_subL trivial ha hr hka hw) hba.2 fun e he hwe =>
            AddExpr.createL_builds opt he hwe
        · obtain ⟨-, hb, hkb⟩ := hr
          have hab := ih _ (by simp only [Expr.nodes]; omega) hl hb (hw.trans hkb) rfl
          exact Builds.bindR (refines_add_sumR (.inl rfl) hl hb hw.symm hkb) hab.1 fun e he hwe =>
            AddExpr.createL_builds opt he hwe
        · obtain ⟨-, hb, hkb⟩ := hr
          have hab := ih _ (by simp only [Expr.nodes]; omega) hl hb (hw.trans hkb) rfl
          exact Builds.bindR (refines_add_sumR (.inr rfl) hl hb hw.symm hkb) hab.2 fun e he hwe =>
            AddExpr.createL_builds opt he hwe
        · exact Builds.self ⟨hl, hr, hw⟩
  · unfold SubExpr.create
    rw [if_pos hw]
    split
    · exact Builds.pure (refines_fold_binary .sub _ _)
    · exact (sum_createPartialR_builds opt hr hw).2
    · exact SubExpr.createPartial_builds opt hl hw
    · split
      · rename_i h1
        exact Builds.pure (refines_bool_xor (Or.inr rfl) hl hr h1 (hw.symm.trans h1))
      · split
        · rename_i heq
          subst heq
          exact Builds.pure (refines_sub_self hl)
        · split
          · obtain ⟨-, ha, hka⟩ := hl
            have hab := ih _ (by simp only [Expr.nodes]; omega) ha hr (hka.symm.trans hw) rfl
            exact Builds.bindR (refines_assocL (.inr rfl) (.inl rfl) trivial ha hr hka hw) hab.2 fun e he hwe =>
              AddExpr.createL_builds opt he hwe
          · obtain ⟨-, ha, hka⟩ := hl
            have hab := ih _ (by simp only [Expr.nodes]; omega) ha hr (hka.symm.trans hw) rfl
            exact Builds.bindR (refines_assocL (.inr rfl) (.inr rfl) trivial ha hr hka hw) hab.1 fun e he hwe =>
              SubExpr.createL_builds opt he hwe
          · obtain ⟨-, hb, hkb⟩ := hr
            have hab := ih _ (by simp only [Expr.nodes]; omega) hl hb (hw.trans hkb) rfl
            exact Builds.bindL (refines_sub_addR hl hb hw.symm hkb) hab.2 fun e he hwe =>
              SubExpr.createConstantR_builds opt he hwe
          · obtain ⟨-, hb, hkb⟩ := hr
            have hab := ih _ (by simp only [Expr.nodes]; omega) hl hb (hw.trans hkb) rfl
            exact Builds.bindL (refines_sub_subR hl hb hw.symm hkb) hab.1 fun e he hwe =>
              SubExpr.createConstantR_builds opt he hwe
          · exact Builds.self ⟨hl, hr, hw⟩

end Partial

theorem refines_binary_of_bits (hl : l.WellTyped) (hr : r.WellTyped) (hwl : l.width = 1)
    (hwr : r.width = 1) (he : e.WellTyped) (hw : e.width = 1) (hd : ∀ m, l.Defined m → r.Defined m → e.Defined m)
    (hv : ∀ m (x y : BitVec 1), l.eval m = ⟨1, x⟩ → r.eval m = ⟨1, y⟩ → e.eval m = ⟨1, kind.apply x y⟩) :
    (Expr.binary kind l r).Refines opt e := by
  refine refines_binary_of_eval he (hw.trans hwl.symm) hd ?_
  intro m
  obtain ⟨x, y, hx, hy⟩ := exists_bits hl hr hwl hwr m
  rw [hv m x y hx hy, hx, hy, APInt.map₂_mk]

theorem refines_cmp_of_bits {kind : CmpKind} (hl : l.WellTyped) (hr : r.WellTyped) (hwl : l.width = 1)
    (hwr : r.width = 1) (he : e.WellTyped) (hw : e.width = 1) (hd : ∀ m, l.Defined m → r.Defined m → e.Defined m)
    (hv : ∀ m (x y : BitVec 1), l.eval m = ⟨1, x⟩ → r.eval m = ⟨1, y⟩ → e.eval m = .ofBool (kind.apply x y)) :
    (Expr.cmp kind l r).Refines opt e := by
  refine refines_cmp_of_eval he hw hd ?_
  intro m
  obtain ⟨x, y, hx, hy⟩ := exists_bits hl hr hwl hwr m
  rw [hv m x y hx hy, hx, hy, APInt.rel₂_mk]

theorem refines_bool_and (hl : l.WellTyped) (hr : r.WellTyped) (hwl : l.width = 1) (hwr : r.width = 1) :
    (Expr.binary .mul l r).Refines opt (.binary .and l r) := by
  refine refines_binary_of_bits hl hr hwl hwr ⟨hl, hr, hwl.trans hwr.symm⟩ hwl (fun m h h' => ⟨h, h', nofun⟩) ?_
  intro m x y hx hy
  simp only [Expr.eval, hx, hy, APInt.map₂_mk, APInt.mk.injEq, heq_eq_eq, true_and]
  clear hx hy
  revert x y
  decide

theorem isOne_iff : isOne c = true ↔ c.value.toNat = 1 := decide_eq_true_iff

theorem mul_of_isOne (hc : isOne c = true) (x : BitVec c.width) : BinaryKind.mul.apply c.value x = x := by
  apply BitVec.eq_of_toNat_eq
  simp only [BinaryKind.apply]
  rw [BitVec.toNat_mul, isOne_iff.mp hc, Nat.one_mul, Nat.mod_eq_of_lt x.isLt]

theorem MulExpr.createPartialR_builds (hr : r.WellTyped) (hw : cl.width = r.width) :
    Builds opt (.binary .mul (.constant cl) r) (MulExpr.createPartialR cl r) := by
  unfold MulExpr.createPartialR
  split_ifs with h1 hone hzero
  · exact Builds.of_refines (refines_bool_and trivial hr h1 (hw.symm.trans h1)) (AndExpr.createPartial_builds hr hw)
  · exact Builds.pure (refines_neutral hr hw (mul_of_isOne hone))
  · refine Builds.pure (refines_absorbing hr hw fun x => ?_)
    rw [isZero_iff.mp hzero]
    exact BitVec.zero_mul
  · exact Builds.self ⟨trivial, hr, hw⟩

theorem MulExpr.create_builds (hl : l.WellTyped) (hr : r.WellTyped) (hw : l.width = r.width) :
    Builds opt (.binary .mul l r) (MulExpr.create l r) := by
  refine commutative_builds rfl BitVec.mul_comm MulExpr.createPartialR_builds hl hr hw ?_
  split
  · rename_i h1
    exact Builds.pure (refines_bool_and hl hr h1 (hw.symm.trans h1))
  · exact Builds.self ⟨hl, hr, hw⟩

theorem createB_binary_builds (bool : Expr → Expr → Option Expr) (hl : l.WellTyped)
    (hr : r.WellTyped) (hw : l.width = r.width)
    (hbool : l.width = 1 → r.width = 1 → Builds opt (.binary kind l r) (bool l r)) :
    Builds opt (.binary kind l r)
      (createB (APInt.map₂ kind.apply) (fun l r => if l.width = 1 then bool l r else some (.binary kind l r)) l r) := by
  refine createB_builds (.binary kind) hw (refines_fold_binary kind) ?_
  split
  · rename_i h1
    exact hbool h1 (hw.symm.trans h1)
  · exact Builds.self ⟨hl, hr, hw⟩

theorem refines_bool_left (hl : l.WellTyped) (hr : r.WellTyped) (hwl : l.width = 1)
    (hwr : r.width = 1) (hk : ∀ x y : BitVec 1, x = kind.apply x y) :
    (Expr.binary kind l r).Refines opt l := by
  refine refines_binary_of_bits hl hr hwl hwr hl hwl (fun _ h _ => h) ?_
  intro m x y hx _
  rw [hx, ← hk x y]

theorem refines_bool_zero (hl : l.WellTyped) (hr : r.WellTyped) (hwl : l.width = 1)
    (hwr : r.width = 1) (hk : ∀ x y : BitVec 1, 0 = kind.apply x y) :
    (Expr.binary kind l r).Refines opt (.ofBool false) := by
  refine refines_binary_of_bits hl hr hwl hwr trivial rfl (fun _ _ _ => trivial) ?_
  intro m x y _ _
  rw [← hk x y]
  rfl

theorem dividesByZero_eq_false (hkind : kind.isDivision = true)
    (hdef : ∃ m, (Expr.binary kind l r).Defined m) : dividesByZero l r = false := by
  obtain ⟨m, -, -, hdiv⟩ := hdef
  unfold dividesByZero
  split
  · rw [Bool.eq_false_iff]
    intro hzero
    apply hdiv hkind
    exact of_decide_eq_true hzero
  · rfl

theorem createDivision_builds {bool : Expr → Expr} (hl : l.WellTyped) (hr : r.WellTyped)
    (hw : l.width = r.width) (hdiv : dividesByZero l r = false)
    (hbool : l.width = 1 → r.width = 1 → (Expr.binary kind l r).Refines opt (bool l)) :
    Builds opt (.binary kind l r) (createDivision kind bool l r) := by
  unfold createDivision
  rw [hdiv]
  exact createB_binary_builds (fun l _ => some (bool l)) hl hr hw fun hwl hwr => Builds.pure (hbool hwl hwr)

theorem UDivExpr.create_builds (hl : l.WellTyped) (hr : r.WellTyped) (hw : l.width = r.width)
    (hdiv : dividesByZero l r = false) : Builds opt (.binary .udiv l r) (UDivExpr.create l r) :=
  createDivision_builds hl hr hw hdiv fun hwl hwr => refines_bool_left hl hr hwl hwr (by decide)

theorem SDivExpr.create_builds (hl : l.WellTyped) (hr : r.WellTyped) (hw : l.width = r.width)
    (hdiv : dividesByZero l r = false) : Builds opt (.binary .sdiv l r) (SDivExpr.create l r) :=
  createDivision_builds hl hr hw hdiv fun hwl hwr => refines_bool_left hl hr hwl hwr (by decide)

theorem URemExpr.create_builds (hl : l.WellTyped) (hr : r.WellTyped) (hw : l.width = r.width)
    (hdiv : dividesByZero l r = false) : Builds opt (.binary .urem l r) (URemExpr.create l r) :=
  createDivision_builds hl hr hw hdiv fun hwl hwr => refines_bool_zero hl hr hwl hwr (by decide)

theorem SRemExpr.create_builds (hl : l.WellTyped) (hr : r.WellTyped) (hw : l.width = r.width)
    (hdiv : dividesByZero l r = false) : Builds opt (.binary .srem l r) (SRemExpr.create l r) :=
  createDivision_builds hl hr hw hdiv fun hwl hwr => refines_bool_zero hl hr hwl hwr (by decide)

theorem AShrExpr.create_builds (hl : l.WellTyped) (hr : r.WellTyped) (hw : l.width = r.width) :
    Builds opt (.binary .ashr l r) (AShrExpr.create l r) := by
  refine createB_binary_builds (fun l _ => some l) hl hr hw fun hwl hwr => ?_
  exact Builds.pure (refines_bool_left hl hr hwl hwr (by decide))

section Bool

variable (opt)

theorem andNot_builds (hr : r.WellTyped)
    (h : e.Refines opt (.binary .and l (.cmp .eq r (.ofNat r.width 0)))) : Builds opt e (andNot opt l r) := by
  refine Builds.bindR h (Expr.createIsZero_builds opt hr) fun notR hnotR hw => ?_
  exact AndExpr.create_builds h.wellTyped.1 hnotR hw

theorem notOr_builds (hl : l.WellTyped)
    (h : e.Refines opt (.binary .or (.cmp .eq l (.ofNat l.width 0)) r)) : Builds opt e (notOr opt l r) := by
  refine Builds.bindL h (Expr.createIsZero_builds opt hl) fun notL hnotL hw => ?_
  exact OrExpr.create_builds hnotL h.wellTyped.2.1 hw

variable {opt} in
theorem refines_bool_shift {kind : BinaryKind} (hl : l.WellTyped) (hr : r.WellTyped) (hwl : l.width = 1)
    (hwr : r.width = 1) (hk : ∀ x y : BitVec 1, x &&& BitVec.ofBool (y == 0) = kind.apply x y) :
    (Expr.binary kind l r).Refines opt (.binary .and l (.cmp .eq r (.ofNat r.width 0))) := by
  rw [hwr]
  refine refines_binary_of_bits hl hr hwl hwr ⟨hl, ⟨hr, trivial, hwr⟩, hwl⟩ hwl
    (fun m h h' => ⟨h, ⟨h', trivial⟩, nofun⟩) ?_
  intro m x y hx hy
  rw [← hk x y]
  simp [Expr.eval, hx, hy, APInt.ofNat, APInt.ofBool, CmpKind.apply, BinaryKind.apply]

theorem ShlExpr.create_builds (hl : l.WellTyped) (hr : r.WellTyped) (hw : l.width = r.width) :
    Builds opt (.binary .shl l r) (ShlExpr.create opt l r) := by
  refine createB_binary_builds (andNot opt) hl hr hw fun hwl hwr => ?_
  exact andNot_builds opt hr (refines_bool_shift hl hr hwl hwr (by decide))

theorem LShrExpr.create_builds (hl : l.WellTyped) (hr : r.WellTyped) (hw : l.width = r.width) :
    Builds opt (.binary .lshr l r) (LShrExpr.create opt l r) := by
  refine createB_binary_builds (andNot opt) hl hr hw fun hwl hwr => ?_
  exact andNot_builds opt hr (refines_bool_shift hl hr hwl hwr (by decide))

theorem BinaryKind.create_builds (kind : BinaryKind) (hl : l.WellTyped) (hr : r.WellTyped) (hw : l.width = r.width)
    (hdiv : kind.isDivision = true → dividesByZero l r = false) :
    Builds opt (.binary kind l r) (kind.create opt l r) := by
  cases kind with
  | add => exact (sum_create_builds opt hl hr hw).1
  | sub => exact (sum_create_builds opt hl hr hw).2
  | mul => exact MulExpr.create_builds hl hr hw
  | udiv => exact UDivExpr.create_builds hl hr hw (hdiv rfl)
  | sdiv => exact SDivExpr.create_builds hl hr hw (hdiv rfl)
  | urem => exact URemExpr.create_builds hl hr hw (hdiv rfl)
  | srem => exact SRemExpr.create_builds hl hr hw (hdiv rfl)
  | and => exact AndExpr.create_builds hl hr hw
  | or => exact OrExpr.create_builds hl hr hw
  | xor => exact XorExpr.create_builds opt hl hr hw
  | shl => exact ShlExpr.create_builds opt hl hr hw
  | lshr => exact LShrExpr.create_builds opt hl hr hw
  | ashr => exact AShrExpr.create_builds hl hr hw

variable {kind : CmpKind}

variable {opt} in
theorem createB_cmp_builds (bool : Expr → Expr → Option Expr) (hl : l.WellTyped) (hr : r.WellTyped)
    (hw : l.width = r.width) (hbool : l.width = 1 → r.width = 1 → Builds opt (.cmp kind l r) (bool l r)) :
    Builds opt (.cmp kind l r)
      (createB (APInt.rel₂ kind.apply) (fun l r => if l.width = 1 then bool l r else some (.cmp kind l r)) l r) := by
  refine createB_builds (.cmp kind) hw (refines_fold_cmp kind) ?_
  split
  · rename_i h1
    exact hbool h1 (hw.symm.trans h1)
  · exact Builds.self ⟨hl, hr, hw⟩

variable {opt} in
theorem refines_bool_notR (op : BinaryKind) (hop : op.isDivision = false) (hl : l.WellTyped)
    (hr : r.WellTyped) (hwl : l.width = 1) (hwr : r.width = 1)
    (hk : ∀ x y : BitVec 1, op.apply x (BitVec.ofBool (y == 0)) = BitVec.ofBool (kind.apply x y)) :
    (Expr.cmp kind l r).Refines opt (.binary op l (.cmp .eq r (.ofNat r.width 0))) := by
  rw [hwr]
  refine refines_cmp_of_bits hl hr hwl hwr ⟨hl, ⟨hr, trivial, hwr⟩, hwl⟩ hwl
    (fun m h h' => ⟨h, ⟨h', trivial⟩, by simp [hop]⟩) ?_
  intro m x y hx hy
  simp only [Expr.eval, hx, hy, eval_ofNat, APInt.ofNat, APInt.rel₂_mk, APInt.ofBool, APInt.map₂_mk, ← hk x y]
  rfl

variable {opt} in
theorem refines_bool_notL (op : BinaryKind) (hop : op.isDivision = false) (hl : l.WellTyped)
    (hr : r.WellTyped) (hwl : l.width = 1) (hwr : r.width = 1)
    (hk : ∀ x y : BitVec 1, op.apply (BitVec.ofBool (x == 0)) y = BitVec.ofBool (kind.apply x y)) :
    (Expr.cmp kind l r).Refines opt (.binary op (.cmp .eq l (.ofNat l.width 0)) r) := by
  rw [hwl]
  refine refines_cmp_of_bits hl hr hwl hwr ⟨⟨hl, trivial, hwl⟩, hr, hwr.symm⟩ rfl
    (fun m h h' => ⟨⟨h, trivial⟩, h', by simp [hop]⟩) ?_
  intro m x y hx hy
  simp only [Expr.eval, hx, hy, eval_ofNat, APInt.ofNat, APInt.rel₂_mk, APInt.ofBool, APInt.map₂_mk, ← hk x y]
  rfl

theorem UltExpr.create_builds (hl : l.WellTyped) (hr : r.WellTyped) (hw : l.width = r.width) :
    Builds opt (.cmp .ult l r) (UltExpr.create opt l r) := by
  refine createB_cmp_builds (fun l r => do AndExpr.create (← l.createIsZero opt) r) hl hr hw
    fun hwl hwr => ?_
  refine Builds.bindL (refines_bool_notL .and rfl hl hr hwl hwr (by decide)) (Expr.createIsZero_builds opt hl)
    fun notL hnotL hw => ?_
  exact AndExpr.create_builds hnotL hr hw

theorem UleExpr.create_builds (hl : l.WellTyped) (hr : r.WellTyped) (hw : l.width = r.width) :
    Builds opt (.cmp .ule l r) (UleExpr.create opt l r) := by
  refine createB_cmp_builds (notOr opt) hl hr hw fun hwl hwr => ?_
  exact notOr_builds opt hl (refines_bool_notL .or rfl hl hr hwl hwr (by decide))

theorem SltExpr.create_builds (hl : l.WellTyped) (hr : r.WellTyped) (hw : l.width = r.width) :
    Builds opt (.cmp .slt l r) (SltExpr.create opt l r) := by
  refine createB_cmp_builds (andNot opt) hl hr hw fun hwl hwr => ?_
  exact andNot_builds opt hr (refines_bool_notR .and rfl hl hr hwl hwr (by decide))

theorem SleExpr.create_builds (hl : l.WellTyped) (hr : r.WellTyped) (hw : l.width = r.width) :
    Builds opt (.cmp .sle l r) (SleExpr.create opt l r) := by
  refine createB_cmp_builds (fun l r => do OrExpr.create l (← r.createIsZero opt)) hl hr hw
    fun hwl hwr => ?_
  refine Builds.bindR (refines_bool_notR .or rfl hl hr hwl hwr (by decide)) (Expr.createIsZero_builds opt hr)
    fun notR hnotR hw => ?_
  exact OrExpr.create_builds hl hnotR hw

variable {opt} in
theorem refines_ne (hl : l.WellTyped) (hr : r.WellTyped) (hw : l.width = r.width) :
    (Expr.cmp .ne l r).Refines opt (.cmp .eq (.ofBool false) (.cmp .eq l r)) := by
  refine refines_cmp_of_eval ⟨trivial, ⟨hl, hr, hw⟩, rfl⟩ rfl (fun m h h' => ⟨trivial, h, h'⟩) ?_
  intro m
  obtain ⟨x, y, hx, hy⟩ := exists_values hl hr hw m
  simp only [Expr.eval, hx, hy, eval_ofBool, APInt.rel₂_mk, APInt.ofBool, CmpKind.apply, bne]
  cases x == y with
  | true => rfl
  | false => rfl

theorem NeExpr.create_builds (hl : l.WellTyped) (hr : r.WellTyped) (hw : l.width = r.width) :
    Builds opt (.cmp .ne l r) (NeExpr.create opt l r) := by
  refine Builds.of_refines (refines_ne hl hr hw) ?_
  refine Builds.bind (EqExpr.create_builds opt hl hr hw) fun eq heq => ?_
  exact Builds.of_refines (Refines.cmp .eq rfl (.refl trivial) heq)
    (EqExpr.create_builds opt trivial heq.wellTyped heq.width.symm)

variable {opt} in
theorem refines_cmp_swap {kind' : CmpKind} (hl : l.WellTyped) (hr : r.WellTyped) (hw : l.width = r.width)
    (hk : ∀ {w : Nat} (x y : BitVec w), kind'.apply y x = kind.apply x y) :
    (Expr.cmp kind l r).Refines opt (.cmp kind' r l) := by
  refine refines_cmp_of_eval ⟨hr, hl, hw.symm⟩ rfl (fun m h h' => ⟨h', h⟩) ?_
  intro m
  obtain ⟨x, y, hx, hy⟩ := exists_values hl hr hw m
  simp only [Expr.eval, hx, hy, APInt.rel₂_mk, hk]

theorem CmpKind.create_builds (kind : CmpKind) (hl : l.WellTyped) (hr : r.WellTyped) (hw : l.width = r.width) :
    Builds opt (.cmp kind l r) (kind.create opt l r) := by
  cases kind with
  | eq => exact EqExpr.create_builds opt hl hr hw
  | ne => exact NeExpr.create_builds opt hl hr hw
  | ult => exact UltExpr.create_builds opt hl hr hw
  | ule => exact UleExpr.create_builds opt hl hr hw
  | slt => exact SltExpr.create_builds opt hl hr hw
  | sle => exact SleExpr.create_builds opt hl hr hw
  | ugt =>
    exact Builds.of_refines (refines_cmp_swap hl hr hw fun _ _ => rfl) (UltExpr.create_builds opt hr hl hw.symm)
  | uge =>
    exact Builds.of_refines (refines_cmp_swap hl hr hw fun _ _ => rfl) (UleExpr.create_builds opt hr hl hw.symm)
  | sgt =>
    exact Builds.of_refines (refines_cmp_swap hl hr hw fun _ _ => rfl) (SltExpr.create_builds opt hr hl hw.symm)
  | sge =>
    exact Builds.of_refines (refines_cmp_swap hl hr hw fun _ _ => rfl) (SleExpr.create_builds opt hr hl hw.symm)

end Bool

end CgsKlee
