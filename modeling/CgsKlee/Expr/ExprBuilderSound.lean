import CgsKlee.Expr.CreateSound
import CgsKlee.Expr.ExprBuilderSums

/-!
# The expression builders preserve meaning

Every call of a stack of builders with well-typed operands returns an expression that refines the plain node, unless the
node divides by a constant zero.  The layers are treated alike: what the dispatch on constants needs of the helper class
(`specialize_refines`), then the rules of each kind, and the calls from one layer to the other by the results for the
layer below.
-/

namespace CgsKlee

open Expr ConstantExpr

variable {l r e : Expr} {c : APInt}

theorem specialize_refines {p : Expr} {fold : APInt → APInt → Option APInt} {constantL : APInt → Expr → Option Expr}
    {constantR : Expr → APInt → Option Expr} {nonConstant : Expr → Expr → Option Expr}
    (hfold : ∀ a b, l = .constant a → r = .constant b → Builds false p ((fold a b).map .constant))
    (hL : ∀ a, l = .constant a → Builds false p (constantL a r))
    (hR : ∀ b, r = .constant b → Builds false p (constantR l b)) (hN : Builds false p (nonConstant l r)) :
    Builds false p (specialize fold constantL constantR nonConstant l r) := by
  unfold specialize
  split
  · exact hfold _ _ rfl rfl
  · exact hL _ rfl
  · exact hR _ rfl
  · exact hN

def NotByZero (kind : BinaryKind) (r : Expr) : Prop :=
  kind.isDivision = true → ∀ c, r = .constant c → isZero c = false

theorem fold_builds {kind : BinaryKind} {a b : APInt} (hw : a.width = b.width) (hd : NotByZero kind (.constant b)) :
    Builds false (.binary kind (.constant a) (.constant b)) ((fold kind a b).map .constant) := by
  have hfold : fold kind a b = some (APInt.map₂ kind.apply a b) := by
    unfold fold
    rw [if_pos ⟨hw, fun hdiv => by rw [hd hdiv.1 b rfl] at hdiv; exact absurd hdiv.2 (by decide)⟩]
  rw [hfold]
  exact Builds.pure (refines_fold_binary kind a b)

theorem compare_builds {kind : CmpKind} {a b : APInt} (hw : a.width = b.width) :
    Builds false (.cmp kind (.constant a) (.constant b)) ((compare kind a b).map .constant) := by
  have hcompare : compare kind a b = some (APInt.rel₂ kind.apply a b) := if_pos hw
  rw [hcompare]
  exact Builds.pure (refines_fold_cmp kind a b)

theorem complement_mk {w : Nat} (x : BitVec w) : APInt.complement ⟨w, x⟩ = ⟨w, ~~~x⟩ := rfl

theorem complement_complement (a : APInt) : a.complement.complement = a := by
  obtain ⟨w, x⟩ := a
  rw [complement_mk, complement_mk, BitVec.not_not]

theorem refines_eq_false (hr : r.WellTyped) (hw : r.width = 1) (hc : c = ⟨1, 0⟩) :
    (Expr.cmp .eq (.constant c) r).Refines false (.not r) := by
  subst hc
  refine refines_cmp_of_eval hr hw (fun m _ h => h) ?_
  intro m
  obtain ⟨x, hx⟩ := APInt.exists_value ((r.width_eval m hr).trans hw)
  simp only [Expr.eval, hx, complement_mk, APInt.rel₂_mk, CmpKind.apply, APInt.ofBool, APInt.mk.injEq, heq_eq_eq,
    true_and]
  clear hx
  revert x
  decide

theorem refines_not_or_and (h : (Expr.binary .or l r).WellTyped) :
    (Expr.not (.binary .or l r)).Refines false (.binary .and (.not l) (.not r)) where
  wellTyped := h
  width := rfl
  defined := by
    rintro m ⟨hdl, hdr, -⟩
    exact ⟨hdl, hdr, nofun⟩
  eval := by
    intro m _
    obtain ⟨hl, hr, hw⟩ := h
    obtain ⟨x, y, hx, hy⟩ := exists_values hl hr hw m
    simp only [Expr.eval, hx, hy, complement_mk, APInt.map₂_mk, BinaryKind.apply, BitVec.not_or]

theorem refines_not {e' : Expr} (h : e.Refines false e') : (Expr.not e).Refines false (.not e') where
  wellTyped := h.wellTyped
  width := h.width
  defined := h.defined
  eval := by
    intro m _
    simp only [Expr.eval, h.eval m fun hopt => absurd hopt Bool.false_ne_true]

section Read

variable {root : ExprArray} {index : Expr}

theorem rollBack_spec {Eq : Expr → Expr → Option Expr} (hindex : index.WellTyped) (hdom : index.width = root.domain)
    (hEq : ∀ {i : Expr}, i.WellTyped → index.width = i.width → Builds false (.cmp .eq index i) (Eq index i)) :
    ∀ head : UpdateNode, head.WellTyped root →
    ∃ un, rollBack Eq index head = some un ∧ ReadExpr.Found false root head index (.inr un)
  | .nil, _ => ⟨.nil, rfl, trivial, fun _ _ _ => trivial, fun _ _ _ => rfl⟩
  | .cons i value next, hhead => by
    obtain ⟨hi, hvalue, hnext, hwi, hwv⟩ := hhead
    have hself : ReadExpr.Found false root (.cons i value next) index (.inr (.cons i value next)) :=
      ⟨⟨hi, hvalue, hnext, hwi, hwv⟩, fun _ _ hd => hd, fun _ _ _ => rfl⟩
    obtain ⟨eq, heq, href⟩ := hEq hi (hdom.trans hwi.symm)
    simp only [rollBack, heq, Option.bind_eq_bind, Option.bind_some]
    split
    · rename_i c
      split
      · rename_i hfalse
        obtain ⟨un, hun, hfound⟩ := rollBack_spec hindex hdom hEq next hnext
        refine ⟨un, hun, hfound.cons ?_⟩
        intro m _ hsame
        have hwidth : (index.eval m).width = (i.eval m).width := by
          rw [index.width_eval m hindex, i.width_eval m hi, hdom, hwi]
        have hvalue : c = APInt.ofBool (decide (index.eval m = i.eval m)) := by
          have hc : c = (Expr.cmp .eq index i).eval m := href.eval m nofun
          rw [hc, Expr.eval, CmpKind.rel₂_eq hwidth]
        rw [hvalue, decide_eq_true ((APInt.toNat_eq_iff hwidth).mp hsame.symm)] at hfalse
        exact absurd hfalse (by decide)
      · exact ⟨_, rfl, hself⟩
    · exact ⟨_, rfl, hself⟩

theorem refines_read {head un : UpdateNode} (h : (Expr.read root head index).WellTyped)
    (hfound : ReadExpr.Found false root head index (.inr un)) :
    (Expr.read root head index).Refines false (.read root un index) where
  wellTyped := ⟨h.1, hfound.1, h.2.2⟩
  width := rfl
  defined m hd := ⟨hfound.2.1 m hd.2.1 hd.1, hd.2⟩
  eval m _ := hfound.2.2 m nofun _

end Read

def Expr.NotByZero : Expr → Prop
  | .binary kind _ r => CgsKlee.NotByZero kind r
  | _ => True

namespace ConstantFoldingBuilder

theorem commuted_builds {kind : BinaryKind} {withConstant : APInt → Expr → Option Expr} (hdiv : kind.isDivision = false)
    (hcomm : ∀ {w : Nat} (x y : BitVec w), kind.apply x y = kind.apply y x)
    (hwith : ∀ {c r}, r.WellTyped → c.width = r.width → Builds false (.binary kind (.constant c) r) (withConstant c r))
    (hl : l.WellTyped) (hr : r.WellTyped) (hw : l.width = r.width) :
    Builds false (.binary kind l r) (commuted kind withConstant l r) := by
  refine specialize_refines ?_ ?_ ?_ (Builds.self ⟨hl, hr, hw⟩)
  · rintro a b rfl rfl
    exact fold_builds hw (fun h => by rw [hdiv] at h; cases h)
  · rintro a rfl
    exact hwith hr hw
  · rintro b rfl
    exact Builds.of_refines (refines_binary_swap hdiv hcomm hl trivial hw) (hwith hl hw.symm)

theorem mulConstant_builds (hr : r.WellTyped) (hw : c.width = r.width) :
    Builds false (.binary .mul (.constant c) r) (mulConstant c r) := by
  unfold mulConstant
  split_ifs with hzero hone
  · refine Builds.pure (refines_absorbing hr hw fun x => ?_)
    rw [isZero_iff.mp hzero]
    exact BitVec.zero_mul
  · exact Builds.pure (refines_neutral hr hw (mul_of_isOne hone))
  · exact Builds.self ⟨trivial, hr, hw⟩

theorem andConstant_builds (hr : r.WellTyped) (hw : c.width = r.width) :
    Builds false (.binary .and (.constant c) r) (andConstant c r) := by
  unfold andConstant
  split_ifs with hzero hones
  · refine Builds.pure (refines_absorbing hr hw fun x => ?_)
    rw [isZero_iff.mp hzero]
    exact BitVec.zero_and
  · refine Builds.pure (refines_neutral hr hw fun x => ?_)
    rw [isAllOnes_iff.mp hones]
    exact BitVec.allOnes_and
  · exact Builds.self ⟨trivial, hr, hw⟩

theorem orConstant_builds (hr : r.WellTyped) (hw : c.width = r.width) :
    Builds false (.binary .or (.constant c) r) (orConstant c r) := by
  unfold orConstant
  split_ifs with hzero hones
  · refine Builds.pure (refines_neutral hr hw fun x => ?_)
    rw [isZero_iff.mp hzero]
    exact BitVec.zero_or
  · refine Builds.pure (refines_absorbing hr hw fun x => ?_)
    rw [isAllOnes_iff.mp hones]
    exact BitVec.allOnes_or
  · exact Builds.self ⟨trivial, hr, hw⟩

theorem xorConstant_builds (hr : r.WellTyped) (hw : c.width = r.width) :
    Builds false (.binary .xor (.constant c) r) (xorConstant c r) := by
  unfold xorConstant
  split_ifs with hzero
  · refine Builds.pure (refines_neutral hr hw fun x => ?_)
    rw [isZero_iff.mp hzero]
    exact BitVec.zero_xor
  · exact Builds.self ⟨trivial, hr, hw⟩

theorem plain_builds {kind : BinaryKind} (hd : NotByZero kind r) (hl : l.WellTyped) (hr : r.WellTyped)
    (hw : l.width = r.width) : Builds false (.binary kind l r) (plain kind l r) := by
  refine specialize_refines ?_ ?_ ?_ (Builds.self ⟨hl, hr, hw⟩)
  · rintro a b rfl rfl
    exact fold_builds hw hd
  · rintro a rfl
    exact Builds.self ⟨hl, hr, hw⟩
  · rintro b rfl
    exact Builds.self ⟨hl, hr, hw⟩

theorem binary_builds {kind : BinaryKind} (hd : NotByZero kind r) (hl : l.WellTyped) (hr : r.WellTyped)
    (hw : l.width = r.width) : Builds false (.binary kind l r) (binary kind l r) := by
  cases kind
  case add => exact add_builds hl hr hw
  case sub => exact sub_builds hl hr hw
  case mul => exact commuted_builds rfl BitVec.mul_comm mulConstant_builds hl hr hw
  case and => exact commuted_builds rfl BitVec.and_comm andConstant_builds hl hr hw
  case or => exact commuted_builds rfl BitVec.or_comm orConstant_builds hl hr hw
  case xor => exact commuted_builds rfl BitVec.xor_comm xorConstant_builds hl hr hw
  all_goals exact plain_builds hd hl hr hw

theorem not_builds (he : e.WellTyped) : Builds false (.not e) (not e) := by
  unfold not
  split
  · rename_i e
    exact Builds.pure ⟨he, rfl, fun _ hd => hd, fun m _ => (complement_complement (e.eval m)).symm⟩
  · exact Builds.pure ⟨trivial, rfl, fun _ _ => trivial, fun _ _ => rfl⟩
  · exact Builds.self he

theorem eqConstant_builds {Not : Expr → Option Expr} {Eq : Expr → Expr → Option Expr} (hr : r.WellTyped)
    (hw : c.width = r.width) (hNot : Builds false (.not r) (Not r))
    (hEq : Builds false (.cmp .eq (.constant c) r) (Eq (.constant c) r)) :
    Builds false (.cmp .eq (.constant c) r) (eqConstant Not Eq c r) := by
  unfold eqConstant
  split_ifs with hbool htrue
  · exact Builds.pure (refines_eq_true hr (hw.symm.trans hbool) htrue)
  · exact Builds.of_refines (refines_eq_false hr (hw.symm.trans hbool) (eq_zero_of_not_isTrue hbool htrue)) hNot
  · exact hEq

theorem eq_builds (hl : l.WellTyped) (hr : r.WellTyped) (hw : l.width = r.width) :
    Builds false (.cmp .eq l r) (eq l r) := by
  refine specialize_refines ?_ ?_ ?_ (Builds.self ⟨hl, hr, hw⟩)
  · rintro a b rfl rfl
    exact compare_builds hw
  · rintro a rfl
    exact eqConstant_builds hr hw (Builds.self hr) (Builds.self ⟨hl, hr, hw⟩)
  · rintro b rfl
    exact Builds.of_refines (refines_eq_swap hl hr hw)
      (eqConstant_builds hl hw.symm (Builds.self hl) (Builds.self ⟨hr, hl, hw.symm⟩))

theorem cmp_builds {kind : CmpKind} (hl : l.WellTyped) (hr : r.WellTyped) (hw : l.width = r.width) :
    Builds false (.cmp kind l r) (cmp kind l r) := by
  cases kind
  case eq => exact eq_builds hl hr hw
  all_goals
    refine specialize_refines ?_ ?_ ?_ (Builds.self ⟨hl, hr, hw⟩)
    · rintro a b rfl rfl
      exact compare_builds hw
    · rintro a rfl
      exact Builds.self ⟨hl, hr, hw⟩
    · rintro b rfl
      exact Builds.self ⟨hl, hr, hw⟩

theorem construct_builds (he : e.WellTyped) (hd : e.NotByZero) : Builds false e (construct e) := by
  unfold construct
  split
  · exact Builds.self he
  · exact Builds.self he
  · rename_i root head index
    obtain ⟨un, hun, hfound⟩ := rollBack_spec he.2.2.1 he.2.2.2 (fun hi hw => eq_builds he.2.2.1 hi hw) head he.2.1
    rw [hun]
    exact Builds.pure (refines_read he hfound)
  · exact Builds.pure (refines_select_constant he.2.1 he.2.2.1 he.2.2.2.1 he.2.2.2.2)
  · exact Builds.self he
  · exact Builds.pure ⟨trivial, rfl, fun _ _ => trivial, fun _ _ => rfl⟩
  · exact Builds.self he
  · exact Builds.pure ⟨trivial, rfl, fun _ _ => trivial, fun _ _ => rfl⟩
  · exact Builds.self he
  · rename_i kind c width
    exact Builds.pure ⟨trivial, by cases kind <;> rfl, fun _ _ => trivial, fun _ _ => rfl⟩
  · exact Builds.self he
  · exact not_builds he
  · exact binary_builds hd he.1 he.2.1 he.2.2
  · exact cmp_builds he.1 he.2.1 he.2.2

end ConstantFoldingBuilder

namespace SimplifyingBuilder

theorem chained_builds {p : Expr} {fold : APInt → APInt → Option APInt} {base : Expr → Expr → Option Expr}
    (hfold : ∀ a b, l = .constant a → r = .constant b → Builds false p ((fold a b).map .constant))
    (hbase : Builds false p (base l r)) : Builds false p (chained fold base l r) := by
  refine specialize_refines hfold ?_ ?_ hbase
  · rintro a rfl
    exact hbase
  · rintro b rfl
    exact hbase

theorem binary_builds {kind : BinaryKind} (hd : NotByZero kind r) (hl : l.WellTyped) (hr : r.WellTyped)
    (hw : l.width = r.width) : Builds false (.binary kind l r) (binary kind l r) := by
  refine chained_builds ?_ (ConstantFoldingBuilder.binary_builds hd hl hr hw)
  rintro a b rfl rfl
  exact fold_builds hw hd

/-- By induction on the disjunctions. -/
theorem not_builds (he : e.WellTyped) : Builds false (.not e) (not e) := by
  induction e using not.induct with
  | case1 e => exact ConstantFoldingBuilder.not_builds he
  | case2 c => exact ConstantFoldingBuilder.not_builds he
  | case3 l r ihl ihr =>
    obtain ⟨l', hl', hrefl⟩ := ihl he.1
    obtain ⟨r', hr', hrefr⟩ := ihr he.2.1
    have hw : (Expr.not l).width = (Expr.not r).width := he.2.2
    have hand := (refines_not_or_and he).trans (Refines.binary .and hw hrefl hrefr)
    simp only [not, hl', hr', Option.bind_eq_bind, Option.bind_some]
    exact Builds.of_refines hand (binary_builds nofun hand.wellTyped.1 hand.wellTyped.2.1 hand.wellTyped.2.2)
  | case4 e hnot hconst hor =>
    have heq : not e = ConstantFoldingBuilder.not e := by
      unfold not
      split
      · exact absurd rfl (hnot _)
      · exact absurd rfl (hconst _)
      · exact absurd rfl (hor _ _)
      · rfl
    rw [heq]
    exact ConstantFoldingBuilder.not_builds he

theorem eqNonConstant_builds (hl : l.WellTyped) (hr : r.WellTyped) (hw : l.width = r.width) :
    Builds false (.cmp .eq l r) (eqNonConstant l r) := by
  unfold eqNonConstant
  split
  · rename_i h
    subst h
    refine Builds.pure (refines_cmp_of_eval trivial rfl (fun _ _ _ => trivial) fun m => ?_)
    rw [CmpKind.rel₂_eq rfl, decide_eq_true rfl]
    rfl
  · exact ConstantFoldingBuilder.eq_builds hl hr hw

theorem eq_builds (hl : l.WellTyped) (hr : r.WellTyped) (hw : l.width = r.width) :
    Builds false (.cmp .eq l r) (eq l r) := by
  refine specialize_refines ?_ ?_ ?_ (eqNonConstant_builds hl hr hw)
  · rintro a b rfl rfl
    exact compare_builds hw
  · rintro a rfl
    exact ConstantFoldingBuilder.eqConstant_builds hr hw (ConstantFoldingBuilder.not_builds hr)
      (ConstantFoldingBuilder.eq_builds hl hr hw)
  · rintro b rfl
    exact Builds.of_refines (refines_eq_swap hl hr hw)
      (ConstantFoldingBuilder.eqConstant_builds hl hw.symm (ConstantFoldingBuilder.not_builds hl)
        (ConstantFoldingBuilder.eq_builds hr hl hw.symm))

theorem refines_ne_not (hl : l.WellTyped) (hr : r.WellTyped) (hw : l.width = r.width) :
    (Expr.cmp .ne l r).Refines false (.not (.cmp .eq l r)) := by
  refine refines_cmp_of_eval ⟨hl, hr, hw⟩ rfl (fun _ h h' => ⟨h, h'⟩) fun m => ?_
  obtain ⟨x, y, hx, hy⟩ := exists_values hl hr hw m
  simp only [Expr.eval, hx, hy, APInt.rel₂_mk, CmpKind.apply, bne]
  cases x == y with
  | true => rfl
  | false => rfl

theorem below_builds {kind : CmpKind} (hl : l.WellTyped) (hr : r.WellTyped) (hw : l.width = r.width) :
    Builds false (.cmp kind l r) (chained (compare kind) (ConstantFoldingBuilder.cmp kind) l r) := by
  refine chained_builds ?_ (ConstantFoldingBuilder.cmp_builds hl hr hw)
  rintro a b rfl rfl
  exact compare_builds hw

theorem swapped_builds {kind : CmpKind} (kind' : CmpKind) {build : Expr → Expr → Option Expr} (hl : l.WellTyped) (hr : r.WellTyped)
    (hw : l.width = r.width) (hk : ∀ {w : Nat} (x y : BitVec w), kind'.apply y x = kind.apply x y)
    (hbuild : Builds false (.cmp kind' r l) (build r l)) :
    Builds false (.cmp kind l r) (rewritten kind (fun l r => build r l) l r) := by
  refine chained_builds ?_ (Builds.of_refines (refines_cmp_swap hl hr hw hk) hbuild)
  rintro a b rfl rfl
  exact compare_builds hw

theorem cmp_builds {kind : CmpKind} (hl : l.WellTyped) (hr : r.WellTyped) (hw : l.width = r.width) :
    Builds false (.cmp kind l r) (cmp kind l r) := by
  cases kind with
  | eq => exact eq_builds hl hr hw
  | ne =>
    have hne : cmp .ne l r = chained (compare .ne) (fun l r => do not (← eq l r)) l r := rfl
    rw [hne]
    refine chained_builds ?_ ?_
    · rintro a b rfl rfl
      exact compare_builds hw
    · obtain ⟨e, he, href⟩ := eq_builds hl hr hw
      simp only [he, Option.bind_eq_bind, Option.bind_some]
      exact Builds.of_refines ((refines_ne_not hl hr hw).trans (refines_not href)) (not_builds href.wellTyped)
  | ult => exact below_builds hl hr hw
  | ule => exact below_builds hl hr hw
  | slt => exact below_builds hl hr hw
  | sle => exact below_builds hl hr hw
  | ugt => exact swapped_builds .ult hl hr hw (fun _ _ => rfl) (below_builds hr hl hw.symm)
  | uge => exact swapped_builds .ule hl hr hw (fun _ _ => rfl) (below_builds hr hl hw.symm)
  | sgt => exact swapped_builds .slt hl hr hw (fun _ _ => rfl) (below_builds hr hl hw.symm)
  | sge => exact swapped_builds .sle hl hr hw (fun _ _ => rfl) (below_builds hr hl hw.symm)

theorem construct_builds (he : e.WellTyped) (hd : e.NotByZero) : Builds false e (construct e) := by
  unfold construct
  split
  · exact Builds.self he
  · exact Builds.self he
  · rename_i root head index
    obtain ⟨un, hun, hfound⟩ := rollBack_spec he.2.2.1 he.2.2.2 (fun hi hw => eq_builds he.2.2.1 hi hw) head he.2.1
    have href := refines_read he hfound
    rw [hun]
    exact Builds.of_refines href (ConstantFoldingBuilder.construct_builds href.wellTyped trivial)
  · exact Builds.pure (refines_select_constant he.2.1 he.2.2.1 he.2.2.2.1 he.2.2.2.2)
  · exact Builds.pure ⟨trivial, rfl, fun _ _ => trivial, fun _ _ => rfl⟩
  · exact Builds.pure ⟨trivial, rfl, fun _ _ => trivial, fun _ _ => rfl⟩
  · rename_i kind c width
    exact Builds.pure ⟨trivial, by cases kind <;> rfl, fun _ _ => trivial, fun _ _ => rfl⟩
  · exact ConstantFoldingBuilder.construct_builds he hd
  · exact ConstantFoldingBuilder.construct_builds he hd
  · exact ConstantFoldingBuilder.construct_builds he hd
  · exact ConstantFoldingBuilder.construct_builds he hd
  · exact not_builds he
  · exact binary_builds hd he.1 he.2.1 he.2.2
  · exact cmp_builds he.1 he.2.1 he.2.2

end SimplifyingBuilder

namespace ExprBuilder

theorem construct_builds (builder : ExprBuilder) (he : e.WellTyped) (hd : e.NotByZero) :
    Builds false e (builder.construct e) := by
  cases builder with
  | constantFolding => exact ConstantFoldingBuilder.construct_builds he hd
  | simplifying => exact SimplifyingBuilder.construct_builds he hd

def DividesAt (m : Valuation) : Expr → Prop
  | .binary kind _ r => kind.isDivision = true → (r.eval m).toNat ≠ 0
  | _ => True

theorem notByZero_of_dividesAt {m : Valuation} : ∀ {e : Expr}, DividesAt m e → e.NotByZero
  | .binary kind l r, h => by
    rintro hdiv c rfl
    exact decide_eq_false (h hdiv)
  | .constant _, _ | .notOptimized _, _ | .read _ _ _, _ | .select _ _ _, _ | .concat _ _, _ | .extract _ _ _, _
  | .cast _ _ _, _ | .not _, _ | .cmp _ _ _, _ => trivial

/-- A call with well-typed operands returns, and what it returns has the width and the value of the plain node. -/
theorem construct_preserves (builder : ExprBuilder) {e : Expr} (he : e.WellTyped) {m : Valuation}
    (hm : DividesAt m e) : ∃ e', builder.construct e = some e' ∧ e'.WellTyped ∧ e'.width = e.width ∧
      e'.eval m = e.eval m := by
  obtain ⟨e', he', href⟩ := builder.construct_builds he (notByZero_of_dividesAt hm)
  exact ⟨e', he', href.wellTyped, href.width, href.eval m nofun⟩

def sumOfDifferences : Expr :=
  let x : Expr := .read ⟨0, 1, 32, 8, []⟩ .nil (.constant (.ofNat 32 0))
  .binary .add (.binary .sub x (.constant (.ofNat 8 3))) (.binary .sub (.constant (.ofNat 8 5)) x)

theorem construct_preserves_sumOfDifferences :
    ∃ e', ExprBuilder.simplifying.construct sumOfDifferences = some e' ∧ e'.WellTyped ∧
      e'.width = sumOfDifferences.width ∧ e'.eval (fun _ _ => 7) = sumOfDifferences.eval fun _ _ => 7 := by
  have hx : (Expr.read ⟨0, 1, 32, 8, []⟩ .nil (.constant (.ofNat 32 0))).WellTyped :=
    ⟨⟨by decide, by decide, by decide⟩, trivial, trivial, rfl⟩
  apply construct_preserves
  · exact ⟨⟨hx, trivial, rfl⟩, ⟨trivial, hx, rfl⟩, rfl⟩
  · exact fun h => by cases h

end ExprBuilder

end CgsKlee
