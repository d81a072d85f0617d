import CgsKlee.Expr.ExprTypes

/-!
# Builders preserve types

A `TypedBuilder` returns for a typed node a typed expression of its width, if it returns one.  `DefaultExprBuilder` and
the two stacks over it are such.
-/

namespace CgsKlee

open ConstantExpr

variable {w v : Nat} {c d : APInt} {l r x y e : Expr} {Add Sub : Expr → Expr → Option Expr}

/-- An operation on a constant and another operand of width `w` that returns width `v`. -/
def TypedConstantOp (w v : Nat) (f : APInt → Expr → Option Expr) : Prop :=
  ∀ (c : APInt) (r : Expr), c.width = w → r.Typed → r.width = w → BuildsTyped v (f c r)

theorem TypedOp.constant {f : Expr → Expr → Option Expr} (hf : TypedOp w v f) :
    TypedConstantOp w v fun c r => f (.constant c) r := fun c r hc hr hw => hf (.constant c) r trivial hr hc hw

theorem ConstantExpr.fold_width {kind : BinaryKind} {k : APInt} (h : ConstantExpr.fold kind c d = some k) :
    k.width = c.width := by
  unfold ConstantExpr.fold at h
  split at h
  · cases h
    rfl
  · cases h

theorem ConstantExpr.compare_width {kind : CmpKind} {k : APInt} (h : ConstantExpr.compare kind c d = some k) :
    k.width = 1 := by
  unfold ConstantExpr.compare at h
  split at h
  · cases h
    rfl
  · cases h

theorem specialize_typed {fold : APInt → APInt → Option APInt} {constantL : APInt → Expr → Option Expr}
    {constantR : Expr → APInt → Option Expr} {nonConstant : Expr → Expr → Option Expr}
    (hfold : ∀ a b k : APInt, a.width = w → fold a b = some k → k.width = v) (hL : TypedConstantOp w v constantL)
    (hR : TypedConstantOp w v fun c l => constantR l c) (hN : TypedOp w v nonConstant) :
    TypedOp w v (specialize fold constantL constantR nonConstant) := by
  intro l r hl hr hlw hrw
  unfold specialize
  split
  · intro e he
    obtain ⟨k, hk, rfl⟩ := Option.map_eq_some_iff.mp he
    exact ⟨trivial, hfold _ _ k hlw hk⟩
  · exact hL _ _ hlw hr hrw
  · exact hR _ _ hrw hl hlw
  · exact hN _ _ hl hr hlw hrw

theorem fold_typed {kind : BinaryKind} (a b k : APInt) (ha : a.width = w) (h : ConstantExpr.fold kind a b = some k) :
    k.width = w := (fold_width h).trans ha

theorem compare_typed {kind : CmpKind} (a b k : APInt) (_ : a.width = w) (h : ConstantExpr.compare kind a b = some k) :
    k.width = 1 := compare_width h

theorem rollBack_forallNodes {P : Expr → Prop} {Eq : Expr → Expr → Option Expr} {index : Expr} :
    ∀ {head head' : UpdateNode}, rollBack Eq index head = some head' → head.ForallNodes P → head'.ForallNodes P
  | .nil, _, h, hP => by
    cases h
    exact hP
  | .cons i value next, head', h, hP => by
    obtain ⟨equal, -, h⟩ := Option.bind_eq_some_iff.mp h
    split at h
    · split at h
      · exact rollBack_forallNodes h hP.2.2
      · cases h
        exact hP
    · cases h
      exact hP

namespace ConstantFoldingBuilder

theorem folded_typed {kind : BinaryKind} {Op : Expr → Expr → Option Expr} (hop : TypedOp w w Op) (hc : c.width = w)
    (hx : x.Typed) (hw : x.width = w) :
    BuildsTyped w (ConstantExpr.fold kind c d >>= fun k => Op (.constant k) x) :=
  .bind fun k hk => hop (.constant k) x trivial hx ((fold_width hk).trans hc) hw

theorem regrouped_typed {Op Op' : Expr → Expr → Option Expr} (hop : TypedOp w w Op) (hop' : TypedOp w w Op') {z : Expr}
    (hx : x.Typed) (hy : y.Typed) (hz : z.Typed) (hxw : x.width = w) (hyw : y.width = w) (hzw : z.width = w) :
    BuildsTyped w (Op' y z >>= fun e => Op x e) :=
  .andThen (hop' y z hy hz hyw hzw) fun e he hew => hop x e hx he hxw hew

theorem addConstant_typed (hadd : TypedOp w w Add) (hsub : TypedOp w w Sub) :
    TypedConstantOp w w (addConstant Add Sub) := by
  intro c r hc hr hw
  unfold addConstant
  refine .ite (fun _ => .some hr hw) fun _ => ?_
  split
  · exact folded_typed hadd hc hr.2.1 (hr.2.2.symm.trans hw)
  · exact folded_typed hadd hc hr.1 hw
  · exact folded_typed hsub hc hr.2.1 (hr.2.2.symm.trans hw)
  · exact folded_typed hadd hc hr.1 hw
  · exact .some (Expr.Typed.binary (l := .constant c) trivial hr (hc.trans hw.symm)) hc

theorem subConstant_typed (hadd : TypedOp w w Add) (hsub : TypedOp w w Sub) :
    TypedConstantOp w w (subConstant Add Sub) := by
  intro c r hc hr hw
  unfold subConstant
  split
  · exact folded_typed hsub hc hr.2.1 (hr.2.2.symm.trans hw)
  · exact folded_typed hsub hc hr.1 hw
  · exact folded_typed hadd hc hr.2.1 (hr.2.2.symm.trans hw)
  · exact folded_typed hsub hc hr.1 hw
  · exact .some (Expr.Typed.binary (l := .constant c) trivial hr (hc.trans hw.symm)) hc

theorem addNonConstant_typed (hadd : TypedOp w w Add) (hsub : TypedOp w w Sub) :
    TypedOp w w (addNonConstant Add Sub) := by
  intro l r hl hr hlw hrw
  unfold addNonConstant
  split
  · exact regrouped_typed hadd hadd hl.1 hl.2.1 hr hlw (hl.2.2.symm.trans hlw) hrw
  · exact regrouped_typed hadd hsub hl.1 hr hl.2.1 hlw hrw (hl.2.2.symm.trans hlw)
  · split
    · exact regrouped_typed hadd hadd hr.1 hl hr.2.1 hrw hlw (hr.2.2.symm.trans hrw)
    · exact regrouped_typed hadd hadd hr.2.1 hl hr.1 (hr.2.2.symm.trans hrw) hlw hrw
    · exact regrouped_typed hadd hsub hr.1 hl hr.2.1 hrw hlw (hr.2.2.symm.trans hrw)
    · exact regrouped_typed (x := .constant _) hadd hadd trivial hl hr.1 (hr.2.2.symm.trans hrw) hlw hrw
    · exact .some (hl.binary hr (hlw.trans hrw.symm)) hlw

theorem subNonConstant_typed (hadd : TypedOp w w Add) (hsub : TypedOp w w Sub) :
    TypedOp w w (subNonConstant Add Sub) := by
  intro l r hl hr hlw hrw
  unfold subNonConstant
  split
  · exact regrouped_typed hadd hsub hl.1 hl.2.1 hr hlw (hl.2.2.symm.trans hlw) hrw
  · exact regrouped_typed hsub hadd hl.1 hl.2.1 hr hlw (hl.2.2.symm.trans hlw) hrw
  · split
    · exact regrouped_typed (x := .constant _) hadd hsub trivial hl hr.2.1 hrw hlw (hr.2.2.symm.trans hrw)
    · exact regrouped_typed (x := .constant _) hadd hsub trivial hl hr.1 (hr.2.2.symm.trans hrw) hlw hrw
    · exact regrouped_typed (x := .constant _) hadd hadd trivial hl hr.2.1 hrw hlw (hr.2.2.symm.trans hrw)
    · exact regrouped_typed hadd hsub hr.2.1 hl hr.1 (hr.2.2.symm.trans hrw) hlw hrw
    · exact .some (hl.binary hr (hlw.trans hrw.symm)) hlw

theorem bounded_typed (depth : Nat) : TypedOp w w (addBounded depth) ∧ TypedOp w w (subBounded depth) := by
  induction depth with
  | zero => exact ⟨fun _ _ _ _ _ _ => .none, fun _ _ _ _ _ _ => .none⟩
  | succ depth ih =>
    obtain ⟨hadd, hsub⟩ := ih
    have hconstant := addConstant_typed hadd hsub
    constructor
    · intro l r
      unfold addBounded
      exact specialize_typed fold_typed hconstant hconstant (addNonConstant_typed hadd hsub) l r
    · intro l r
      unfold subBounded
      exact specialize_typed fold_typed (subConstant_typed hadd hsub) (fun c l hc => hconstant (neg c) l hc)
        (subNonConstant_typed hadd hsub) l r

theorem commuted_typed {kind : BinaryKind} {withConstant : APInt → Expr → Option Expr}
    (h : TypedConstantOp w w withConstant) : TypedOp w w (commuted kind withConstant) :=
  specialize_typed fold_typed h h (typedOp_binary kind)

theorem plain_typed (kind : BinaryKind) : TypedOp w w (plain kind) :=
  specialize_typed fold_typed (typedOp_binary kind).constant
    (fun c l hc hl hlw => typedOp_binary kind l (.constant c) hl trivial hlw hc) (typedOp_binary kind)

theorem mulConstant_typed : TypedConstantOp w w mulConstant := fun c r hc hr hw =>
  .ite (fun _ => .constant hc) fun _ => .ite (fun _ => .some hr hw) fun _ => (typedOp_binary .mul).constant c r hc hr hw

theorem andConstant_typed : TypedConstantOp w w andConstant := fun c r hc hr hw =>
  .ite (fun _ => .constant hc) fun _ => .ite (fun _ => .some hr hw) fun _ => (typedOp_binary .and).constant c r hc hr hw

theorem orConstant_typed : TypedConstantOp w w orConstant := fun c r hc hr hw =>
  .ite (fun _ => .some hr hw) fun _ => .ite (fun _ => .constant hc) fun _ => (typedOp_binary .or).constant c r hc hr hw

theorem xorConstant_typed : TypedConstantOp w w xorConstant := fun c r hc hr hw =>
  .ite (fun _ => .some hr hw) fun _ => (typedOp_binary .xor).constant c r hc hr hw

theorem binary_typed (kind : BinaryKind) : TypedOp w w (binary kind) := by
  cases kind with
  | add => exact fun l r => (bounded_typed _).1 l r
  | sub => exact fun l r => (bounded_typed _).2 l r
  | mul => exact commuted_typed mulConstant_typed
  | and => exact commuted_typed andConstant_typed
  | or => exact commuted_typed orConstant_typed
  | xor => exact commuted_typed xorConstant_typed
  | _ => exact plain_typed _

theorem not_typed (he : e.Typed) (hw : e.width = w) : BuildsTyped w (not e) := by
  unfold not
  split
  · exact .some he.1 hw
  · exact .constant hw
  · exact .some ⟨he, trivial⟩ hw

theorem eqConstant_typed {Not : Expr → Option Expr} {Eq : Expr → Expr → Option Expr}
    (hnot : ∀ e : Expr, e.Typed → e.width = 1 → BuildsTyped 1 (Not e)) (heq : TypedOp w 1 Eq) :
    TypedConstantOp w 1 (eqConstant Not Eq) := by
  intro c r hc hr hw
  unfold eqConstant
  refine .ite (fun hbool => ?_) fun _ => heq (.constant c) r trivial hr hc hw
  have hr1 : r.width = 1 := hw.trans (hc.symm.trans hbool)
  exact .ite (fun _ => .some hr hr1) fun _ => hnot r hr hr1

theorem eq_typed : TypedOp w 1 eq := by
  have hnot : ∀ e : Expr, e.Typed → e.width = 1 → BuildsTyped 1 (some (.not e)) := fun e he hw => .some ⟨he, trivial⟩ hw
  have hconstant : TypedConstantOp w 1 _ := eqConstant_typed hnot (typedOp_cmp .eq)
  exact specialize_typed compare_typed hconstant hconstant (typedOp_cmp .eq)

theorem cmp_typed (kind : CmpKind) : TypedOp w 1 (cmp kind) := by
  cases kind with
  | eq => exact eq_typed
  | _ =>
    exact specialize_typed compare_typed (typedOp_cmp _).constant
      (fun c l hc hl hlw => typedOp_cmp _ l (.constant c) hl trivial hlw hc) (typedOp_cmp _)

theorem width_cast (kind : CastKind) (c : APInt) (w : Nat) : (kind.apply c w).width = w := by cases kind <;> rfl

theorem construct_typed (he : e.Typed) : BuildsTyped e.width (construct e) := by
  unfold construct
  split
  · exact .constant rfl
  · exact .some he rfl
  · exact .bind fun head hhead => .some ⟨rollBack_forallNodes hhead he.1, he.2⟩ rfl
  · rename_i t f
    refine .some ?_ ?_ <;> split
    · exact he.2.1
    · exact he.2.2.1
    · rfl
    · exact he.2.2.2.2.symm
  · exact .some he rfl
  · exact .constant rfl
  · exact .some he rfl
  · exact .constant rfl
  · exact .some he rfl
  · exact .constant (width_cast _ _ _)
  · exact .some he rfl
  · exact not_typed he.1 rfl
  · exact binary_typed _ _ _ he.1 he.2.1 rfl he.2.2.symm
  · exact cmp_typed _ _ _ he.1 he.2.1 rfl he.2.2.symm

end ConstantFoldingBuilder

namespace SimplifyingBuilder

theorem chained_typed {fold : APInt → APInt → Option APInt} {base : Expr → Expr → Option Expr}
    (hfold : ∀ a b k : APInt, a.width = w → fold a b = some k → k.width = v) (hbase : TypedOp w v base) :
    TypedOp w v (chained fold base) :=
  specialize_typed hfold hbase.constant (fun c l hc hl hlw => hbase l (.constant c) hl trivial hlw hc) hbase

theorem binary_typed (kind : BinaryKind) : TypedOp w w (binary kind) :=
  chained_typed fold_typed (ConstantFoldingBuilder.binary_typed kind)

theorem not_typed : ∀ (e : Expr), e.Typed → BuildsTyped e.width (not e) := by
  intro e
  fun_induction not e with
  | case1 e => exact fun he => .some he.1 rfl
  | case2 c => exact fun _ => .constant rfl
  | case3 l r ihl ihr =>
    intro he
    refine .andThen (ihl he.1) fun l' hl' hlw => .andThen (ihr he.2.1) fun r' hr' hrw => ?_
    exact binary_typed .and l' r' hl' hr' hlw (hrw.trans he.2.2.symm)
  | case4 e => exact fun he => ConstantFoldingBuilder.not_typed he rfl

theorem eq_typed : TypedOp w 1 eq := by
  have hconstant := ConstantFoldingBuilder.eqConstant_typed (w := w)
    (fun _ he hw => ConstantFoldingBuilder.not_typed he hw) ConstantFoldingBuilder.eq_typed
  refine specialize_typed compare_typed hconstant hconstant fun l r hl hr hlw hrw => ?_
  exact .ite (fun _ => .constant rfl) fun _ => ConstantFoldingBuilder.eq_typed l r hl hr hlw hrw

theorem swapped_typed {f : Expr → Expr → Option Expr} (hf : TypedOp w 1 f) : TypedOp w 1 fun l r => f r l :=
  fun l r hl hr hlw hrw => hf r l hr hl hrw hlw

theorem below_typed (kind : CmpKind) : TypedOp w 1 (chained (compare kind) (ConstantFoldingBuilder.cmp kind)) :=
  chained_typed compare_typed (ConstantFoldingBuilder.cmp_typed kind)

theorem cmp_typed (kind : CmpKind) : TypedOp w 1 (cmp kind) := by
  cases kind with
  | eq => exact eq_typed
  | ne =>
    have hnot : TypedOp w 1 fun l r => eq l r >>= fun e => not e := fun l r hl hr hlw hrw =>
      .andThen (eq_typed l r hl hr hlw hrw) fun e he hew => hew ▸ not_typed e he
    exact chained_typed compare_typed hnot
  | ult => exact below_typed .ult
  | ule => exact below_typed .ule
  | slt => exact below_typed .slt
  | sle => exact below_typed .sle
  | ugt => exact chained_typed compare_typed (swapped_typed (below_typed .ult))
  | uge => exact chained_typed compare_typed (swapped_typed (below_typed .ule))
  | sgt => exact chained_typed compare_typed (swapped_typed (below_typed .slt))
  | sge => exact chained_typed compare_typed (swapped_typed (below_typed .sle))

theorem construct_typed (he : e.Typed) : BuildsTyped e.width (construct e) := by
  unfold construct
  split
  · exact .constant rfl
  · exact .some he rfl
  · refine .bind fun head hhead => ?_
    exact ConstantFoldingBuilder.construct_typed (e := .read _ head _) ⟨rollBack_forallNodes hhead he.1, he.2⟩
  · refine .some ?_ ?_ <;> split
    · exact he.2.1
    · exact he.2.2.1
    · rfl
    · exact he.2.2.2.2.symm
  · exact .constant rfl
  · exact .constant rfl
  · exact .constant (ConstantFoldingBuilder.width_cast _ _ _)
  · exact ConstantFoldingBuilder.construct_typed he
  · exact ConstantFoldingBuilder.construct_typed he
  · exact ConstantFoldingBuilder.construct_typed he
  · exact ConstantFoldingBuilder.construct_typed he
  · exact not_typed _ he.1
  · exact binary_typed _ _ _ he.1 he.2.1 rfl he.2.2.symm
  · exact cmp_typed _ _ _ he.1 he.2.1 rfl he.2.2.symm

end SimplifyingBuilder

/-- A builder that returns typed expressions, given by its calls for plain nodes. -/
structure TypedBuilder where
  construct : Expr → Option Expr
  construct_typed : ∀ e : Expr, e.Typed → BuildsTyped e.width (construct e)

namespace TypedBuilder

def plain : TypedBuilder where
  construct := some
  construct_typed _ he := .some he rfl

def stacked (builder : ExprBuilder) : TypedBuilder where
  construct := builder.construct
  construct_typed _ he := by
    cases builder with
    | constantFolding => exact ConstantFoldingBuilder.construct_typed he
    | simplifying => exact SimplifyingBuilder.construct_typed he

end TypedBuilder

/-- No call of a builder stack makes a node wider or narrower. -/
theorem construct_keeps_type (builder : ExprBuilder) {e e' : Expr} (he : e.Typed)
    (h : builder.construct e = some e') : e'.Typed ∧ e'.width = e.width :=
  (TypedBuilder.stacked builder).construct_typed e he e' h

theorem construct_keeps_type_sum : ∃ e', ExprBuilder.simplifying.construct
    (.binary .add (.constant (.ofNat 8 5)) (.constant (.ofNat 8 3))) = some e' ∧ e'.Typed ∧ e'.width = 8 :=
  ⟨_, rfl, construct_keeps_type .simplifying (e := .binary .add (.constant (.ofNat 8 5)) (.constant (.ofNat 8 3)))
    ⟨trivial, trivial, rfl⟩ rfl⟩

end CgsKlee
