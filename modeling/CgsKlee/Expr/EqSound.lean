import Mathlib.Tactic.Ring
import CgsKlee.Expr.Refines

/-!
# Conjunctions, disjunctions and equations

What `AndExpr::create`, `OrExpr::create` and `EqExpr::create` return refines the plain node.  Each rule of
`EqExpr_createPartialR` is a refinement of its own; `EqExpr.createPartialR_builds` puts them together by induction on
the number of nodes on the right.
-/

namespace CgsKlee

open Expr ConstantExpr

attribute [local simp] Expr.eval CmpKind.apply BinaryKind.apply

variable {opt : Bool} {l r a b e : Expr} {c cl : APInt}

theorem refines_binary_swap {kind : BinaryKind} (hkind : kind.isDivision = false)
    (hcomm : ∀ {w : Nat} (x y : BitVec w), kind.apply x y = kind.apply y x) (hl : l.WellTyped) (hr : r.WellTyped)
    (hw : l.width = r.width) : (Expr.binary kind l r).Refines opt (.binary kind r l) where
  wellTyped := ⟨hr, hl, hw.symm⟩
  width := hw.symm
  defined := by
    rintro m ⟨hdl, hdr, -⟩
    exact ⟨hdr, hdl, by simp [hkind]⟩
  eval := by
    intro m _
    obtain ⟨x, y, hx, hy⟩ := exists_values hl hr hw m
    simp only [Expr.eval, hx, hy, APInt.map₂_mk]
    rw [hcomm]

theorem isZero_iff {w : Nat} {x : BitVec w} : isZero ⟨w, x⟩ = true ↔ x = 0 := by
  unfold isZero APInt.toNat
  rw [decide_eq_true_iff]
  constructor
  · intro h
    exact BitVec.eq_of_toNat_eq (by simpa using h)
  · rintro rfl
    simp

theorem isAllOnes_iff {w : Nat} {x : BitVec w} : isAllOnes ⟨w, x⟩ = true ↔ x = BitVec.allOnes w := by
  simp [isAllOnes]

theorem isTrue_iff {x : BitVec 1} : ConstantExpr.isTrue ⟨1, x⟩ = true ↔ x = 1 := by
  revert x
  decide

theorem isTrue_iff_eq {c : APInt} (hw : c.width = 1) : ConstantExpr.isTrue c = true ↔ c = .ofBool true := by
  obtain ⟨x, rfl⟩ := APInt.exists_value hw
  clear hw
  revert x
  decide

theorem eq_zero_of_isFalse (hc : ConstantExpr.isFalse c = true) : c = ⟨1, 0⟩ := by
  obtain ⟨hw, hzero⟩ := of_decide_eq_true hc
  exact APInt.ext_toNat hw hzero

theorem refines_absorbing {kind : BinaryKind} (hr : r.WellTyped) (hw : c.width = r.width)
    (hk : ∀ x : BitVec c.width, kind.apply c.value x = c.value) :
    (Expr.binary kind (.constant c) r).Refines opt (.constant c) := by
  refine refines_binary_of_eval trivial rfl (fun _ _ _ => trivial) ?_
  intro m
  obtain ⟨w, v⟩ := c
  obtain ⟨x, hx⟩ := APInt.exists_value ((r.width_eval m hr).trans hw.symm)
  simp only [Expr.eval, hx, APInt.map₂_mk, hk]

theorem refines_neutral {kind : BinaryKind} (hr : r.WellTyped) (hw : c.width = r.width)
    (hk : ∀ x : BitVec c.width, kind.apply c.value x = x) : (Expr.binary kind (.constant c) r).Refines opt r := by
  refine refines_binary_of_eval hr hw.symm (fun _ _ h => h) ?_
  intro m
  obtain ⟨w, v⟩ := c
  obtain ⟨x, hx⟩ := APInt.exists_value ((r.width_eval m hr).trans hw.symm)
  simp only [Expr.eval, hx, APInt.map₂_mk, hk]

theorem commutative_builds {kind : BinaryKind} {withConstant : APInt → Expr → Option Expr}
    {create : Expr → Expr → Option Expr} (hkind : kind.isDivision = false)
    (hcomm : ∀ {w : Nat} (x y : BitVec w), kind.apply x y = kind.apply y x)
    (hwith : ∀ {c r}, r.WellTyped → c.width = r.width → Builds opt (.binary kind (.constant c) r) (withConstant c r))
    (hl : l.WellTyped) (hr : r.WellTyped) (hw : l.width = r.width)
    (hcreate : Builds opt (.binary kind l r) (create l r)) :
    Builds opt (.binary kind l r)
      (createR (APInt.map₂ kind.apply) (fun l c => withConstant c l) withConstant create l r) := by
  refine createR_builds (.binary kind) hw (refines_fold_binary kind) ?_ ?_ hcreate
  · rintro c rfl
    exact hwith hr hw
  · rintro c rfl
    exact Builds.of_refines (refines_binary_swap hkind hcomm hl hr hw) (hwith hl hw.symm)

theorem AndExpr.createPartial_builds (hr : r.WellTyped) (hw : c.width = r.width) :
    Builds opt (.binary .and (.constant c) r) (AndExpr.createPartial r c) := by
  unfold AndExpr.createPartial
  split_ifs with hones hzero
  · refine Builds.pure (refines_neutral hr hw fun x => ?_)
    rw [isAllOnes_iff.mp hones]
    exact BitVec.allOnes_and
  · refine Builds.pure (refines_absorbing hr hw fun x => ?_)
    rw [isZero_iff.mp hzero]
    exact BitVec.zero_and
  · exact Builds.pure (refines_binary_swap rfl BitVec.and_comm trivial hr hw)

theorem AndExpr.create_builds (hl : l.WellTyped) (hr : r.WellTyped) (hw : l.width = r.width) :
    Builds opt (.binary .and l r) (AndExpr.create l r) :=
  commutative_builds rfl BitVec.and_comm AndExpr.createPartial_builds hl hr hw (Builds.self ⟨hl, hr, hw⟩)

theorem OrExpr.createPartial_builds (hr : r.WellTyped) (hw : c.width = r.width) :
    Builds opt (.binary .or (.constant c) r) (OrExpr.createPartial r c) := by
  unfold OrExpr.createPartial
  split_ifs with hones hzero
  · refine Builds.pure (refines_absorbing hr hw fun x => ?_)
    rw [isAllOnes_iff.mp hones]
    exact BitVec.allOnes_or
  · refine Builds.pure (refines_neutral hr hw fun x => ?_)
    rw [isZero_iff.mp hzero]
    exact BitVec.zero_or
  · exact Builds.pure (refines_binary_swap rfl BitVec.or_comm trivial hr hw)

theorem OrExpr.create_builds (hl : l.WellTyped) (hr : r.WellTyped) (hw : l.width = r.width) :
    Builds opt (.binary .or l r) (OrExpr.create l r) :=
  commutative_builds rfl BitVec.or_comm OrExpr.createPartial_builds hl hr hw (Builds.self ⟨hl, hr, hw⟩)

theorem refines_cmp_of_eval {kind : CmpKind} (he : e.WellTyped) (hw : e.width = 1)
    (hd : ∀ m, l.Defined m → r.Defined m → e.Defined m)
    (hv : ∀ m, e.eval m = APInt.rel₂ kind.apply (l.eval m) (r.eval m)) :
    (Expr.cmp kind l r).Refines opt e where
  wellTyped := he
  width := hw
  defined m h := hd m h.1 h.2
  eval m _ := hv m

theorem refines_eq_swap (hl : l.WellTyped) (hr : r.WellTyped) (hw : l.width = r.width) :
    (Expr.cmp .eq l r).Refines opt (.cmp .eq r l) := by
  refine refines_cmp_of_eval ⟨hr, hl, hw.symm⟩ rfl (fun m hdl hdr => ⟨hdr, hdl⟩) ?_
  intro m
  obtain ⟨x, y, hx, hy⟩ := exists_values hl hr hw m
  simp only [Expr.eval, hx, hy, APInt.rel₂_mk, CmpKind.apply]
  rw [Bool.beq_comm]

theorem EqExpr.plain_builds (hl : l.WellTyped) (hr : r.WellTyped) (hw : l.width = r.width) :
    Builds opt (.cmp .eq l r) (EqExpr.plain l r) := by
  unfold EqExpr.plain
  split
  · rename_i h
    subst h
    refine Builds.pure (refines_cmp_of_eval trivial rfl (fun _ _ _ => trivial) ?_)
    intro m
    obtain ⟨x, hx⟩ := APInt.exists_value (l.width_eval m hl)
    simp [hx]
  · exact Builds.self ⟨hl, hr, hw⟩

theorem EqExpr.withConstant_builds {x : Option Expr} (he : e.WellTyped) (hw : e.width = c.width)
    (hx : Builds opt (.cmp .eq (.constant c) e) x) :
    Builds opt (.cmp .eq e (.constant c)) (EqExpr.withConstant e c x) := by
  unfold EqExpr.withConstant
  rw [if_pos hw]
  split
  · exact Builds.pure (refines_fold_cmp .eq _ _)
  · exact Builds.of_refines (refines_eq_swap he trivial hw) hx

theorem refines_eq_true (hr : r.WellTyped) (hw : r.width = 1) (hcl : ConstantExpr.isTrue cl = true) :
    (Expr.cmp .eq (.constant cl) r).Refines opt r := by
  obtain rfl := (isTrue_iff_eq (of_decide_eq_true hcl).1).mp hcl
  refine refines_cmp_of_eval hr hw (fun m _ h => h) ?_
  intro m
  obtain ⟨x, hx⟩ := APInt.exists_value ((r.width_eval m hr).trans hw)
  rw [hx]
  simp only [Expr.eval, APInt.rel₂_mk, CmpKind.apply, APInt.ofBool, APInt.mk.injEq, heq_eq_eq, true_and]
  clear hx
  revert x
  decide

theorem eq_zero_of_not_isTrue (hw : cl.width = 1) (hcl : ¬ConstantExpr.isTrue cl = true) : cl = ⟨1, 0⟩ := by
  obtain ⟨w, v⟩ := cl
  dsimp only at hw
  subst hw
  congr 1
  revert v
  decide

theorem refines_not_not (hr : r.WellTyped) (hw : r.width = 1) (hc : ConstantExpr.isFalse c = true) :
    (Expr.cmp .eq (.constant ⟨1, 0⟩) (.cmp .eq (.constant c) r)).Refines opt r := by
  obtain rfl := eq_zero_of_isFalse hc
  refine refines_cmp_of_eval hr hw (fun m _ h => h.2) ?_
  intro m
  obtain ⟨x, hx⟩ := APInt.exists_value ((r.width_eval m hr).trans hw)
  simp only [Expr.eval, hx, APInt.rel₂_mk, CmpKind.apply, APInt.ofBool, APInt.mk.injEq, heq_eq_eq, true_and]
  clear hx
  revert x
  decide

theorem refines_not_or (ha : a.WellTyped) (hb : b.WellTyped) (hwa : a.width = 1) (hwb : b.width = 1) :
    (Expr.cmp .eq (.constant ⟨1, 0⟩) (.binary .or a b)).Refines opt
      (.binary .and (.cmp .eq a (.constant (.ofNat a.width 0))) (.cmp .eq b (.constant (.ofNat b.width 0)))) := by
  rw [hwa, hwb]
  refine refines_cmp_of_eval ⟨⟨ha, trivial, hwa⟩, ⟨hb, trivial, hwb⟩, rfl⟩ rfl ?_ ?_
  · rintro m - ⟨hda, hdb, -⟩
    exact ⟨⟨hda, trivial⟩, ⟨hdb, trivial⟩, nofun⟩
  · intro m
    obtain ⟨x, y, hx, hy⟩ := exists_bits ha hb hwa hwb m
    simp only [Expr.eval, hx, hy, APInt.ofNat, APInt.map₂_mk, APInt.rel₂_mk, CmpKind.apply, BinaryKind.apply,
      APInt.ofBool, APInt.mk.injEq, heq_eq_eq, true_and]
    clear hx hy
    revert x y
    decide

theorem CastKind.zextOrTrunc_apply (kind : CastKind) {s w : Nat} (hw : s ≤ w) (x : BitVec s) :
    (kind.apply ⟨s, x⟩ w).zextOrTrunc s = ⟨s, x⟩ := by
  cases kind with
  | zext => simp [CastKind.apply, APInt.zextOrTrunc, hw]
  | sext =>
    simp only [CastKind.apply, APInt.zextOrTrunc, APInt.sextOrTrunc, APInt.mk.injEq, heq_eq_eq, true_and]
    ext i hi
    simp [BitVec.getElem_setWidth, BitVec.getElem_signExtend, hi, show i < w by omega]

theorem CmpKind.rel₂_eq {a b : APInt} (hw : a.width = b.width) :
    APInt.rel₂ CmpKind.eq.apply a b = .ofBool (decide (a = b)) := by
  obtain ⟨w, x⟩ := a
  obtain ⟨y, rfl⟩ := APInt.exists_value hw.symm
  simp only [APInt.rel₂_mk, CmpKind.apply, APInt.mk.injEq, heq_eq_eq, true_and]
  rfl

section Cast

variable {kind : CastKind} {src : Expr} {w : Nat}

theorem refines_eq_cast (hsrc : src.WellTyped) (hw : src.width ≤ w) (hwc : cl.width = w)
    (hcl : cl = kind.apply (cl.zextOrTrunc src.width) w) :
    (Expr.cmp .eq (.constant cl) (.cast kind src w)).Refines opt
      (.cmp .eq src (.constant (cl.zextOrTrunc src.width))) := by
  refine refines_cmp_of_eval ⟨hsrc, trivial, rfl⟩ rfl (fun m _ h => ⟨h, trivial⟩) ?_
  intro m
  obtain ⟨x, hx⟩ := APInt.exists_value (src.width_eval m hsrc)
  simp only [Expr.eval, hx]
  have hwidth : cl.width = (kind.apply ⟨src.width, x⟩ w).width := by cases kind <;> exact hwc
  have htrunc : (⟨src.width, x⟩ : APInt).width = (cl.zextOrTrunc src.width).width := rfl
  rw [CmpKind.rel₂_eq htrunc, CmpKind.rel₂_eq hwidth]
  congr 2
  apply propext
  constructor
  · intro h
    rw [h]
    exact hcl
  · intro h
    rw [h]
    exact (kind.zextOrTrunc_apply hw x).symm

theorem refines_eq_cast_false (hsrc : src.WellTyped) (hw : src.width ≤ w) (hwc : cl.width = w)
    (hcl : cl ≠ kind.apply (cl.zextOrTrunc src.width) w) :
    (Expr.cmp .eq (.constant cl) (.cast kind src w)).Refines opt (.ofBool false) := by
  refine refines_cmp_of_eval trivial rfl (fun _ _ _ => trivial) ?_
  intro m
  obtain ⟨x, hx⟩ := APInt.exists_value (src.width_eval m hsrc)
  simp only [Expr.eval, hx, Expr.eval_ofBool]
  rw [CmpKind.rel₂_eq (by cases kind <;> exact hwc)]
  congr 1
  symm
  rw [decide_eq_false_iff_not]
  intro h
  apply hcl
  conv_rhs => rw [h, kind.zextOrTrunc_apply hw x]
  exact h

end Cast

theorem refines_eq_moved {kind : BinaryKind} {w : Nat} {x y v : BitVec w} (hb : b.WellTyped) (hw : b.width = w)
    (hv : ∀ z, y = kind.apply x z ↔ v = z) :
    (Expr.cmp .eq (.constant ⟨w, y⟩) (.binary kind (.constant ⟨w, x⟩) b)).Refines opt
      (.cmp .eq (.constant ⟨w, v⟩) b) := by
  refine refines_cmp_of_eval ⟨trivial, hb, hw.symm⟩ rfl (fun m _ h => ⟨trivial, h.2.1⟩) ?_
  intro m
  obtain ⟨z, hz⟩ := APInt.exists_value ((b.width_eval m hb).trans hw)
  simp only [Expr.eval, hz, APInt.map₂_mk, APInt.rel₂_mk, CmpKind.apply]
  rw [beq_eq_beq.mpr (hv z)]

theorem refines_eq_add (hb : b.WellTyped) (hw : b.width = cl.width) (hwc : c.width = cl.width) :
    (Expr.cmp .eq (.constant cl) (.binary .add (.constant c) b)).Refines opt
      (.cmp .eq (.constant (APInt.map₂ BinaryKind.sub.apply cl c)) b) := by
  obtain ⟨x, rfl⟩ := APInt.exists_value hwc
  rw [APInt.map₂_mk]
  exact refines_eq_moved hb hw fun _ => sub_eq_iff_eq_add'.symm

theorem refines_eq_sub (hb : b.WellTyped) (hw : b.width = cl.width) (hwc : c.width = cl.width) :
    (Expr.cmp .eq (.constant cl) (.binary .sub (.constant c) b)).Refines opt
      (.cmp .eq (.constant (APInt.map₂ BinaryKind.sub.apply c cl)) b) := by
  obtain ⟨x, rfl⟩ := APInt.exists_value hwc
  rw [APInt.map₂_mk]
  refine refines_eq_moved hb hw fun z => ?_
  exact eq_sub_iff_add_eq'.trans (eq_comm.trans sub_eq_iff_eq_add.symm)

/-- `res` says that the index is one of the positions before `i` at which the values are `cl`. -/
structure EqExpr.Found (index : Expr) (values : List APInt) (cl : APInt) (i : Nat) (res : Expr) : Prop where
  wellTyped : res.WellTyped
  width : res.width = 1
  defined : ∀ m, index.Defined m → res.Defined m
  eval : ∀ m, index.Defined m →
    res.eval m = .ofBool (decide ((index.eval m).toNat < i ∧ values[(index.eval m).toNat]? = some cl))

section ConstArray

variable {index res : Expr} {values : List APInt} {i : Nat}

theorem EqExpr.found_zero : EqExpr.Found index values cl 0 (.ofBool false) where
  wellTyped := trivial
  width := rfl
  defined _ _ := trivial
  eval m _ := by simp

theorem EqExpr.Found.skip (h : EqExpr.Found index values cl i res) (hi : values[i]? ≠ some cl) :
    EqExpr.Found index values cl (i + 1) res where
  wellTyped := h.wellTyped
  width := h.width
  defined := h.defined
  eval m hm := by
    rw [h.eval m hm]
    congr 2
    apply propext
    constructor
    · rintro ⟨hlt, hv⟩
      exact ⟨by omega, hv⟩
    · rintro ⟨hlt, hv⟩
      refine ⟨?_, hv⟩
      by_contra hge
      have : (index.eval m).toNat = i := by omega
      rw [this] at hv
      exact hi hv

theorem EqExpr.Found.add (hindex : index.WellTyped) (hi : i < 2 ^ index.width) (hv : values[i]? = some cl)
    (h : EqExpr.Found index values cl i res) {res' : Expr}
    (hres : (Expr.binary .or res (.cmp .eq index (.constant (.ofNat index.width i)))).Refines opt res') :
    EqExpr.Found index values cl (i + 1) res' where
  wellTyped := hres.wellTyped
  width := hres.width.trans h.width
  defined m hm := hres.defined m ⟨h.defined m hm, ⟨hm, trivial⟩, nofun⟩
  eval m hm := by
    rw [hres.eval m fun _ => ⟨h.defined m hm, ⟨hm, trivial⟩, nofun⟩]
    have heq : (index.eval m = .ofNat index.width i) ↔ (index.eval m).toNat = i := by
      rw [← APInt.toNat_eq_iff (index.width_eval m hindex)]
      simp [APInt.ofNat, APInt.toNat, Nat.mod_eq_of_lt hi]
    simp only [Expr.eval, h.eval m hm]
    rw [CmpKind.rel₂_eq (index.width_eval m hindex)]
    simp only [APInt.ofBool, APInt.map₂_mk, BinaryKind.apply, BitVec.ofBool_or_ofBool, heq]
    congr 2
    rw [← Bool.decide_or]
    congr 1
    apply propext
    constructor
    · rintro (⟨hlt, hv'⟩ | hi')
      · exact ⟨by omega, hv'⟩
      · rw [hi']
        exact ⟨by omega, hv⟩
    · rintro ⟨hlt, hv'⟩
      by_cases hi' : (index.eval m).toNat = i
      · exact Or.inr hi'
      · exact Or.inl ⟨by omega, hv'⟩

theorem EqExpr.Found.of_length_le (h : EqExpr.Found index values cl i res) (hi : values.length ≤ i) :
    EqExpr.Found index values cl values.length res where
  wellTyped := h.wellTyped
  width := h.width
  defined := h.defined
  eval m hm := by
    rw [h.eval m hm]
    congr 2
    apply propext
    constructor
    · rintro ⟨-, hv⟩
      exact ⟨(List.getElem?_eq_some_iff.mp hv).1, hv⟩
    · rintro ⟨hlt, hv⟩
      exact ⟨by omega, hv⟩

theorem EqExpr.matchPositions_spec (hindex : index.WellTyped) (hsize : values.length ≤ 2 ^ index.width)
    {mayBe : Nat → Option Expr}
    (hmayBe : ∀ i, Builds opt (.cmp .eq index (.constant (.ofNat index.width i))) (mayBe i)) :
    ∀ (rest : List APInt) (i numMatches : Nat) (res : Expr), values.drop i = rest →
      EqExpr.Found index values cl i res →
      ∃ out, EqExpr.matchPositions cl mayBe rest i numMatches res = some out ∧
        ∀ res', out = some res' → EqExpr.Found index values cl values.length res' := by
  intro rest
  induction rest with
  | nil =>
    intro i n res hrest h
    refine ⟨some res, rfl, ?_⟩
    rintro res' ⟨rfl⟩
    exact h.of_length_le (List.drop_eq_nil_iff.mp hrest)
  | cons v rest ih =>
    intro i n res hrest h
    have hv : values[i]? = some v := by rw [← List.head?_drop, hrest]; rfl
    have hrest' : values.drop (i + 1) = rest := by rw [← List.tail_drop, hrest]; rfl
    unfold EqExpr.matchPositions
    split
    · rename_i hcl
      subst hcl
      split
      · exact ⟨none, rfl, nofun⟩
      · have hi : i < 2 ^ index.width := by
          have := (List.getElem?_eq_some_iff.mp hv).1
          omega
        obtain ⟨eq, heq, hrefEq⟩ := hmayBe i
        obtain ⟨or, hor, hrefOr⟩ := OrExpr.create_builds h.wellTyped hrefEq.wellTyped
          (h.width.trans hrefEq.width.symm)
        have href := (Refines.binary .or (h.width.trans rfl) (.refl h.wellTyped) hrefEq).trans hrefOr
        simp only [heq, hor, Option.bind_eq_bind, Option.bind_some]
        exact ih (i + 1) _ or hrest' (h.add hindex hi hv href)
    · rename_i hne
      apply ih (i + 1) _ res hrest' (h.skip _)
      rw [hv]
      intro heq
      exact hne (Option.some.inj heq).symm

theorem EqExpr.Found.refines {root : ExprArray} (hroot : root.WellFormed) (hconst : root.isSymbolicArray = false)
    (hwc : root.range = cl.width)
    (h : EqExpr.Found index (root.constantValues.map fun v => ⟨root.range, v⟩) cl root.constantValues.length res) :
    (Expr.cmp .eq (.constant cl) (.read root .nil index)).Refines true res := by
  refine ⟨h.wellTyped, h.width, fun m hm => h.defined m hm.2.2.1, fun m hd => ?_⟩
  obtain ⟨-, -, hm, hlt⟩ := hd rfl
  rw [h.eval m hm]
  simp only [Expr.eval, UpdateNode.lookup]
  rw [CmpKind.rel₂_eq hwc.symm]
  congr 2
  have hlen := hroot.constantValues hconst
  simp only [ExprArray.initial, hconst, hlen, hlt, true_and, List.getElem?_map, Bool.false_eq_true, if_false]
  rw [List.getD_eq_getElem?_getD, List.getElem?_eq_getElem (by omega)]
  simp only [Option.map_some, Option.some.injEq, Option.getD_some]
  exact propext eq_comm

end ConstArray

section EqExpr

variable (opt)

/-- `EqExpr_createPartialR`, by induction on the right operand. -/
theorem EqExpr.createPartialR_builds {cl : APInt} {r : Expr} (hr : r.WellTyped) (hw : cl.width = r.width) :
    Builds opt (.cmp .eq (.constant cl) r) (EqExpr.createPartialR opt cl r) := by
  fun_induction EqExpr.createPartialR opt cl r with
  | case1 cl r h1 htrue => exact Builds.pure (refines_eq_true hr (hw.symm.trans h1) htrue)
  | case2 cl h1 htrue c right hc =>
    obtain rfl := eq_zero_of_not_isTrue h1 htrue
    exact Builds.pure (refines_not_not hr.2.1 (hr.2.2.symm.trans hc.1) hc.2)
  | case4 cl h1 htrue left right ihLeft ihRight =>
    obtain rfl := eq_zero_of_not_isTrue h1 htrue
    obtain ⟨hleft, hright, hlr⟩ := hr
    have hleft1 : left.width = 1 := hw.symm
    have hright1 : right.width = 1 := hlr.symm.trans hleft1
    refine Builds.of_refines (refines_not_or hleft hright hleft1 hright1) ?_
    refine Builds.bind (EqExpr.withConstant_builds hleft rfl (ihLeft hleft rfl)) fun l' hl' => ?_
    refine Builds.bind (EqExpr.withConstant_builds hright rfl (ihRight hright rfl)) fun r' hr' => ?_
    exact Builds.of_refines (Refines.binary .and rfl hl' hr')
      (AndExpr.create_builds hl'.wellTyped hr'.wellTyped (hl'.width.trans hr'.width.symm))
  | case6 cl h1 src w trunc hcl ih | case8 cl h1 src w trunc hcl ih =>
    obtain ⟨hsrc, hle⟩ := hr
    have hw' : cl.width = w := hw
    refine Builds.of_refines (refines_eq_cast hsrc hle hw' ?_) (EqExpr.withConstant_builds hsrc rfl (ih hsrc rfl))
    rw [← hw']
    exact hcl
  | case7 cl h1 src w trunc hcl | case9 cl h1 src w trunc hcl =>
    obtain ⟨hsrc, hle⟩ := hr
    have hw' : cl.width = w := hw
    refine Builds.pure (refines_eq_cast_false hsrc hle hw' ?_)
    rw [← hw']
    exact hcl
  | case10 cl h1 c right hc ih =>
    obtain ⟨-, hright, hcr⟩ := hr
    have hright' : right.width = cl.width := hcr.symm.trans hw.symm
    exact Builds.of_refines (refines_eq_add hright hright' hc.symm) (ih hright hright'.symm)
  | case11 cl h1 c right hc => exact absurd hw hc
  | case12 cl h1 c right hc ih =>
    obtain ⟨-, hright, hcr⟩ := hr
    have hright' : right.width = cl.width := hcr.symm.trans hw.symm
    exact Builds.of_refines (refines_eq_sub hright hright' hc) (ih hright (hc.trans hright'.symm))
  | case13 cl h1 c right hc => exact absurd hw.symm hc
  | case15 cl h1 root head index hopt hroot mayBe ih =>
    subst hopt
    rw [not_or, not_not] at hroot
    obtain ⟨hconst, rfl⟩ := hroot
    rw [Bool.not_eq_true] at hconst
    obtain ⟨hwf, -, hindex, hdom⟩ := hr
    have hmayBe : ∀ i, Builds true (.cmp .eq index (.constant (.ofNat index.width i))) (mayBe i) :=
      fun i => EqExpr.withConstant_builds hindex rfl (ih i hindex rfl)
    dsimp only
    generalize hvalues : root.constantValues.map (fun v => (⟨root.range, v⟩ : APInt)) = values
    have hlen : values.length = root.constantValues.length := by rw [← hvalues, List.length_map]
    have hsize : values.length ≤ 2 ^ index.width := by
      rw [hlen, hwf.constantValues hconst, hdom]
      exact hwf.size_le
    have hzero : EqExpr.Found index values cl 0 (.ofBool false) := EqExpr.found_zero
    obtain ⟨out, hout, hfound⟩ := EqExpr.matchPositions_spec hindex hsize hmayBe values 0 0 (.ofBool false) rfl hzero
    rw [hout]
    cases out with
    | some res =>
      have hres := hfound res rfl
      rw [hlen, ← hvalues] at hres
      exact Builds.pure (hres.refines hwf hconst hw.symm)
    | none => exact EqExpr.plain_builds trivial ⟨hwf, trivial, hindex, hdom⟩ hw
  | case3 | case5 | case14 | case16 | case17 => exact EqExpr.plain_builds trivial hr hw

theorem EqExpr.create_builds (hl : l.WellTyped) (hr : r.WellTyped) (hw : l.width = r.width) :
    Builds opt (.cmp .eq l r) (EqExpr.create opt l r) := by
  refine createR_builds (.cmp .eq) hw (refines_fold_cmp .eq) ?_ ?_ (EqExpr.plain_builds hl hr hw)
  · rintro c rfl
    exact EqExpr.createPartialR_builds opt hr hw
  · rintro c rfl
    exact Builds.of_refines (refines_eq_swap hl hr hw) (EqExpr.createPartialR_builds opt hl hw.symm)

theorem Expr.createIsZero_builds (he : e.WellTyped) :
    Builds opt (.cmp .eq e (.ofNat e.width 0)) (e.createIsZero opt) :=
  EqExpr.create_builds opt he trivial rfl

end EqExpr

end CgsKlee
