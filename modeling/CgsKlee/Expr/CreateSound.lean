import CgsKlee.Expr.ArithSound

/-!
# The smart constructors preserve meaning

Selects, reads, extracts, concatenations and casts, and with the binary kinds the main result: whatever node the
operands are for, its constructor returns an expression of the same width with the same value.
-/

namespace CgsKlee

open Expr ConstantExpr

variable {opt : Bool} {l r e c t f : Expr}

theorem refines_extract_of_eval {off w : Nat} (he : e.WellTyped) (hw : e.width = w)
    (hd : ∀ m, l.Defined m → e.Defined m) (hv : ∀ m, e.eval m = (l.eval m).extract off w) :
    (Expr.extract l off w).Refines opt e where
  wellTyped := he
  width := hw
  defined := hd
  eval m _ := hv m

theorem refines_extract_self {off w : Nat} (he : e.WellTyped) (hw : w = e.width) (hle : off + w ≤ e.width) :
    (Expr.extract e off w).Refines opt e := by
  obtain rfl : off = 0 := by omega
  refine refines_extract_of_eval he hw.symm (fun _ h => h) ?_
  intro m
  rw [hw, ← e.width_eval m he, APInt.extract_all]

section ExtractConcat

variable {off w : Nat}

theorem refines_extract_left (hl : l.WellTyped) (hr : r.WellTyped) (hw : 0 < w) (hle : off + w ≤ l.width + r.width)
    (hoff : r.width ≤ off) :
    (Expr.extract (.concat l r) off w).Refines opt (.extract l (off - r.width) w) := by
  refine refines_extract_of_eval ⟨hl, hw, by omega⟩ rfl (fun m h => h.1) ?_
  intro m
  have hrw := r.width_eval m hr
  simp only [Expr.eval]
  rw [APInt.extract_append_left _ _ (by omega), hrw]

theorem refines_extract_right (hr : r.WellTyped) (hw : 0 < w) (hle : off + w ≤ r.width) :
    (Expr.extract (.concat l r) off w).Refines opt (.extract r off w) := by
  refine refines_extract_of_eval ⟨hr, hw, hle⟩ rfl (fun m h => h.2) ?_
  intro m
  have hrw := r.width_eval m hr
  simp only [Expr.eval]
  rw [APInt.extract_append_right _ _ (by omega)]

theorem refines_extract_both (hl : l.WellTyped) (hr : r.WellTyped) (hle : off + w ≤ l.width + r.width)
    (hoff : off < r.width) (hw : r.width < off + w) :
    (Expr.extract (.concat l r) off w).Refines opt
      (.concat (.extract l 0 (w + off - r.width)) (.extract r off (r.width - off))) := by
  refine refines_extract_of_eval ⟨⟨hl, by omega, by omega⟩, hr, by omega, by omega⟩
    (by simp only [Expr.width]; omega) (fun m h => h) ?_
  intro m
  have hrw := r.width_eval m hr
  simp only [Expr.eval]
  rw [APInt.extract_append _ _ (by omega) (by omega), hrw]

end ExtractConcat

theorem refines_concat_extracts {off w w' : Nat} (he : e.WellTyped) (hw : 0 < w') (hle : off + w + w' ≤ e.width) :
    (Expr.concat (.extract e (off + w) w') (.extract e off w)).Refines opt (.extract e off (w' + w)) where
  wellTyped := ⟨he, by omega, by omega⟩
  width := rfl
  defined _ h := h.1
  eval m _ := (APInt.append_extract (e.eval m)).symm

private theorem bounded_bind {p q : Expr} {n n' : Nat} {x : Option (ExtractBound n)}
    {g : ExtractBound n → Option (ExtractBound n')} (hx : Builds opt p (x.map (·.1)))
    (hg : ∀ y, p.Refines opt y.1 → Builds opt q ((g y).map (·.1))) : Builds opt q ((x >>= g).map (·.1)) := by
  obtain ⟨e, he, href⟩ := hx
  obtain ⟨y, rfl, rfl⟩ := Option.map_eq_some_iff.mp he
  exact hg y href

private theorem bounded_ite {p : Expr} {n : Nat} {b : Prop} [Decidable b] {x y : Option (ExtractBound n)}
    (hx : b → Builds opt p (x.map (·.1))) (hy : ¬b → Builds opt p (y.map (·.1))) :
    Builds opt p ((if b then x else y).map (·.1)) := by
  by_cases h : b
  · rw [if_pos h]
    exact hx h
  · rw [if_neg h]
    exact hy h

theorem ConcatExpr.merge_builds (hl : l.WellTyped) (hr : r.WellTyped)
    {extract : (expr : Expr) → expr.nodes ≤ l.extractedNodes → Nat → Nat → Option (ExtractBound expr.nodes)}
    (hextract : ∀ (expr : Expr) (h : expr.nodes ≤ l.extractedNodes) (off w : Nat), expr.WellTyped → 0 < w →
      off + w ≤ expr.width → Builds opt (.extract expr off w) ((extract expr h off w).map (·.1))) :
    Builds opt (.concat l r) ((ConcatExpr.merge l r extract).map (·.1)) := by
  unfold ConcatExpr.merge
  split
  · exact Builds.pure ⟨trivial, rfl, fun _ _ => trivial, fun _ _ => rfl⟩
  · refine bounded_ite ?_ fun _ => Builds.self ⟨hl, hr⟩
    rintro ⟨rfl, rfl⟩
    obtain ⟨he, hw, hle⟩ := hl
    exact Builds.of_refines (refines_concat_extracts he hw hle)
      (hextract _ (Nat.le_refl _) _ _ he (by omega) (by omega))
  · exact Builds.self ⟨hl, hr⟩

/-- `ExtractExpr::create`, by induction on the nodes of what is extracted from. -/
theorem ExtractExpr.createBounded_builds : ∀ (n : Nat) (e : Expr) (off w : Nat), e.nodes ≤ n → e.WellTyped → 0 < w →
    off + w ≤ e.width → Builds opt (.extract e off w) ((ExtractExpr.createBounded e off w).map (·.1)) := by
  intro n
  induction n with
  | zero =>
    intro e off w hn
    cases e <;> simp [Expr.nodes] at hn
  | succ n ih =>
    intro e off w hn he hw hle
    unfold ExtractExpr.createBounded
    rw [if_pos ⟨hw, hle⟩]
    refine bounded_ite (fun hall => Builds.pure (refines_extract_self he hall hle)) fun _ => ?_
    split
    · exact Builds.pure ⟨trivial, rfl, fun _ _ => trivial, fun _ _ => rfl⟩
    · rename_i left right _
      obtain ⟨hl, hr⟩ := he
      have hle' : off + w ≤ left.width + right.width := hle
      simp only [Expr.nodes] at hn
      refine bounded_ite (fun hoff => ?_) fun hoff => bounded_ite (fun hright => ?_) fun hright => ?_
      · refine bounded_bind (ih left (off - right.width) w (by omega) hl hw (by omega)) fun x hx => ?_
        exact Builds.pure ((refines_extract_left hl hr hw hle' hoff).trans hx)
      · refine bounded_bind (ih right off w (by omega) hr hw hright) fun x hx => ?_
        exact Builds.pure ((refines_extract_right hr hw hright).trans hx)
      · refine Builds.of_refines (refines_extract_both hl hr hle' (by omega) (by omega)) ?_
        refine bounded_bind (ih left 0 _ (by omega) hl (by omega) (by omega)) fun x hx => ?_
        refine bounded_bind (ih right off _ (by omega) hr (by omega) (by omega)) fun y hy => ?_
        have hmerge := ConcatExpr.merge_builds hx.wellTyped hy.wellTyped
          fun expr hexpr off w => ih expr off w (hexpr.trans (x.2.trans (by omega)))
        exact bounded_bind hmerge fun z hz => Builds.pure ((Refines.concat hx hy).trans hz)
    · exact Builds.self ⟨he, hw, hle⟩

theorem ExtractExpr.create_builds {off w : Nat} (he : e.WellTyped) (hw : 0 < w) (hle : off + w ≤ e.width) :
    Builds opt (.extract e off w) (ExtractExpr.create e off w) :=
  ExtractExpr.createBounded_builds e.nodes e off w le_rfl he hw hle

theorem ConcatExpr.create_builds (hl : l.WellTyped) (hr : r.WellTyped) :
    Builds opt (.concat l r) (ConcatExpr.create l r) :=
  ConcatExpr.merge_builds hl hr fun expr _ off w => ExtractExpr.createBounded_builds expr.nodes expr off w le_rfl

theorem NotExpr.create_builds (he : e.WellTyped) : Builds opt (.not e) (NotExpr.create e) := by
  unfold NotExpr.create
  split
  · exact Builds.pure ⟨trivial, rfl, fun _ _ => trivial, fun _ _ => rfl⟩
  · exact Builds.self he

theorem refines_cast_trunc {kind : CastKind} {w : Nat} (he : e.WellTyped) (hw : 0 < w) (hle : w < e.width) :
    (Expr.cast kind e w).Refines opt (.extract e 0 w) where
  wellTyped := ⟨he, hw, by omega⟩
  width := rfl
  defined _ h := h
  eval m _ := by
    have hwe := e.width_eval m he
    have hle' : w ≤ (e.eval m).width := by omega
    simp only [Expr.eval]
    cases kind with
    | zext => simp [CastKind.apply, APInt.extract, APInt.zextOrTrunc, BitVec.setWidth_eq_extractLsb' hle']
    | sext =>
      simp [CastKind.apply, APInt.extract, APInt.sextOrTrunc, BitVec.signExtend_eq_setWidth_of_le _ hle',
        BitVec.setWidth_eq_extractLsb' hle']

theorem refines_cast_self {kind : CastKind} {w : Nat} (he : e.WellTyped) (hw : w = e.width) :
    (Expr.cast kind e w).Refines opt e where
  wellTyped := he
  width := hw.symm
  defined _ h := h
  eval m _ := by
    simp only [Expr.eval]
    rw [hw, ← e.width_eval m he]
    cases kind with
    | zext => exact (APInt.zextOrTrunc_self _).symm
    | sext => exact (APInt.sextOrTrunc_self _).symm

theorem CastExpr.create_builds (kind : CastKind) {w : Nat} (he : e.WellTyped) (hw : w < e.width → 0 < w) :
    Builds opt (.cast kind e w) (CastExpr.create kind e w) := by
  unfold CastExpr.create
  split
  · rename_i h
    exact Builds.pure (refines_cast_self he h)
  · split
    · rename_i h
      exact Builds.of_refines (refines_cast_trunc he (hw h) h) (ExtractExpr.create_builds he (hw h) (by omega))
    · split
      · refine Builds.pure ⟨trivial, ?_, fun _ _ => trivial, fun _ _ => rfl⟩
        cases kind <;> rfl
      · exact Builds.self ⟨he, by omega⟩

section Select

theorem refines_select_of_bits (hc : c.WellTyped) (ht : t.WellTyped) (hf : f.WellTyped) (hwc : c.width = 1)
    (hwt : t.width = 1) (hwf : f.width = 1) (he : e.WellTyped) (hw : e.width = 1)
    (hd : ∀ m, c.Defined m → t.Defined m → f.Defined m → e.Defined m)
    (hv : ∀ m (x y z : BitVec 1), c.eval m = ⟨1, x⟩ → t.eval m = ⟨1, y⟩ → f.eval m = ⟨1, z⟩ →
      e.eval m = ⟨1, if x.toNat = 1 then y else z⟩) : (Expr.select c t f).Refines opt e where
  wellTyped := he
  width := hw.trans hwt.symm
  defined m h := hd m h.1 h.2.1 h.2.2
  eval m _ := by
    obtain ⟨x, y, hx, hy⟩ := exists_bits hc ht hwc hwt m
    obtain ⟨z, hz⟩ := APInt.exists_value ((f.width_eval m hf).trans hwf)
    rw [hv m x y z hx hy hz]
    simp only [Expr.eval]
    rw [hx, hy, hz]
    by_cases h : x.toNat = 1
    · rw [if_pos h]
      exact (if_pos h).symm
    · rw [if_neg h]
      exact (if_neg h).symm

theorem refines_select_true_left {v : APInt} (hc : c.WellTyped) (hf : f.WellTyped) (hwc : c.width = 1)
    (hwf : f.width = 1) (hwv : v.width = 1) (hv : ConstantExpr.isTrue v = true) :
    (Expr.select c (.constant v) f).Refines opt (.binary .or c f) := by
  refine refines_select_of_bits hc trivial hf hwc hwv hwf ⟨hc, hf, hwc.trans hwf.symm⟩ hwc
    (fun m h _ h' => ⟨h, h', nofun⟩) ?_
  rintro m x y z hx rfl hz
  rw [isTrue_iff] at hv
  simp only [Expr.eval, hx, hz, APInt.map₂_mk, APInt.mk.injEq, heq_eq_eq, true_and, hv]
  clear hx hz hv
  revert x z
  decide

theorem refines_select_false_left (hc : c.WellTyped) (hf : f.WellTyped) (hwc : c.width = 1) (hwf : f.width = 1) :
    (Expr.select c (.constant ⟨1, 0⟩) f).Refines opt (.binary .and (.cmp .eq c (.ofNat c.width 0)) f) := by
  rw [hwc]
  refine refines_select_of_bits hc trivial hf hwc rfl hwf ⟨⟨hc, trivial, hwc⟩, hf, hwf.symm⟩ rfl
    (fun m h _ h' => ⟨⟨h, trivial⟩, h', nofun⟩) ?_
  intro m x y z hx hy hz
  obtain rfl : 0 = y := by simpa [Expr.eval] using hy
  simp only [Expr.eval, hx, hz, eval_ofNat, APInt.ofNat, APInt.rel₂_mk, APInt.ofBool, APInt.map₂_mk, APInt.mk.injEq,
    heq_eq_eq, true_and]
  clear hx hy hz
  revert x z
  decide

theorem refines_select_true_right {v : APInt} (hc : c.WellTyped) (ht : t.WellTyped) (hwc : c.width = 1)
    (hwt : t.width = 1) (hwv : v.width = 1) (hv : ConstantExpr.isTrue v = true) :
    (Expr.select c t (.constant v)).Refines opt (.binary .or (.cmp .eq c (.ofNat c.width 0)) t) := by
  rw [hwc]
  refine refines_select_of_bits hc ht trivial hwc hwt hwv ⟨⟨hc, trivial, hwc⟩, ht, hwt.symm⟩ rfl
    (fun m h h' _ => ⟨⟨h, trivial⟩, h', nofun⟩) ?_
  rintro m x y z hx hy rfl
  rw [isTrue_iff] at hv
  simp only [Expr.eval, hx, hy, eval_ofNat, APInt.ofNat, APInt.rel₂_mk, APInt.ofBool, APInt.map₂_mk, APInt.mk.injEq,
    heq_eq_eq, true_and, hv]
  clear hx hy hv
  revert x y
  decide

theorem refines_select_false_right (hc : c.WellTyped) (ht : t.WellTyped) (hwc : c.width = 1) (hwt : t.width = 1) :
    (Expr.select c t (.constant ⟨1, 0⟩)).Refines opt (.binary .and c t) := by
  refine refines_select_of_bits hc ht trivial hwc hwt rfl ⟨hc, ht, hwc.trans hwt.symm⟩ hwc
    (fun m h h' _ => ⟨h, h', nofun⟩) ?_
  intro m x y z hx hy hz
  obtain rfl : 0 = z := by simpa [Expr.eval] using hz
  simp only [Expr.eval, hx, hy, APInt.map₂_mk, APInt.mk.injEq, heq_eq_eq, true_and]
  clear hx hy hz
  revert x y
  decide

theorem refines_select_constant {v : APInt} (ht : t.WellTyped) (hf : f.WellTyped) (hwv : v.width = 1)
    (hw : t.width = f.width) :
    (Expr.select (.constant v) t f).Refines opt (if ConstantExpr.isTrue v then t else f) := by
  obtain ⟨w, x⟩ := v
  dsimp only at hwv
  subst hwv
  have hx : ConstantExpr.isTrue ⟨1, x⟩ = true ↔ x.toNat = 1 := by
    revert x
    decide
  by_cases h : ConstantExpr.isTrue ⟨1, x⟩ = true
  · rw [if_pos h]
    refine ⟨ht, rfl, fun _ hd => hd.2.1, fun m _ => ?_⟩
    exact (if_pos (hx.mp h)).symm
  · rw [if_neg h]
    refine ⟨hf, hw.symm, fun _ hd => hd.2.2, fun m _ => ?_⟩
    exact (if_neg fun hx1 => h (hx.mpr hx1)).symm

theorem refines_select_self (ht : t.WellTyped) : (Expr.select c t t).Refines opt t where
  wellTyped := ht
  width := rfl
  defined _ h := h.2.1
  eval m _ := by simp [Expr.eval]

variable (opt) in
theorem SelectExpr.create_builds (hc : c.WellTyped) (ht : t.WellTyped) (hf : f.WellTyped) (hwc : c.width = 1)
    (hw : t.width = f.width) : Builds opt (.select c t f) (SelectExpr.create opt c t f) := by
  unfold SelectExpr.create
  rw [if_pos ⟨hwc, hw⟩]
  split
  · exact Builds.pure (refines_select_constant ht hf hwc hw)
  · split
    · rename_i heq
      subst heq
      exact Builds.pure (refines_select_self ht)
    · split
      · rename_i hwt
        have hwf : f.width = 1 := hw.symm.trans hwt
        have hzero := Expr.createIsZero_builds opt hc
        split
        · split
          · rename_i hv
            exact Builds.of_refines (refines_select_true_left hc hf hwc hwf hwt hv)
              (OrExpr.create_builds hc hf (hwc.trans hwf.symm))
          · rename_i hv
            obtain rfl := eq_zero_of_not_isTrue hwt hv
            exact Builds.bindL (refines_select_false_left hc hf hwc hwf) hzero fun notC hnotC hw =>
              AndExpr.create_builds hnotC hf hw
        · split
          · rename_i hv
            exact Builds.bindL (refines_select_true_right hc ht hwc hwt hwf hv) hzero fun notC hnotC hw =>
              OrExpr.create_builds hnotC ht hw
          · rename_i hv
            obtain rfl := eq_zero_of_not_isTrue hwf hv
            exact Builds.of_refines (refines_select_false_right hc ht hwc hwt)
              (AndExpr.create_builds hc ht (hwc.trans hwt.symm))
        · exact Builds.self ⟨hc, ht, hf, hwc, hw⟩
      · exact Builds.self ⟨hc, ht, hf, hwc, hw⟩

end Select

section Read

variable {root : ExprArray} {head next : UpdateNode} {index i value : Expr}

/-- What the loop over the updates finds: the value at the index, or updates that give the same value there. -/
def ReadExpr.Found (opt : Bool) (root : ExprArray) (head : UpdateNode) (index : Expr) : Expr ⊕ UpdateNode → Prop
  | .inl value => value.WellTyped ∧ value.width = root.range ∧
    (∀ m, index.Defined m → head.Defined m → value.Defined m) ∧
    ∀ m, (opt = true → index.Defined m ∧ head.Defined m) → ∀ initial,
      value.eval m = head.lookup m initial (index.eval m).toNat
  | .inr un => un.WellTyped root ∧
    (∀ m, index.Defined m → head.Defined m → un.Defined m) ∧
    ∀ m, (opt = true → index.Defined m ∧ head.Defined m) → ∀ initial,
      un.lookup m initial (index.eval m).toNat = head.lookup m initial (index.eval m).toNat

theorem isTrue_ofBool (b : Bool) : ConstantExpr.isTrue (.ofBool b) = b := by cases b <;> rfl

theorem ReadExpr.Found.cons {out : Expr ⊕ UpdateNode} (h : ReadExpr.Found opt root next index out)
    (hne : ∀ m, (opt = true → index.Defined m ∧ i.Defined m) → (i.eval m).toNat ≠ (index.eval m).toNat) :
    ReadExpr.Found opt root (.cons i value next) index out := by
  have hlookup : ∀ m, (opt = true → index.Defined m ∧ (UpdateNode.cons i value next).Defined m) → ∀ initial,
      (UpdateNode.cons i value next).lookup m initial (index.eval m).toNat =
        next.lookup m initial (index.eval m).toNat := by
    intro m hd initial
    exact if_neg (hne m fun ho => ⟨(hd ho).1, (hd ho).2.1⟩)
  cases out with
  | inl v =>
    refine ⟨h.1, h.2.1, fun m hindex hd => h.2.2.1 m hindex hd.2.2, fun m hd initial => ?_⟩
    rw [hlookup m hd]
    exact h.2.2.2 m (fun ho => ⟨(hd ho).1, (hd ho).2.2.2⟩) initial
  | inr un =>
    refine ⟨h.1, fun m hindex hd => h.2.1 m hindex hd.2.2, fun m hd initial => ?_⟩
    rw [hlookup m hd]
    exact h.2.2 m (fun ho => ⟨(hd ho).1, (hd ho).2.2.2⟩) initial

variable (opt)

theorem ReadExpr.rollback_spec (hindex : index.WellTyped) (hdom : index.width = root.domain) :
    ∀ head : UpdateNode, head.WellTyped root →
    ∃ out, ReadExpr.rollback opt index head = some out ∧ ReadExpr.Found opt root head index out
  | .nil, _ => ⟨.inr .nil, rfl, trivial, fun _ _ _ => trivial, fun _ _ _ => rfl⟩
  | .cons i value next, hhead => by
    obtain ⟨hi, hvalue, hnext, hwi, hwv⟩ := hhead
    obtain ⟨eq, heq, href⟩ := EqExpr.create_builds opt hindex hi (hdom.trans hwi.symm)
    unfold ReadExpr.rollback
    rw [heq]
    -- what the folded equation says of the two indices
    have hval : ∀ m, (opt = true → index.Defined m ∧ i.Defined m) →
        eq.eval m = .ofBool (decide ((i.eval m).toNat = (index.eval m).toNat)) := by
      intro m hd
      have hwidth : (index.eval m).width = (i.eval m).width := by
        rw [index.width_eval m hindex, i.width_eval m hi, hdom, hwi]
      rw [href.eval m hd]
      simp only [Expr.eval]
      rw [CmpKind.rel₂_eq hwidth]
      congr 1
      exact decide_eq_decide.mpr ((APInt.toNat_eq_iff hwidth).symm.trans eq_comm)
    simp only [Option.bind_eq_bind, Option.bind_some]
    split
    · rename_i v
      split
      · rename_i hv
        refine ⟨.inl value, rfl, hvalue, hwv, fun m _ hdh => hdh.2.1, fun m hd initial => ?_⟩
        have hvm : v = .ofBool _ := hval m fun ho => ⟨(hd ho).1, (hd ho).2.1⟩
        rw [hvm, isTrue_ofBool, decide_eq_true_iff] at hv
        exact (if_pos hv).symm
      · rename_i hv
        obtain ⟨out, hout, hfound⟩ := ReadExpr.rollback_spec hindex hdom next hnext
        refine ⟨out, hout, hfound.cons ?_⟩
        intro m hd heqi
        have hvm : v = .ofBool _ := hval m hd
        rw [hvm, isTrue_ofBool, decide_eq_true_iff] at hv
        exact hv heqi
    · refine ⟨_, rfl, ⟨hi, hvalue, hnext, hwi, hwv⟩, fun m _ hd => hd, fun _ _ _ => rfl⟩

theorem ReadExpr.create_builds (h : (Expr.read root head index).WellTyped) :
    Builds opt (.read root head index) (ReadExpr.create opt root head index) := by
  obtain ⟨hroot, hhead, hindex, hdom⟩ := h
  obtain ⟨out, hout, hfound⟩ := ReadExpr.rollback_spec opt hindex hdom head hhead
  unfold ReadExpr.create
  rw [hout]
  cases out with
  | inl value =>
    obtain ⟨hvalue, hwv, hdef, hsem⟩ := hfound
    refine Builds.pure ⟨hvalue, hwv, fun m hd => hdef m hd.2.1 hd.1, fun m hd => ?_⟩
    exact hsem m (fun ho => ⟨(hd ho).2.1, (hd ho).1⟩) _
  | inr un =>
    obtain ⟨hun, hdef, hsem⟩ := hfound
    simp only [Option.bind_eq_bind, Option.bind_some]
    split
    · rename_i c
      have hc64 : c.width ≤ 64 := by
        have : c.width = root.domain := hdom
        rw [this]
        exact hroot.domain_le
      rw [if_pos hc64]
      split
      · split
        · rename_i hconst
          obtain ⟨hconst, rfl⟩ := hconst
          refine Builds.pure ⟨trivial, rfl, fun _ _ => trivial, fun m hd => ?_⟩
          have hlookup := hsem m (fun ho => ⟨trivial, (hd ho).1⟩) ⟨root.range, root.initial m c.toNat⟩
          refine Eq.trans ?_ hlookup
          simp only [Expr.eval, UpdateNode.lookup, ExprArray.initial, if_neg hconst]
        · refine Builds.pure ⟨⟨hroot, hun, trivial, hdom⟩, rfl, fun m hd => ?_, fun m hd => ?_⟩
          · exact ⟨hdef m trivial hd.1, trivial, hd.2.2⟩
          · exact hsem m (fun ho => ⟨trivial, (hd ho).1⟩) _
      · exact Builds.self ⟨hroot, hhead, hindex, hdom⟩
    · exact Builds.self ⟨hroot, hhead, hindex, hdom⟩

end Read

/-- The operands have the widths that the assertions of the constructor of the node ask for.  A cast may also be to
fewer bits, if any are left. -/
def Expr.OperandsTyped : Expr → Prop
  | .cast _ src width => src.WellTyped ∧ (width < src.width → 0 < width)
  | e => e.WellTyped

theorem Expr.WellTyped.operandsTyped (h : e.WellTyped) : e.OperandsTyped := by
  cases e with
  | cast kind src w => exact ⟨h.1, fun hw => absurd h.2 (by omega)⟩
  | _ => exact h

def Expr.dividesByZero : Expr → Bool
  | .binary kind l r => kind.isDivision && CgsKlee.dividesByZero l r
  | _ => false

theorem Expr.Defined.dividesByZero {m : Valuation} (h : e.Defined m) : e.dividesByZero = false := by
  unfold Expr.dividesByZero
  split
  · rw [Bool.and_eq_false_imp]
    exact fun hkind => dividesByZero_eq_false hkind ⟨m, h⟩
  · rfl

variable (opt)

theorem Expr.recreate_builds (h : e.OperandsTyped) (hdiv : e.dividesByZero = false) : Builds opt e (e.recreate opt) := by
  cases e with
  | constant value => exact Builds.self trivial
  | notOptimized src => exact Builds.self h
  | read root head index => exact ReadExpr.create_builds opt h
  | select c t f => exact SelectExpr.create_builds opt h.1 h.2.1 h.2.2.1 h.2.2.2.1 h.2.2.2.2
  | concat l r => exact ConcatExpr.create_builds h.1 h.2
  | extract e off w => exact ExtractExpr.create_builds h.1 h.2.1 h.2.2
  | cast kind src w => exact CastExpr.create_builds kind h.1 h.2
  | not e => exact NotExpr.create_builds h
  | binary kind l r => exact kind.create_builds opt h.1 h.2.1 h.2.2 (Bool.and_eq_false_imp.mp hdiv)
  | cmp kind l r => exact kind.create_builds opt h.1 h.2.1 h.2.2

theorem Expr.recreate_of_dividesByZero (h : e.dividesByZero = true) : e.recreate opt = none := by
  cases e with
  | binary kind l r =>
    obtain ⟨hkind, hdiv⟩ := Bool.and_eq_true_iff.mp h
    cases kind with
    | udiv | sdiv | urem | srem => exact if_pos hdiv
    | _ => cases hkind
  | _ => cases h

variable {opt}

theorem Expr.recreate_refines {e' : Expr} (h : e.OperandsTyped) (he : e.recreate opt = some e') : e.Refines opt e' := by
  cases hdiv : e.dividesByZero with
  | true =>
    rw [Expr.recreate_of_dividesByZero opt hdiv] at he
    cases he
  | false =>
    obtain ⟨e'', he'', href⟩ := e.recreate_builds opt h hdiv
    obtain rfl := Option.some.inj (he''.symm.trans he)
    exact href

/-- Smart constructors preserve meaning: for operands of any width that pass the assertions, and every assignment
under which no divisor of the node is zero and every read in it is in bounds, every `X::create` ends and returns an
expression of the width of the plain node with the same value.  What is returned does not depend on the assignment. -/
theorem create_preserves_meaning (constArrayOpt : Bool) (e : Expr) (h : e.OperandsTyped) (hdef : ∃ m, e.Defined m) :
    ∃ e', e.recreate constArrayOpt = some e' ∧ e'.WellTyped ∧ e'.width = e.width ∧
      ∀ m, e.Defined m → e'.Defined m ∧ e'.eval m = e.eval m := by
  obtain ⟨m, hm⟩ := hdef
  obtain ⟨e', he', href⟩ := e.recreate_builds constArrayOpt h hm.dividesByZero
  exact ⟨e', he', href.wellTyped, href.width, fun m hd => ⟨href.defined m hd, href.eval m fun _ => hd⟩⟩

/-- 5 = 2 + zext(a[0]), for a symbolic array of four bytes. -/
def sumEquation : Expr :=
  .cmp .eq (.ofNat 16 5)
    (.binary .add (.ofNat 16 2) (.cast .zext (.read ⟨0, 4, 32, 8, []⟩ .nil (.ofNat 32 0)) 16))

theorem create_preserves_meaning_sum : sumEquation.OperandsTyped ∧ (∃ m, sumEquation.Defined m) ∧
    ∃ e', sumEquation.recreate true = some e' ∧ e'.WellTyped ∧ e'.width = 1 ∧
      ∀ m, sumEquation.Defined m → e'.Defined m ∧ e'.eval m = sumEquation.eval m := by
  have htyped : sumEquation.OperandsTyped :=
    ⟨trivial, ⟨trivial, ⟨⟨⟨by decide, by decide, by decide⟩, trivial, trivial, rfl⟩, by decide⟩, rfl⟩, rfl⟩
  have hdef : ∃ m, sumEquation.Defined m :=
    ⟨fun _ _ => 0, trivial, trivial, ⟨trivial, trivial, by decide⟩, nofun⟩
  exact ⟨htyped, hdef, create_preserves_meaning true sumEquation htyped hdef⟩

end CgsKlee
