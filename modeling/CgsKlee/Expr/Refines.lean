import CgsKlee.Expr.Create

/-!
# Refinement of expressions

`p.Refines opt q`: the well-typed expression `q` may take the place of `p`.  It has the same width and the same value,
and it is defined wherever `p` is.  With the optimization of constant arrays, `opt`, the values agree only where `p` is
defined, as a read out of bounds is then equal to nothing.  Refinement is a preorder and a congruence, and what a smart
constructor returns refines the plain node: `Builds`.
-/

namespace CgsKlee

namespace Expr

structure Refines (opt : Bool) (p q : Expr) : Prop where
  wellTyped : q.WellTyped
  width : q.width = p.width
  defined : ∀ m, p.Defined m → q.Defined m
  eval : ∀ m, (opt = true → p.Defined m) → q.eval m = p.eval m

variable {opt : Bool} {p q r l l' r' c c' t t' f f' : Expr}

theorem Refines.refl (h : p.WellTyped) : p.Refines opt p := ⟨h, rfl, fun _ hd => hd, fun _ _ => rfl⟩

theorem Refines.trans (h : p.Refines opt q) (h' : q.Refines opt r) : p.Refines opt r where
  wellTyped := h'.wellTyped
  width := h'.width.trans h.width
  defined m hd := h'.defined m (h.defined m hd)
  eval m hd := (h'.eval m fun ho => h.defined m (hd ho)).trans (h.eval m hd)

theorem Refines.binary (kind : BinaryKind) (hw : l.width = r.width) (hl : l.Refines opt l')
    (hr : r.Refines opt r') : (Expr.binary kind l r).Refines opt (.binary kind l' r') where
  wellTyped := ⟨hl.wellTyped, hr.wellTyped, hl.width.trans (hw.trans hr.width.symm)⟩
  width := hl.width
  defined := by
    rintro m ⟨hdl, hdr, hdiv⟩
    exact ⟨hl.defined m hdl, hr.defined m hdr, fun hk => by rw [hr.eval m fun _ => hdr]; exact hdiv hk⟩
  eval m hd := by
    simp only [Expr.eval, hl.eval m fun ho => (hd ho).1, hr.eval m fun ho => (hd ho).2.1]

theorem Refines.cmp (kind : CmpKind) (hw : l.width = r.width) (hl : l.Refines opt l') (hr : r.Refines opt r') :
    (Expr.cmp kind l r).Refines opt (.cmp kind l' r') where
  wellTyped := ⟨hl.wellTyped, hr.wellTyped, hl.width.trans (hw.trans hr.width.symm)⟩
  width := rfl
  defined := by
    rintro m ⟨hdl, hdr⟩
    exact ⟨hl.defined m hdl, hr.defined m hdr⟩
  eval m hd :=
    congrArg₂ (APInt.rel₂ kind.apply) (hl.eval m fun ho => (hd ho).1) (hr.eval m fun ho => (hd ho).2)

theorem Refines.concat (hl : l.Refines opt l') (hr : r.Refines opt r') :
    (Expr.concat l r).Refines opt (.concat l' r') where
  wellTyped := ⟨hl.wellTyped, hr.wellTyped⟩
  width := congrArg₂ (· + ·) hl.width hr.width
  defined := by
    rintro m ⟨hdl, hdr⟩
    exact ⟨hl.defined m hdl, hr.defined m hdr⟩
  eval m hd := congrArg₂ APInt.append (hl.eval m fun ho => (hd ho).1) (hr.eval m fun ho => (hd ho).2)

end Expr

/-- The constructor returns an expression that refines the plain node. -/
def Builds (opt : Bool) (p : Expr) (result : Option Expr) : Prop := ∃ e, result = some e ∧ p.Refines opt e

namespace Builds

variable {opt : Bool} {p q : Expr} {x : Option Expr}

theorem pure {e : Expr} (h : p.Refines opt e) : Builds opt p (some e) := ⟨e, rfl, h⟩

theorem self (h : p.WellTyped) : Builds opt p (some p) := pure (.refl h)

theorem bind {f : Expr → Option Expr} (hx : Builds opt p x) (hf : ∀ e, p.Refines opt e → Builds opt q (f e)) :
    Builds opt q (x >>= f) := by
  obtain ⟨e, rfl, he⟩ := hx
  exact hf e he

theorem of_refines (h : p.Refines opt q) (hx : Builds opt q x) : Builds opt p x := by
  obtain ⟨e, rfl, he⟩ := hx
  exact ⟨e, rfl, h.trans he⟩

end Builds

theorem Builds.bindR {opt : Bool} {p q c : Expr} {kind : BinaryKind} {x : Option Expr} {f : Expr → Option Expr}
    (h : p.Refines opt (.binary kind c q)) (hx : Builds opt q x)
    (hf : ∀ e, e.WellTyped → c.width = e.width → Builds opt (.binary kind c e) (f e)) : Builds opt p (x >>= f) := by
  obtain ⟨hc, -, hw⟩ := h.wellTyped
  refine Builds.bind hx fun e he => Builds.of_refines (h.trans ?_) (hf e he.wellTyped (hw.trans he.width.symm))
  exact Expr.Refines.binary kind hw (.refl hc) he

theorem Builds.bindL {opt : Bool} {p q c : Expr} {kind : BinaryKind} {x : Option Expr} {f : Expr → Option Expr}
    (h : p.Refines opt (.binary kind q c)) (hx : Builds opt q x)
    (hf : ∀ e, e.WellTyped → e.width = c.width → Builds opt (.binary kind e c) (f e)) : Builds opt p (x >>= f) := by
  obtain ⟨-, hc, hw⟩ := h.wellTyped
  refine Builds.bind hx fun e he => Builds.of_refines (h.trans ?_) (hf e he.wellTyped (he.width.trans hw))
  exact Expr.Refines.binary kind hw he (.refl hc)

namespace Expr

variable {m : Valuation} {l r : Expr}

theorem exists_values (hl : l.WellTyped) (hr : r.WellTyped) (hw : l.width = r.width) (m : Valuation) :
    ∃ x y : BitVec l.width, l.eval m = ⟨l.width, x⟩ ∧ r.eval m = ⟨l.width, y⟩ :=
  APInt.exists_values (l.width_eval m hl) ((r.width_eval m hr).trans hw.symm)

theorem exists_bits (hl : l.WellTyped) (hr : r.WellTyped) (hw : l.width = 1) (hw' : r.width = 1) (m : Valuation) :
    ∃ x y : BitVec 1, l.eval m = ⟨1, x⟩ ∧ r.eval m = ⟨1, y⟩ :=
  APInt.exists_values ((l.width_eval m hl).trans hw) ((r.width_eval m hr).trans hw')

@[simp] theorem width_ofBool (b : Bool) : (ofBool b).width = 1 := rfl

@[simp] theorem width_ofNat (w n : Nat) : (ofNat w n).width = w := rfl

@[simp] theorem eval_ofBool (b : Bool) : (ofBool b).eval m = .ofBool b := rfl

@[simp] theorem eval_ofNat (w n : Nat) : (ofNat w n).eval m = .ofNat w n := rfl

@[simp] theorem wellTyped_constant (c : APInt) : (Expr.constant c).WellTyped := trivial

@[simp] theorem defined_constant (c : APInt) : (Expr.constant c).Defined m := trivial

@[simp] theorem wellTyped_ofBool (b : Bool) : (ofBool b).WellTyped := trivial

@[simp] theorem wellTyped_ofNat (w n : Nat) : (ofNat w n).WellTyped := trivial

end Expr

open Expr

variable {opt : Bool} {l r : Expr}

theorem refines_fold_binary (kind : BinaryKind) (a b : APInt) :
    (Expr.binary kind (.constant a) (.constant b)).Refines opt (.constant (APInt.map₂ kind.apply a b)) :=
  ⟨trivial, rfl, fun _ _ => trivial, fun _ _ => rfl⟩

theorem refines_fold_cmp (kind : CmpKind) (a b : APInt) :
    (Expr.cmp kind (.constant a) (.constant b)).Refines opt (.constant (APInt.rel₂ kind.apply a b)) :=
  ⟨trivial, rfl, fun _ _ => trivial, fun _ _ => rfl⟩

theorem createR_builds (node : Expr → Expr → Expr) {fold : APInt → APInt → APInt}
    {partialL : Expr → APInt → Option Expr} {partialR : APInt → Expr → Option Expr}
    {create : Expr → Expr → Option Expr} (hw : l.width = r.width)
    (hfold : ∀ a b, (node (.constant a) (.constant b)).Refines opt (.constant (fold a b)))
    (hR : ∀ c, l = .constant c → Builds opt (node (.constant c) r) (partialR c r))
    (hL : ∀ c, r = .constant c → Builds opt (node l (.constant c)) (partialL l c))
    (hcreate : Builds opt (node l r) (create l r)) :
    Builds opt (node l r) (createR fold partialL partialR create l r) := by
  unfold createR
  rw [if_pos hw]
  split
  · exact Builds.pure (hfold _ _)
  · exact hR _ rfl
  · exact hL _ rfl
  · exact hcreate

theorem createB_builds (node : Expr → Expr → Expr) {fold : APInt → APInt → APInt}
    {create : Expr → Expr → Option Expr} (hw : l.width = r.width)
    (hfold : ∀ a b, (node (.constant a) (.constant b)).Refines opt (.constant (fold a b)))
    (hcreate : Builds opt (node l r) (create l r)) : Builds opt (node l r) (createB fold create l r) := by
  unfold createB
  rw [if_pos hw]
  split
  · exact Builds.pure (hfold _ _)
  · exact hcreate

theorem refines_binary_of_eval {kind : BinaryKind} {e : Expr} (he : e.WellTyped) (hw : e.width = l.width)
    (hd : ∀ m, l.Defined m → r.Defined m → e.Defined m)
    (hv : ∀ m, e.eval m = APInt.map₂ kind.apply (l.eval m) (r.eval m)) : (Expr.binary kind l r).Refines opt e where
  wellTyped := he
  width := hw
  defined m h := hd m h.1 h.2.1
  eval m _ := hv m

end CgsKlee
