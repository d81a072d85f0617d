import CgsKlee.Lib.OptionState
import CgsKlee.Lib.TermSorts
import CgsKlee.Solver.STPBuilder

/-!
# The sorts of the terms that are built

An expression of width 1 is to become a truth value and every other one a vector, and the operations of the solver are to
be applied accordingly.  What stands in the way is a truth value as a part of a concatenation, and an array that has
single bits as indices or as elements: `Expr.VectorNode`.  The terms of all other expressions are well sorted, whatever
was built before (`Backend.construct_sorts`).  Nothing is built of an expression that divides by a constant zero where the
backend computes with the constant: it traps.
-/

namespace CgsKlee

open Smt OptionState

section Operations

variable {t u : SolverTerm} {w v : Nat}

theorem bvZExtConst_loop_isVector {width : Nat} (hw : 0 < width) (ht : t.IsVector v) :
    (bvZExtConst.loop width t).IsVector (width + v) := by
  induction width using Nat.strong_induction_on generalizing t v with
  | _ width ih =>
    unfold bvZExtConst.loop
    split
    · rename_i hlt
      have hconcat : (SolverTerm.concat (bvConst64 64 0) t).IsVector (64 + v) := .concat (.const 0 (by omega)) ht
      have h := ih (width - 64) (by omega) (by omega) hconcat
      rwa [show width - 64 + (64 + v) = width + v by omega] at h
    · exact .concat (.const 0 hw) ht

theorem bvZExtConst_isVector (hw : 0 < w) (value : Nat) : (bvZExtConst w value).IsVector w := by
  unfold bvZExtConst
  split
  · exact .const value hw
  · have hlow : (bvConst64 64 value).IsVector 64 := .const value (by omega)
    have h := bvZExtConst_loop_isVector (by omega : 0 < w - 64) hlow
    rwa [show w - 64 + 64 = w by omega] at h

theorem bvZero_isVector (hw : 0 < w) : (bvZero w).IsVector w := bvZExtConst_isVector hw 0

theorem bvOne_isVector (hw : 0 < w) : (bvOne w).IsVector w := bvZExtConst_isVector hw 1

theorem bvBoolExtract_sorted (ht : t.IsVector w) (bit : Nat) : (bvBoolExtract t bit).Sorted :=
  .eq (.extract bit bit ht) (bvOne_isVector Nat.one_pos)

theorem bvRightShift_isVector (ht : t.IsVector w) (shift : Nat) : (bvRightShift t shift).IsVector w := by
  have hw : 0 < w := ht.pos
  unfold bvRightShift
  rw [ht.bvLength]
  dsimp only
  split
  · exact ht
  · split
    · exact bvZero_isVector hw
    · have h := (bvZero_isVector (by omega : 0 < shift)).concat (ht.extract (w - 1) shift)
      rwa [show shift + (w - 1 - shift + 1) = w by omega] at h

theorem bvLeftShift_isVector (ht : t.IsVector w) (shift : Nat) : (bvLeftShift t shift).IsVector w := by
  have hw : 0 < w := ht.pos
  unfold bvLeftShift
  rw [ht.bvLength]
  dsimp only
  split
  · exact ht
  · split
    · exact bvZero_isVector hw
    · have h := (ht.extract (w - shift - 1) 0).concat (bvZero_isVector (by omega : 0 < shift))
      rwa [show w - shift - 1 - 0 + 1 + shift = w by omega] at h

theorem constructAShrByConstant_isVector {bvMinusOne : Nat → SolverTerm} {isSigned : SolverTerm}
    (hones : ∀ w, 0 < w → (bvMinusOne w).IsVector w) (ht : t.IsVector w) (hs : isSigned.Sorted)
    (hb : isSigned.isBool = true) (shift : Nat) :
    (constructAShrByConstant bvMinusOne t shift isSigned).IsVector w := by
  unfold constructAShrByConstant
  rw [ht.bvLength]
  dsimp only
  split
  · exact ht
  · split
    · exact bvZero_isVector ht.pos
    · have h := (hones shift (by omega)).concat (ht.extract (w - 1) shift)
      rw [show shift + (w - 1 - shift + 1) = w by omega] at h
      exact .ite hs hb h (bvRightShift_isVector ht shift)

theorem shiftCases_isVector {cond : Nat → Option SolverTerm} {shifted : Nat → SolverTerm} {n : Nat} {res out : SolverTerm}
    (hcond : ∀ i c, cond i = some c → c.Sorted ∧ c.isBool = true) (hshifted : ∀ i, (shifted i).IsVector w)
    (hres : res.IsVector w) (hrun : shiftCases cond shifted n res = some out) : out.IsVector w := by
  induction n generalizing res with
  | zero =>
    obtain rfl := Option.some.inj hrun
    exact hres
  | succ i ih =>
    obtain ⟨c, hc, hrest⟩ := Option.bind_eq_some_iff.mp hrun
    obtain ⟨hsorted, hbool⟩ := hcond i c hc
    exact ih (.ite hsorted hbool (hshifted i) hres) hrest

theorem shiftOrZero_isVector (ht : t.IsVector w) (hu : u.IsVector v) : (shiftOrZero u t w).IsVector w := by
  have hconst : (bvConst32 u.bvLength w).IsVector v := by
    rw [hu.bvLength]
    exact .const w hu.pos
  exact .ite (.rel .ult hu hconst) rfl ht (bvZero_isVector ht.pos)

theorem constructConstant_loop_isVector {a : APInt} (ha : 0 < a.width) (ht : t.IsVector (min 64 a.width + v)) :
    (constructConstant.loop a t).IsVector (a.width + v) := by
  induction h : a.width using Nat.strong_induction_on generalizing a t v with
  | _ n ih =>
    unfold constructConstant.loop
    split
    · rename_i hlt
      have hw : (a.extract 64 (a.width - 64)).width = n - 64 := by rw [← h]; rfl
      have hnew : (bvConst64 (min 64 (a.extract 64 (a.width - 64)).width)
          ((a.extract 64 (a.width - 64)).extract 0 (min 64 (a.extract 64 (a.width - 64)).width)).toNat).IsVector
          (min 64 (a.extract 64 (a.width - 64)).width) := .const _ (by omega)
      have hstep := ih (n - 64) (by omega) (by omega) (hnew.concat ht) hw
      rw [show n - 64 + (min 64 a.width + v) = n + v by omega] at hstep
      exact hstep
    · rwa [show min 64 a.width = n by omega] at ht

theorem constructConstant_isVector {c : APInt} (hc : 1 < c.width) : (constructConstant c).IsVector c.width := by
  unfold constructConstant
  rw [if_neg (by omega)]
  split
  · exact .const _ (by omega)
  · split
    · exact .const _ (by omega)
    · refine constructConstant_loop_isVector (v := 0) (by omega) ?_
      rw [show min 64 c.width + 0 = 64 by omega]
      exact .const _ (by omega)

end Operations

def Expr.HasBitsNode : Expr → Prop
  | .constant value => 0 < value.width
  | .read root _ _ => 0 < root.domain ∧ 0 < root.range
  | _ => True

def Expr.HasBits : Expr → Prop := Expr.ForallNodes Expr.HasBitsNode

/-- No truth value is used where the builder needs a vector: as a part of a concatenation, and as an index or an element
of an array. -/
def Expr.VectorNode : Expr → Prop
  | .read root _ _ => root.Indexed
  | .concat left right => left.width ≠ 1 ∧ right.width ≠ 1
  | _ => True

/-- A division by a constant on which the builder itself divides by zero. -/
def Expr.TrapNode (trap : BinaryKind → APInt → Prop) : Expr → Prop
  | .binary kind _ right => ∃ c, right.asConstant = some c ∧ trap kind c
  | _ => False

def Expr.TrapFree (trap : BinaryKind → APInt → Prop) : Expr → Prop := Expr.ForallNodes fun e => ¬ e.TrapNode trap

theorem Expr.HasBits.width_pos : ∀ e : Expr, e.HasBits → e.WellTyped → 0 < e.width
  | .constant _, h, _ => h
  | .notOptimized src, h, ht => Expr.HasBits.width_pos src h.1 ht
  | .read _ _ _, h, _ => h.2.2.2
  | .select _ t _, h, ht => Expr.HasBits.width_pos t h.2.1 ht.2.1
  | .concat l _, h, ht => Nat.add_pos_left (Expr.HasBits.width_pos l h.1 ht.1) _
  | .extract _ _ _, _, ht => ht.2.1
  | .cast _ src _, h, ht => (Expr.HasBits.width_pos src h.1 ht.1).trans_le ht.2
  | .not e, h, ht => Expr.HasBits.width_pos e h.1 ht
  | .binary _ l _, h, ht => Expr.HasBits.width_pos l h.1 ht.1
  | .cmp _ _ _, _, _ => Nat.one_pos

variable {trap : BinaryKind → APInt → Prop}

structure TermSorted (trap : BinaryKind → APInt → Prop) (e : Expr) (built : Built) : Prop where
  width : built.2 = e.width
  trapFree : e.TrapFree trap
  sorted : e.ForallNodes Expr.VectorNode → built.1.Sorted ∧ HasSort built.1 e.width

structure ArraySorted (trap : BinaryKind → APInt → Prop) (root : ExprArray) (un : UpdateNode) (array : ArrayTerm) : Prop where
  trapFree : un.ForallNodes fun e => ¬ e.TrapNode trap
  sorted : root.Indexed → un.ForallNodes Expr.VectorNode → array.Sorted ∧ array.range = root.range

structure BuilderState.SortInv (trap : BinaryKind → APInt → Prop) (s : BuilderState) : Prop where
  arrays : ∀ p ∈ s.arrays, ArraySorted trap p.1 .nil p.2
  nodes : ∀ p ∈ s.nodes, ArraySorted trap p.1.1 p.1.2 p.2
  constructed : ∀ p ∈ s.constructed, TermSorted trap p.1 p.2

theorem BuilderState.SortInv.empty : BuilderState.empty.SortInv trap := ⟨nofun, nofun, nofun⟩

/-- In every state a term of the right sort is built for the expression, if any. -/
def SortsTerm (trap : BinaryKind → APInt → Prop) (x : BuilderM Built) (e : Expr) : Prop :=
  Yields (BuilderState.SortInv trap) (e.ForallNodes Expr.VectorNode ∧ e.TrapFree trap) x (TermSorted trap e)

def SortsArray (trap : BinaryKind → APInt → Prop) (x : BuilderM ArrayTerm) (root : ExprArray) (un : UpdateNode) : Prop :=
  Yields (BuilderState.SortInv trap)
    (un.ForallNodes Expr.VectorNode ∧ un.ForallNodes fun e => ¬ e.TrapNode trap) x (ArraySorted trap root un)

section TermSorted

variable {e : Expr} {t : SolverTerm} {w : Nat}

theorem TermSorted.isVector (h : TermSorted trap e (t, w)) (hgood : e.ForallNodes Expr.VectorNode) (hpos : 0 < e.width)
    (hw : e.width ≠ 1) : t.IsVector e.width :=
  ⟨(h.sorted hgood).1, (h.sorted hgood).2.bvLength hw, hpos⟩

theorem TermSorted.isBool (h : TermSorted trap e (t, w)) (hgood : e.ForallNodes Expr.VectorNode) (hw : e.width = 1) :
    t.isBool = true := (h.sorted hgood).2.isBool hw

theorem TermSorted.isBool_iff (h : TermSorted trap e (t, w)) (hgood : e.ForallNodes Expr.VectorNode) (hpos : 0 < e.width) :
    t.isBool = true ↔ e.width = 1 := by
  constructor
  · intro hb
    by_contra hw
    have hvector : t.IsVector e.width := h.isVector hgood hpos hw
    rw [hvector.isBool] at hb
    cases hb
  · exact h.isBool hgood

theorem sorted_of_isVector (hw : w ≠ 1) (h : t.IsVector w) : t.Sorted ∧ HasSort t w :=
  ⟨h.sorted, .of_bvLength hw h.bvLength⟩

end TermSorted

/-- A shift by a term gives vectors. -/
def SortsVarShift (shift : SolverTerm → SolverTerm → Option SolverTerm) : Prop :=
  ∀ {w : Nat} {e amount t : SolverTerm}, 1 < w → e.IsVector w → amount.IsVector w → shift e amount = some t → t.IsVector w

def SortsSpecialCase (special : APInt → Nat → SolverTerm → Option (Option SolverTerm)) : Prop :=
  ∀ {c : APInt} {w : Nat} {t t' : SolverTerm}, 1 < w → c.width = w → t.IsVector w → special c w t = some (some t') →
    t'.IsVector w

/-- A division by zero is a special case if and only if it traps. -/
def TrapsAtZero (trap : APInt → Prop) (special : APInt → Nat → SolverTerm → Option (Option SolverTerm)) : Prop :=
  ∀ (c : APInt) (w : Nat) (t : SolverTerm), c.width = w →
    (trap c → special c w t = some none) ∧ (¬ trap c → c.toNat = 0 → special c w t = none)

/-- The operations of a backend give terms of the right sorts. -/
structure Backend.SortSound (b : Backend) (trap : BinaryKind → APInt → Prop) : Prop where
  minusOne : ∀ w, 0 < w → (b.bvMinusOne w).IsVector w
  varLeftShift : SortsVarShift b.bvVarLeftShift
  varRightShift : SortsVarShift b.bvVarRightShift
  varArithRightShift : SortsVarShift b.bvVarArithRightShift
  mul : SortsSpecialCase b.mulConstant
  udiv : SortsSpecialCase b.udivConstant
  sdiv : SortsSpecialCase b.sdivConstant
  urem : SortsSpecialCase b.uremConstant
  udivTraps : TrapsAtZero (trap .udiv) b.udivConstant
  sdivTraps : TrapsAtZero (trap .sdiv) b.sdivConstant
  uremTraps : TrapsAtZero (trap .urem) b.uremConstant
  division : ∀ kind c, trap kind c → kind = .udiv ∨ kind = .sdiv ∨ kind = .urem
  initialArray : ∀ (root : ExprArray) (name : String) (s : BuilderState), ∃ array assertions,
    b.initialArray root (.var name root.domain root.range) s =
        some (array, { s with constantArrayAssertions := assertions }) ∧
      (root.Indexed → array.Sorted ∧ array.range = root.range)

namespace Backend

variable {e l r : Expr} {x ce cl cr : BuilderM Built} {b : Backend} {kind : BinaryKind} {o : BvOp}

theorem sortsTerm_constant {c : APInt} (hc : 0 < c.width) :
    SortsTerm trap (pure (constructConstant c, c.width)) (.constant c) := by
  refine .pure ⟨rfl, id, fun _ => ?_⟩
  by_cases hw : c.width = 1
  · have hbool : constructConstant c = .bool (ConstantExpr.isTrue c) := if_pos hw
    dsimp only
    rw [hbool]
    exact ⟨trivial, .of_isBool hw rfl⟩
  · exact sorted_of_isVector hw (constructConstant_isVector (by omega))

theorem sortsTerm_notOptimized (h : SortsTerm trap ce e) : SortsTerm trap ce (.notOptimized e) :=
  h.mono (fun hT => ⟨hT.1.1, hT.2.1⟩) fun _ ht => ⟨ht.width, ⟨ht.trapFree, id⟩, fun hgood => ht.sorted hgood.1⟩

theorem sortsTerm_hashed (b : Backend) (h : SortsTerm trap ce e) : SortsTerm trap (b.hashed e ce) e := by
  intro s hs
  unfold hashed
  split
  · cases hlookup : s.constructed.lookup e with
    | some res =>
      have hres : TermSorted trap e res := hs.constructed _ (mem_of_lookup hlookup)
      refine ⟨fun a s' hrun => ?_, fun _ => ⟨_, rfl⟩⟩
      obtain ⟨rfl, rfl⟩ := Prod.mk.inj (Option.some.inj hrun)
      exact ⟨hs, hres⟩
    | none =>
      obtain ⟨hpost, hreturns⟩ := h s hs
      constructor
      · intro a s' hrun
        obtain ⟨⟨res, s₁⟩, hrun₁, hrun₂⟩ := Option.bind_eq_some_iff.mp hrun
        obtain ⟨hs₁, hres⟩ := hpost res s₁ hrun₁
        obtain ⟨rfl, rfl⟩ := Prod.mk.inj (Option.some.inj hrun₂)
        refine ⟨⟨hs₁.arrays, hs₁.nodes, fun p hp => ?_⟩, hres⟩
        rcases List.mem_cons.mp hp with rfl | hp
        · exact hres
        · exact hs₁.constructed p hp
      · intro hT
        obtain ⟨res, hrun⟩ := hreturns hT
        exact ⟨_, Option.bind_eq_some_iff.mpr ⟨res, hrun, rfl⟩⟩
  · exact h s hs

theorem sortsTerm_select {c t f : Expr} {cc ct cf : BuilderM Built} (ht : (Expr.select c t f).WellTyped)
    (hc : SortsTerm trap cc c) (htrue : SortsTerm trap ct t) (hfalse : SortsTerm trap cf f) (hpos : 0 < t.width) :
    SortsTerm trap (constructSelect cc ct cf) (.select c t f) := by
  obtain ⟨-, -, -, hwc, hw⟩ := ht
  refine (hc.weaken fun hT => ⟨hT.1.1, hT.2.1⟩).bind ?_
  rintro ⟨tc, wc⟩ htc
  refine (htrue.weaken fun hT => ⟨hT.1.2.1, hT.2.2.1⟩).bind ?_
  rintro ⟨tt, wt⟩ htt
  refine (hfalse.weaken fun hT => ⟨hT.1.2.2.1, hT.2.2.2.1⟩).bind ?_
  rintro ⟨tf, wf⟩ htf
  refine .pure ⟨htf.width.trans hw.symm, ⟨htc.trapFree, htt.trapFree, htf.trapFree, id⟩, fun hgood => ?_⟩
  obtain ⟨hgc, hgt, hgf, -⟩ := hgood
  have hcond : tc.isBool = true := htc.isBool hgc hwc
  by_cases h1 : t.width = 1
  · have hbt : tt.isBool = true := htt.isBool hgt h1
    have hbf : tf.isBool = true := htf.isBool hgf (hw ▸ h1)
    exact ⟨⟨(htc.sorted hgc).1, (htt.sorted hgt).1, (htf.sorted hgf).1, hcond, hbt.trans hbf.symm⟩,
      .of_isBool h1 hbt⟩
  · have hvt : tt.IsVector t.width := htt.isVector hgt hpos h1
    have hvf : tf.IsVector f.width := htf.isVector hgf (hw ▸ hpos) (hw ▸ h1)
    exact sorted_of_isVector h1 (.ite (htc.sorted hgc).1 hcond hvt hvf)

theorem sortsTerm_concat (hposl : 0 < l.width) (hposr : 0 < r.width) (hl : SortsTerm trap cl l)
    (hr : SortsTerm trap cr r) : SortsTerm trap (constructConcat (Expr.concat l r).width cl cr) (.concat l r) := by
  refine (hr.weaken fun hT => ⟨hT.1.2.1, hT.2.2.1⟩).bind ?_
  rintro ⟨tr, wr⟩ htr
  refine (hl.weaken fun hT => ⟨hT.1.1, hT.2.1⟩).bind ?_
  rintro ⟨tl, wl⟩ htl
  refine .pure ⟨rfl, ⟨htl.trapFree, htr.trapFree, id⟩, fun hgood => ?_⟩
  obtain ⟨hgl, hgr, hwl, hwr⟩ := hgood
  have hw : (Expr.concat l r).width ≠ 1 := by
    show l.width + r.width ≠ 1
    omega
  exact sorted_of_isVector hw ((htl.isVector hgl hposl hwl).concat (htr.isVector hgr hposr hwr))

theorem sortsTerm_extract {offset width : Nat} (ht : (Expr.extract e offset width).WellTyped) (hlt : width < e.width)
    (he : SortsTerm trap ce e) : SortsTerm trap (constructExtract offset width ce) (.extract e offset width) := by
  obtain ⟨-, hpos, -⟩ := ht
  refine (he.weaken fun hT => ⟨hT.1.1, hT.2.1⟩).bind ?_
  rintro ⟨t, w⟩ hterm
  dsimp only
  have hvector : e.ForallNodes Expr.VectorNode → t.IsVector e.width := fun hgood =>
    hterm.isVector hgood (by omega) (by omega)
  split
  · rename_i h1
    exact .pure ⟨rfl, ⟨hterm.trapFree, id⟩, fun hgood =>
      ⟨bvBoolExtract_sorted (hvector hgood.1) offset, .of_isBool h1 rfl⟩⟩
  · rename_i h1
    refine .pure ⟨rfl, ⟨hterm.trapFree, id⟩, fun hgood => sorted_of_isVector h1 ?_⟩
    have h := (hvector hgood.1).extract (offset + width - 1) offset
    rwa [show offset + width - 1 - offset + 1 = width by omega] at h

theorem sortsTerm_cast (hb : b.Sound) (hs : b.SortSound trap) {kind : CastKind} {width : Nat} (hpos : 0 < e.width)
    (hlt : e.width < width) (he : SortsTerm trap ce e) :
    SortsTerm trap (b.constructCast kind width ce) (.cast kind e width) := by
  have hw : width ≠ 1 := by omega
  refine (he.weaken fun hT => ⟨hT.1.1, hT.2.1⟩).bind ?_
  rintro ⟨t, w⟩ hterm
  obtain rfl : w = e.width := hterm.width
  have hfree : (Expr.cast kind e width).TrapFree trap := ⟨hterm.trapFree, id⟩
  cases kind with
  | zext =>
    dsimp only
    split
    · rename_i h1
      exact .pure ⟨rfl, hfree, fun hgood => sorted_of_isVector hw
        (.ite (hterm.sorted hgood.1).1 (hterm.isBool hgood.1 h1) (bvOne_isVector (by omega)) (bvZero_isVector (by omega)))⟩
    · rename_i h1
      have hext : b.zeroExtend t e.width width = some (.concat (bvZero (width - e.width)) t) := hb.zeroExtend hlt
      rw [hext]
      refine Yields.bind (.lift (Q := (· = .concat (bvZero (width - e.width)) t)) (fun a ha => (Option.some.inj ha).symm)
        fun _ => ⟨_, rfl⟩) ?_
      rintro _ rfl
      refine .pure ⟨rfl, hfree, fun hgood => sorted_of_isVector hw ?_⟩
      have h := (bvZero_isVector (by omega : 0 < width - e.width)).concat (hterm.isVector hgood.1 hpos h1)
      rwa [show width - e.width + e.width = width by omega] at h
  | sext =>
    dsimp only
    split
    · rename_i h1
      exact .pure ⟨rfl, hfree, fun hgood => sorted_of_isVector hw
        (.ite (hterm.sorted hgood.1).1 (hterm.isBool hgood.1 h1) (hs.minusOne width (by omega))
          (bvZero_isVector (by omega)))⟩
    · rename_i h1
      have hext : e.ForallNodes Expr.VectorNode → b.bvSignExtend t width = some (.signExtend t width) := fun hgood =>
        hb.signExtend (by rw [(hterm.isVector hgood hpos h1).bvLength]; omega)
      refine Yields.bind (.lift (Q := fun u => e.ForallNodes Expr.VectorNode → u = .signExtend t width)
        (fun a ha hgood => ?_) fun hT => ⟨_, hext hT.1.1⟩) ?_
      · rw [hext hgood] at ha
        exact (Option.some.inj ha).symm
      · intro u hu
        refine .pure ⟨rfl, hfree, fun hgood => sorted_of_isVector hw ?_⟩
        rw [hu hgood.1]
        exact .signExtend (by omega) (hterm.isVector hgood.1 hpos h1)

theorem sortsTerm_not (hpos : 0 < e.width) (he : SortsTerm trap ce e) : SortsTerm trap (constructNot ce) (.not e) := by
  refine (he.weaken fun hT => ⟨hT.1.1, hT.2.1⟩).bind ?_
  rintro ⟨t, w⟩ hterm
  obtain rfl : w = e.width := hterm.width
  dsimp only
  split
  · rename_i h1
    exact .pure ⟨rfl, ⟨hterm.trapFree, id⟩, fun hgood =>
      ⟨⟨(hterm.sorted hgood.1).1, hterm.isBool hgood.1 h1⟩, .of_isBool h1 rfl⟩⟩
  · rename_i h1
    exact .pure ⟨rfl, ⟨hterm.trapFree, id⟩, fun hgood =>
      sorted_of_isVector h1 (.bvNot (hterm.isVector hgood.1 hpos h1))⟩

theorem lift_op (hb : b.Sound) {tl tr : SolverTerm} {w : Nat} {T : Prop} (hl : T → tl.IsVector w) (hr : T → tr.IsVector w) :
    Yields (BuilderState.SortInv trap) T (lift (b.op o w tl tr)) fun t => T → t.IsVector w := by
  have hop : T → b.op o w tl tr = some (.op o tl tr) := fun hT => hb.op (hl hT).bvLength (hr hT).bvLength
  refine .lift (fun t ht hT => ?_) fun hT => ⟨_, hop hT⟩
  rw [hop hT] at ht
  obtain rfl := Option.some.inj ht
  exact .op o (hl hT) (hr hT)

theorem termSorted_binary {t : SolverTerm} (hl : l.TrapFree trap) (hr : r.TrapFree trap)
    (htrap : ∀ c, r.asConstant = some c → ¬ trap kind c) (hw : l.width ≠ 1)
    (ht : (Expr.binary kind l r).ForallNodes Expr.VectorNode ∧ (Expr.binary kind l r).TrapFree trap → t.IsVector l.width) :
    TermSorted trap (.binary kind l r) (t, l.width) := by
  have hfree : (Expr.binary kind l r).TrapFree trap := ⟨hl, hr, fun ⟨c, hc, hc'⟩ => htrap c hc hc'⟩
  exact ⟨rfl, hfree, fun hgood => sorted_of_isVector hw (ht ⟨hgood, hfree⟩)⟩

theorem sortsTerm_arith (hb : b.Sound) (ht : (Expr.binary kind l r).WellTyped) (hpos : 0 < l.width) (hw : l.width ≠ 1)
    (htrap : ∀ c, ¬ trap kind c) (hl : SortsTerm trap cl l) (hr : SortsTerm trap cr r) :
    SortsTerm trap (b.constructArith o cl cr) (.binary kind l r) := by
  have hwidth : l.width = r.width := ht.2.2
  refine (hl.weaken fun hT => ⟨hT.1.1, hT.2.1⟩).bind ?_
  rintro ⟨tl, wl⟩ htl
  refine (hr.weaken fun hT => ⟨hT.1.2.1, hT.2.2.1⟩).bind ?_
  rintro ⟨tr, wr⟩ htr
  obtain rfl : wr = r.width := htr.width
  dsimp only
  rw [if_neg (hwidth ▸ hw), ← hwidth]
  refine (lift_op hb (fun hT => htl.isVector hT.1.1 hpos hw)
    fun hT => hwidth ▸ htr.isVector hT.1.2.1 (hwidth ▸ hpos) (hwidth ▸ hw)).bind fun t hvector => ?_
  exact .pure (termSorted_binary htl.trapFree htr.trapFree (fun c _ => htrap c) hw hvector)

theorem sortsTerm_mul (hb : b.Sound) (hs : b.SortSound trap) (ht : (Expr.binary .mul l r).WellTyped) (hpos : 0 < l.width)
    (hw : l.width ≠ 1) (hl : SortsTerm trap cl l) (hr : SortsTerm trap cr r) :
    SortsTerm trap (b.constructMul l cl cr) (.binary .mul l r) := by
  have hwidth : l.width = r.width := ht.2.2
  have htrap : ∀ c, r.asConstant = some c → ¬ trap .mul c := fun c _ hc => by
    rcases hs.division _ c hc with h | h | h <;> cases h
  refine (hr.weaken fun hT => ⟨hT.1.2.1, hT.2.2.1⟩).bind ?_
  rintro ⟨tr, wr⟩ htr
  obtain rfl : wr = r.width := htr.width
  have hvr : r.ForallNodes Expr.VectorNode → tr.IsVector l.width := fun hgood =>
    hwidth ▸ htr.isVector hgood (hwidth ▸ hpos) (hwidth ▸ hw)
  dsimp only
  rw [if_neg (hwidth ▸ hw), ← hwidth]
  cases hspecial : l.asConstant.bind fun c => b.mulConstant c l.width tr with
  | some t? =>
    obtain ⟨c, hc, hcase⟩ := Option.bind_eq_some_iff.mp hspecial
    obtain rfl := Expr.asConstant_eq_some hc
    have hfree : (Expr.constant c).TrapFree trap := id
    have hcpos : 0 < c.width := hpos
    have hcw : c.width ≠ 1 := hw
    refine Yields.bind (.lift (Q := fun t => (Expr.binary .mul (.constant c) r).ForallNodes Expr.VectorNode ∧
        (Expr.binary .mul (.constant c) r).TrapFree trap → t.IsVector c.width) (fun t ht hT => ?_) fun hT => ?_)
      fun t hvector => .pure (termSorted_binary hfree htr.trapFree htrap hw hvector)
    · rw [ht] at hcase
      exact hs.mul (by omega) rfl (hvr hT.1.2.1) hcase
    · obtain ⟨t, rfl, -⟩ := hb.mul (by omega) (rfl : c.width = c.width) trivial (hvr hT.1.2.1).bvLength hcase
      exact ⟨t, rfl⟩
  | none =>
    refine (hl.weaken fun hT => ⟨hT.1.1, hT.2.1⟩).bind ?_
    rintro ⟨tl, wl⟩ htl
    obtain rfl : wl = l.width := htl.width
    refine (lift_op hb (fun hT => htl.isVector hT.1.1 hpos hw) fun hT => hvr hT.1.2.1).bind fun t hvector => ?_
    exact .pure (termSorted_binary htl.trapFree htr.trapFree htrap hw hvector)

theorem sortsTerm_division (hb : b.Sound) {special : APInt → Nat → SolverTerm → Option (Option SolverTerm)}
    {value : APInt → APInt → APInt} (hspecial : IsSpecialCase special (fun c => c.toNat ≠ 0) value)
    (hsorts : SortsSpecialCase special) (htraps : TrapsAtZero (trap kind) special) (ht : (Expr.binary kind l r).WellTyped)
    (hpos : 0 < l.width) (hw : l.width ≠ 1) (hl : SortsTerm trap cl l) (hr : SortsTerm trap cr r) :
    SortsTerm trap (b.constructDivision o special r cl cr) (.binary kind l r) := by
  have hwidth : l.width = r.width := ht.2.2
  refine (hl.weaken fun hT => ⟨hT.1.1, hT.2.1⟩).bind ?_
  rintro ⟨tl, wl⟩ htl
  obtain rfl : wl = l.width := htl.width
  dsimp only
  rw [if_neg hw]
  cases hcases : r.asConstant.bind fun c => special c l.width tl with
  | some t? =>
    obtain ⟨c, hc, hcase⟩ := Option.bind_eq_some_iff.mp hcases
    obtain rfl := Expr.asConstant_eq_some hc
    have hcw : c.width = l.width := hwidth.symm
    have hfree : (Expr.constant c).TrapFree trap := id
    -- a divisor of zero is special only if it traps
    have hne : ¬ trap kind c → c.toNat ≠ 0 := fun hnot hzero => by
      rw [(htraps c _ tl hcw).2 hnot hzero] at hcase
      cases hcase
    have hnot : ∀ t, t? = some t → ¬ trap kind c := fun t ht hc => by
      rw [(htraps c _ tl hcw).1 hc, ht] at hcase
      cases hcase
    refine Yields.bind (.lift (Q := fun t => ¬ trap kind c ∧ ((Expr.binary kind l (.constant c)).ForallNodes
        Expr.VectorNode ∧ (Expr.binary kind l (.constant c)).TrapFree trap → t.IsVector l.width)) (fun t ht => ?_)
        fun hT => ?_) fun t hvector => .pure (termSorted_binary htl.trapFree hfree (fun d hd => ?_) hw hvector.2)
    · refine ⟨hnot t ht, fun hT => ?_⟩
      rw [ht] at hcase
      exact hsorts (by omega) hcw (htl.isVector hT.1.1 hpos hw) hcase
    · have htrap : ¬ trap kind c := fun hc => hT.2.2.2 ⟨c, rfl, hc⟩
      obtain ⟨t, rfl, -⟩ := hspecial (by omega) hcw (hne htrap) (htl.isVector hT.1.1 hpos hw).bvLength hcase
      exact ⟨t, rfl⟩
    · obtain rfl := Option.some.inj hd
      exact hvector.1
  | none =>
    have htrap : ∀ c, r.asConstant = some c → ¬ trap kind c := fun c hc hcrash => by
      have hcw : c.width = l.width := by
        rw [hwidth, Expr.asConstant_eq_some hc]
        rfl
      rw [hc, Option.bind_some, (htraps c _ tl hcw).1 hcrash] at hcases
      cases hcases
    refine (hr.weaken fun hT => ⟨hT.1.2.1, hT.2.2.1⟩).bind ?_
    rintro ⟨tr, wr⟩ htr
    obtain rfl : wr = r.width := htr.width
    dsimp only
    rw [← hwidth]
    refine (lift_op hb (fun hT => htl.isVector hT.1.1 hpos hw)
      fun hT => hwidth ▸ htr.isVector hT.1.2.1 (hwidth ▸ hpos) (hwidth ▸ hw)).bind fun t hvector => ?_
    exact .pure (termSorted_binary htl.trapFree htr.trapFree htrap hw hvector)

theorem sortsTerm_bitwise {bool : SolverTerm → SolverTerm → SolverTerm}
    (hsort : ∀ {tl tr : SolverTerm}, tl.Sorted → tr.Sorted → tl.isBool = true → tr.isBool = true →
      (bool tl tr).Sorted ∧ (bool tl tr).isBool = true)
    (htrap : ∀ c, ¬ trap kind c) (ht : (Expr.binary kind l r).WellTyped) (hpos : 0 < l.width) (hl : SortsTerm trap cl l)
    (hr : SortsTerm trap cr r) : SortsTerm trap (constructBitwise bool o cl cr) (.binary kind l r) := by
  have hwidth : l.width = r.width := ht.2.2
  refine (hl.weaken fun hT => ⟨hT.1.1, hT.2.1⟩).bind ?_
  rintro ⟨tl, wl⟩ htl
  refine (hr.weaken fun hT => ⟨hT.1.2.1, hT.2.2.1⟩).bind ?_
  rintro ⟨tr, wr⟩ htr
  obtain rfl : wr = r.width := htr.width
  dsimp only
  rw [← hwidth]
  split
  · rename_i h1
    refine .pure ⟨rfl, ⟨htl.trapFree, htr.trapFree, fun ⟨c, _, hc⟩ => htrap c hc⟩, fun hgood => ?_⟩
    obtain ⟨hsorted, hbool⟩ := hsort (htl.sorted hgood.1).1 (htr.sorted hgood.2.1).1 (htl.isBool hgood.1 h1)
      (htr.isBool hgood.2.1 (hwidth ▸ h1))
    exact ⟨hsorted, .of_isBool h1 hbool⟩
  · rename_i h1
    exact .pure (termSorted_binary htl.trapFree htr.trapFree (fun c _ => htrap c) h1 fun hT =>
      .op o (htl.isVector hT.1.1 hpos h1) (htr.isVector hT.1.2.1 (hwidth ▸ hpos) (hwidth ▸ h1)))

theorem sortsTerm_shift {byConstant : Nat → SolverTerm → Nat → SolverTerm} {byTerm : SolverTerm → SolverTerm → Option SolverTerm}
    {value : APInt → Nat → APInt}
    (hconst : ∀ {w : Nat} {t : SolverTerm} (n : Nat), t.IsVector w → (byConstant w t n).IsVector w)
    (hterm : IsVarShift byTerm value) (hsorts : SortsVarShift byTerm) (htrap : ∀ c, ¬ trap kind c)
    (ht : (Expr.binary kind l r).WellTyped) (hpos : 0 < l.width) (hw : l.width ≠ 1) (hl : SortsTerm trap cl l)
    (hr : SortsTerm trap cr r) : SortsTerm trap (constructShift byConstant byTerm r cl cr) (.binary kind l r) := by
  have hwidth : l.width = r.width := ht.2.2
  refine (hl.weaken fun hT => ⟨hT.1.1, hT.2.1⟩).bind ?_
  rintro ⟨tl, wl⟩ htl
  obtain rfl : wl = l.width := htl.width
  dsimp only
  rw [if_neg hw]
  cases hc : r.asConstant with
  | some c =>
    obtain rfl := Expr.asConstant_eq_some hc
    have hfree : (Expr.constant c).TrapFree trap := id
    exact .pure (termSorted_binary htl.trapFree hfree (fun d _ => htrap d) hw fun hT =>
      hconst _ (htl.isVector hT.1.1 hpos hw))
  | none =>
    refine (hr.weaken fun hT => ⟨hT.1.2.1, hT.2.2.1⟩).bind ?_
    rintro ⟨tr, wr⟩ htr
    have hvr : r.ForallNodes Expr.VectorNode → tr.IsVector l.width := fun hgood =>
      hwidth ▸ htr.isVector hgood (hwidth ▸ hpos) (hwidth ▸ hw)
    dsimp only
    refine Yields.bind (.lift (Q := fun t => (Expr.binary kind l r).ForallNodes Expr.VectorNode ∧
        (Expr.binary kind l r).TrapFree trap → t.IsVector l.width) (fun t ht hT => ?_) fun hT => ?_)
      fun t hvector => .pure (termSorted_binary htl.trapFree htr.trapFree (fun c _ => htrap c) hw hvector)
    · exact hsorts (by omega) (htl.isVector hT.1.1 hpos hw) (hvr hT.1.2.1) ht
    · obtain ⟨t, hrun, -⟩ := hterm (by omega) (htl.isVector hT.1.1 hpos hw).bvLength (hvr hT.1.2.1).bvLength
      exact ⟨t, hrun⟩

theorem sortsTerm_binary (hb : b.Sound) (hs : b.SortSound trap) (ht : (Expr.binary kind l r).WellTyped)
    (hpos : 0 < l.width) (hbool : l.width = 1 → kind.isBitwise = true) (hl : SortsTerm trap cl l)
    (hr : SortsTerm trap cr r) : SortsTerm trap (b.constructBinary kind l r cl cr) (.binary kind l r) := by
  have hw : kind.isBitwise = false → l.width ≠ 1 := fun hk h1 => by
    rw [hbool h1] at hk
    cases hk
  have htrap : kind ≠ .udiv → kind ≠ .sdiv → kind ≠ .urem → ∀ c, ¬ trap kind c := fun h₁ h₂ h₃ c hc => by
    rcases hs.division kind c hc with h | h | h
    · exact h₁ h
    · exact h₂ h
    · exact h₃ h
  cases kind with
  | add => exact sortsTerm_arith hb ht hpos (hw rfl) (htrap nofun nofun nofun) hl hr
  | sub => exact sortsTerm_arith hb ht hpos (hw rfl) (htrap nofun nofun nofun) hl hr
  | mul => exact sortsTerm_mul hb hs ht hpos (hw rfl) hl hr
  | udiv => exact sortsTerm_division hb hb.udiv hs.udiv hs.udivTraps ht hpos (hw rfl) hl hr
  | sdiv => exact sortsTerm_division hb hb.sdiv hs.sdiv hs.sdivTraps ht hpos (hw rfl) hl hr
  | urem => exact sortsTerm_division hb hb.urem hs.urem hs.uremTraps ht hpos (hw rfl) hl hr
  | srem => exact sortsTerm_arith hb ht hpos (hw rfl) (htrap nofun nofun nofun) hl hr
  | and =>
    exact sortsTerm_bitwise (fun h h' hb hb' => ⟨⟨h, h', hb, hb'⟩, rfl⟩) (htrap nofun nofun nofun) ht hpos hl hr
  | or =>
    exact sortsTerm_bitwise (fun h h' hb hb' => ⟨⟨h, h', hb, hb'⟩, rfl⟩) (htrap nofun nofun nofun) ht hpos hl hr
  | xor =>
    show SortsTerm trap (constructBitwise (fun l r => .ite l (.not r) r) .xor cl cr) _
    refine sortsTerm_bitwise (fun h h' hb hb' => ?_) (htrap nofun nofun nofun) ht hpos hl hr
    exact ⟨⟨h, ⟨h', hb'⟩, h', hb, hb'.symm⟩, rfl⟩
  | shl =>
    exact sortsTerm_shift (fun n h => bvLeftShift_isVector h n) hb.varLeftShift hs.varLeftShift
      (htrap nofun nofun nofun) ht hpos (hw rfl) hl hr
  | lshr =>
    exact sortsTerm_shift (fun n h => bvRightShift_isVector h n) hb.varRightShift hs.varRightShift
      (htrap nofun nofun nofun) ht hpos (hw rfl) hl hr
  | ashr =>
    exact sortsTerm_shift (fun n h => constructAShrByConstant_isVector hs.minusOne h (bvBoolExtract_sorted h _) rfl n)
      hb.varArithRightShift hs.varArithRightShift (htrap nofun nofun nofun) ht hpos (hw rfl) hl hr

theorem sortsTerm_order {kind : CmpKind} {rel : BvRel} (ht : (Expr.cmp kind l r).WellTyped) (hpos : 0 < l.width)
    (hw : l.width ≠ 1) (hl : SortsTerm trap cl l) (hr : SortsTerm trap cr r) :
    SortsTerm trap (constructOrder rel cl cr) (.cmp kind l r) := by
  have hwidth : l.width = r.width := ht.2.2
  refine (hl.weaken fun hT => ⟨hT.1.1, hT.2.1⟩).bind ?_
  rintro ⟨tl, wl⟩ htl
  refine (hr.weaken fun hT => ⟨hT.1.2.1, hT.2.2.1⟩).bind ?_
  rintro ⟨tr, wr⟩ htr
  obtain rfl : wr = r.width := htr.width
  dsimp only
  rw [if_neg (hwidth ▸ hw)]
  exact .pure ⟨rfl, ⟨htl.trapFree, htr.trapFree, id⟩, fun hgood =>
    ⟨.rel rel (htl.isVector hgood.1 hpos hw) (htr.isVector hgood.2.1 (hwidth ▸ hpos) (hwidth ▸ hw)), .of_isBool rfl rfl⟩⟩

theorem sortsTerm_eq (hb : b.Sound) (ht : (Expr.cmp .eq l r).WellTyped) (hpos : 0 < l.width) (hl : SortsTerm trap cl l)
    (hr : SortsTerm trap cr r) : SortsTerm trap (b.constructEq l cl cr) (.cmp .eq l r) := by
  have hwidth : l.width = r.width := ht.2.2
  refine (hl.weaken fun hT => ⟨hT.1.1, hT.2.1⟩).bind ?_
  rintro ⟨tl, wl⟩ htl
  refine (hr.weaken fun hT => ⟨hT.1.2.1, hT.2.2.1⟩).bind ?_
  rintro ⟨tr, wr⟩ htr
  obtain rfl : wr = r.width := htr.width
  have hfree : (Expr.cmp .eq l r).TrapFree trap := ⟨htl.trapFree, htr.trapFree, id⟩
  dsimp only
  split
  · rename_i h1
    have hl1 : l.width = 1 := hwidth.trans h1
    split
    · refine .pure ⟨h1, hfree, fun hgood => ?_⟩
      have hbool : tr.isBool = true := htr.isBool hgood.2.1 h1
      have hsorted : tr.Sorted := (htr.sorted hgood.2.1).1
      dsimp only
      split
      · exact ⟨hsorted, .of_isBool rfl hbool⟩
      · exact ⟨⟨hsorted, hbool⟩, .of_isBool rfl rfl⟩
    · have hiff : l.ForallNodes Expr.VectorNode → r.ForallNodes Expr.VectorNode → b.iffExpr tl tr = some (.iff tl tr) :=
        fun hgl hgr => hb.iff (htl.isBool hgl hl1) (htr.isBool hgr h1)
      refine Yields.bind (.lift (Q := fun t => l.ForallNodes Expr.VectorNode → r.ForallNodes Expr.VectorNode →
        t = .iff tl tr) (fun t ht hgl hgr => ?_) fun hT => ⟨_, hiff hT.1.1 hT.1.2.1⟩) fun t ht =>
        .pure ⟨h1, hfree, fun hgood => ?_⟩
      · rw [hiff hgl hgr] at ht
        exact (Option.some.inj ht).symm
      · dsimp only
        rw [ht hgood.1 hgood.2.1]
        exact ⟨⟨(htl.sorted hgood.1).1, (htr.sorted hgood.2.1).1, htl.isBool hgood.1 hl1, htr.isBool hgood.2.1 h1⟩,
          .of_isBool rfl rfl⟩
  · rename_i h1
    have hwl : l.width ≠ 1 := hwidth ▸ h1
    exact .pure ⟨rfl, hfree, fun hgood =>
      ⟨.eq (htl.isVector hgood.1 hpos hwl) (htr.isVector hgood.2.1 (hwidth ▸ hpos) h1), .of_isBool rfl rfl⟩⟩

theorem sortsTerm_cmp (hb : b.Sound) {kind : CmpKind} (ht : (Expr.cmp kind l r).WellTyped) (hpos : 0 < l.width)
    (halloc : kind.isAllocated = true) (hbool : l.width = 1 → kind = .eq) (hl : SortsTerm trap cl l)
    (hr : SortsTerm trap cr r) : SortsTerm trap (b.constructCmp kind l cl cr) (.cmp kind l r) := by
  have hw : kind ≠ .eq → l.width ≠ 1 := fun hk h1 => hk (hbool h1)
  cases kind with
  | eq => exact sortsTerm_eq hb ht hpos hl hr
  | ult => exact sortsTerm_order ht hpos (hw (by decide)) hl hr
  | ule => exact sortsTerm_order ht hpos (hw (by decide)) hl hr
  | slt => exact sortsTerm_order ht hpos (hw (by decide)) hl hr
  | sle => exact sortsTerm_order ht hpos (hw (by decide)) hl hr
  | ne | ugt | uge | sgt | sge => cases halloc

section Arrays

variable {name : ExprArray → String} {root : ExprArray} {index value : Expr} {next un : UpdateNode}
  {ca : BuilderM ArrayTerm} {ci cv : BuilderM Built}

theorem getInitialArray_sorts (hs : b.SortSound trap) : SortsArray trap (b.getInitialArray name root) root .nil := by
  intro s hinv
  unfold getInitialArray
  cases hlookup : s.arrays.lookup root with
  | some t =>
    have harray : ArraySorted trap root .nil t := hinv.arrays _ (mem_of_lookup hlookup)
    refine ⟨fun a s' hrun => ?_, fun _ => ⟨_, rfl⟩⟩
    obtain ⟨rfl, rfl⟩ := Prod.mk.inj (Option.some.inj hrun)
    exact ⟨hinv, harray⟩
  | none =>
    obtain ⟨array, assertions, hrun, hsorted⟩ := hs.initialArray root (name root ++ toString s.arrays.length) s
    have harray : ArraySorted trap root .nil array := ⟨trivial, fun hindexed _ => hsorted hindexed⟩
    dsimp only
    rw [hrun]
    refine ⟨fun a s' hrun' => ?_, fun _ => ⟨_, rfl⟩⟩
    obtain ⟨rfl, rfl⟩ := Prod.mk.inj (Option.some.inj hrun')
    refine ⟨⟨fun p hp => ?_, hinv.nodes, hinv.constructed⟩, harray⟩
    rcases List.mem_cons.mp hp with rfl | hp
    · exact harray
    · exact hinv.arrays p hp

theorem arraySorted_write (ht : (UpdateNode.cons index value next).WellTyped root) {array : ArrayTerm} {ti tv : Built}
    (ha : ArraySorted trap root next array) (hi : TermSorted trap index ti) (hv : TermSorted trap value tv) :
    ArraySorted trap root (.cons index value next) (.write array ti.1 tv.1) := by
  obtain ⟨-, -, -, hwi, hwv⟩ := ht
  obtain ⟨ti, wi⟩ := ti
  obtain ⟨tv, wv⟩ := tv
  refine ⟨⟨hi.trapFree, hv.trapFree, ha.trapFree⟩, fun hindexed hgood => ?_⟩
  obtain ⟨hgi, hgv, hgn⟩ := hgood
  obtain ⟨hdomain, hrange⟩ := hindexed
  obtain ⟨hsorted, hwidth⟩ := ha.sorted ⟨hdomain, hrange⟩ hgn
  exact ⟨.write hsorted (hi.isVector hgi (by omega) (by omega)) (hv.isVector hgv (by omega) (by omega)), hwidth⟩

theorem writeNode_sorts (ht : (UpdateNode.cons index value next).WellTyped root) (ha : SortsArray trap ca root next)
    (hi : SortsTerm trap ci index) (hv : SortsTerm trap cv value) :
    SortsArray trap (writeNode root (.cons index value next) ca ci cv) root (.cons index value next) := by
  intro s hinv
  unfold writeNode
  cases hlookup : s.nodes.lookup (root, UpdateNode.cons index value next) with
  | some t =>
    have harray := hinv.nodes ((root, .cons index value next), t) (mem_of_lookup hlookup)
    refine ⟨fun a s' hrun => ?_, fun _ => ⟨_, rfl⟩⟩
    obtain ⟨rfl, rfl⟩ := Prod.mk.inj (Option.some.inj hrun)
    exact ⟨hinv, harray⟩
  | none =>
    obtain ⟨hpost, hreturns⟩ := ha s hinv
    constructor
    · intro a s' hrun
      obtain ⟨⟨array, s₁⟩, hrun₁, hrun⟩ := Option.bind_eq_some_iff.mp hrun
      obtain ⟨⟨ti, s₂⟩, hrun₂, hrun⟩ := Option.bind_eq_some_iff.mp hrun
      obtain ⟨⟨tv, s₃⟩, hrun₃, hrun⟩ := Option.bind_eq_some_iff.mp hrun
      obtain ⟨hinv₁, harray⟩ := hpost array s₁ hrun₁
      obtain ⟨hinv₂, htermi⟩ := (hi s₁ hinv₁).1 ti s₂ hrun₂
      obtain ⟨hinv₃, htermv⟩ := (hv s₂ hinv₂).1 tv s₃ hrun₃
      obtain ⟨rfl, rfl⟩ := Prod.mk.inj (Option.some.inj hrun)
      have hwrite := arraySorted_write ht harray htermi htermv
      refine ⟨⟨hinv₃.arrays, fun p hp => ?_, hinv₃.constructed⟩, hwrite⟩
      rcases List.mem_cons.mp hp with rfl | hp
      · exact hwrite
      · exact hinv₃.nodes p hp
    · rintro ⟨⟨hgi, hgv, hgn⟩, hti, htv, htn⟩
      obtain ⟨⟨array, s₁⟩, hrun₁⟩ := hreturns ⟨hgn, htn⟩
      have hinv₁ := (hpost array s₁ hrun₁).1
      obtain ⟨⟨ti, s₂⟩, hrun₂⟩ := (hi s₁ hinv₁).2 ⟨hgi, hti⟩
      have hinv₂ := ((hi s₁ hinv₁).1 ti s₂ hrun₂).1
      obtain ⟨⟨tv, s₃⟩, hrun₃⟩ := (hv s₂ hinv₂).2 ⟨hgv, htv⟩
      simp only [hrun₁, hrun₂, hrun₃, bind, Option.bind_some]
      exact ⟨_, rfl⟩

theorem constructRead_sorts (ht : (Expr.read root un index).WellTyped) (ha : SortsArray trap ca root un)
    (hi : SortsTerm trap ci index) : SortsTerm trap (constructRead root ca ci) (.read root un index) := by
  obtain ⟨-, -, -, hwi⟩ := ht
  refine Yields.bind (Yields.weaken ha fun hT => ⟨hT.1.1, hT.2.1⟩) fun array harray => ?_
  refine (hi.weaken fun hT => ⟨hT.1.2.1, hT.2.2.1⟩).bind ?_
  rintro ⟨ti, wi⟩ htermi
  refine .pure ⟨rfl, ⟨harray.trapFree, htermi.trapFree, id⟩, fun hgood => ?_⟩
  obtain ⟨hgu, hgi, hdomain, hrange⟩ := hgood
  obtain ⟨hsorted, hwidth⟩ := harray.sorted ⟨hdomain, hrange⟩ hgu
  have hindex : ti.IsVector index.width := htermi.isVector hgi (by omega) (by omega)
  exact sorted_of_isVector (Nat.ne_of_gt hrange) (.read hsorted hwidth (Nat.lt_of_succ_lt hrange) hindex)

end Arrays

section Construct

variable {name : ExprArray → String}

mutual

theorem construct_sorts (hb : b.Sound) (hs : b.SortSound trap) : ∀ (e : Expr), e.WellTyped → e.Canonical → e.HasBits →
    SortsTerm trap (b.construct name e) e
  | .constant c, _, _, hbits => by
    unfold construct
    exact sortsTerm_constant hbits
  | .notOptimized src, ht, hc, hbits => by
    unfold construct
    exact sortsTerm_hashed b (sortsTerm_notOptimized (construct_sorts hb hs src ht hc hbits.1))
  | .read root head index, ht, hc, hbits => by
    obtain ⟨-, hth, hti, -⟩ := id ht
    unfold construct
    exact sortsTerm_hashed b (constructRead_sorts ht (getArrayForUpdate_sorts hb hs root head hth hc.1 hbits.1)
      (construct_sorts hb hs index hti hc.2.1 hbits.2.1))
  | .select cond t f, ht, hc, hbits => by
    obtain ⟨htc, htt, htf, -⟩ := id ht
    unfold construct
    exact sortsTerm_hashed b (sortsTerm_select ht (construct_sorts hb hs cond htc hc.1 hbits.1)
      (construct_sorts hb hs t htt hc.2.1 hbits.2.1) (construct_sorts hb hs f htf hc.2.2.1 hbits.2.2.1)
      (Expr.HasBits.width_pos t hbits.2.1 htt))
  | .concat l r, ht, hc, hbits => by
    unfold construct
    exact sortsTerm_hashed b (sortsTerm_concat (Expr.HasBits.width_pos l hbits.1 ht.1)
      (Expr.HasBits.width_pos r hbits.2.1 ht.2) (construct_sorts hb hs l ht.1 hc.1 hbits.1)
      (construct_sorts hb hs r ht.2 hc.2.1 hbits.2.1))
  | .extract e offset width, ht, hc, hbits => by
    unfold construct
    exact sortsTerm_hashed b (sortsTerm_extract ht hc.2.2 (construct_sorts hb hs e ht.1 hc.1 hbits.1))
  | .cast kind src width, ht, hc, hbits => by
    unfold construct
    exact sortsTerm_hashed b (sortsTerm_cast hb hs (Expr.HasBits.width_pos src hbits.1 ht.1) hc.2.2
      (construct_sorts hb hs src ht.1 hc.1 hbits.1))
  | .not e, ht, hc, hbits => by
    unfold construct
    exact sortsTerm_hashed b (sortsTerm_not (Expr.HasBits.width_pos e hbits.1 ht)
      (construct_sorts hb hs e ht hc.1 hbits.1))
  | .binary kind l r, ht, hc, hbits => by
    obtain ⟨hcl, hcr, -, hbool⟩ := hc
    unfold construct
    exact sortsTerm_hashed b (sortsTerm_binary hb hs ht (Expr.HasBits.width_pos l hbits.1 ht.1)
      (fun h1 => (hbool h1).1) (construct_sorts hb hs l ht.1 hcl hbits.1) (construct_sorts hb hs r ht.2.1 hcr hbits.2.1))
  | .cmp kind l r, ht, hc, hbits => by
    obtain ⟨hcl, hcr, -, halloc, hbool⟩ := hc
    unfold construct
    exact sortsTerm_hashed b (sortsTerm_cmp hb ht (Expr.HasBits.width_pos l hbits.1 ht.1) halloc hbool
      (construct_sorts hb hs l ht.1 hcl hbits.1) (construct_sorts hb hs r ht.2.1 hcr hbits.2.1))

theorem getArrayForUpdate_sorts (hb : b.Sound) (hs : b.SortSound trap) (root : ExprArray) : ∀ (un : UpdateNode),
    un.WellTyped root → un.Canonical → un.ForallNodes Expr.HasBitsNode →
      SortsArray trap (b.getArrayForUpdate name root un) root un
  | .nil, _, _, _ => by
    unfold getArrayForUpdate
    exact getInitialArray_sorts hs
  | .cons index value next, ht, hc, hbits => by
    obtain ⟨hti, htv, htn, -⟩ := id ht
    unfold getArrayForUpdate
    exact writeNode_sorts ht (getArrayForUpdate_sorts hb hs root next htn hc.2.2 hbits.2.2)
      (construct_sorts hb hs index hti hc.1 hbits.1) (construct_sorts hb hs value htv hc.2.1 hbits.2.1)

end

end Construct

end Backend

end CgsKlee
