import CgsKlee.Solver.ConstantDivision
import CgsKlee.Solver.SolverValue

/-!
# The terms mean the expressions

A sound backend builds a term of the right value for every expression of the smart constructors, whatever it built
before: one lemma for each case of `constructActual`, and `Backend.construct_spec` by induction on the expression.
-/

namespace CgsKlee

open Smt

namespace Backend

theorem mem_of_lookup {α β : Type} [BEq α] [LawfulBEq α] {l : List (α × β)} {k : α} {v : β} (h : l.lookup k = some v) :
    (k, v) ∈ l := by
  obtain ⟨l₁, l₂, hsplit, -⟩ := List.lookup_eq_some_iff.mp h
  rw [hsplit]
  simp

theorem run_bind {α β : Type} {x : BuilderM α} {f : α → BuilderM β} {s s' : BuilderState} {a : α}
    (h : x s = some (a, s')) : (x >>= f) s = f a s' := by
  show (x s >>= fun p => f p.1 p.2) = f a s'
  rw [h]
  rfl

theorem run_lift {α β : Type} {x : Option α} {f : α → BuilderM β} {s : BuilderState} {a : α} (h : x = some a) :
    (lift x >>= f) s = f a s := run_bind (by rw [h]; rfl)

section Cases

variable {name : ExprArray → String} {s : BuilderState} {e l r : Expr} {ce cl cr : BuilderM Built}

theorem buildsTerm_two (hl : BuildsTerm name cl l) (hr : BuildsTerm name cr r) (hs : s.Inv) :
    ∃ tl s₁ tr s₂, cl s = some ((tl, l.width), s₁) ∧ cr s₁ = some ((tr, r.width), s₂) ∧ s₂.Inv ∧
      s.Grows name (l.roots ++ r.roots) s₂ ∧ TermFor s₂ tl l ∧ TermFor s₂ tr r := by
  obtain ⟨tl, s₁, hrun₁, hinv₁, hgrows₁, hterm₁⟩ := hl s hs
  obtain ⟨tr, s₂, hrun₂, hinv₂, hgrows₂, hterm₂⟩ := hr s₁ hinv₁
  exact ⟨tl, s₁, tr, s₂, hrun₁, hrun₂, hinv₂, hgrows₁.trans hgrows₂, hterm₁.mono hgrows₂, hterm₂⟩

theorem buildsTerm_constant {c : APInt} (hc : 0 < c.width) :
    BuildsTerm name (pure (constructConstant c, c.width)) (.constant c) := by
  intro s hs
  have hcovers : s.Covers (Expr.constant c).roots := nofun
  refine ⟨constructConstant c, s, rfl, hs, .refl hcovers, ?_, hcovers, fun _ => constructConstant_denote hc⟩
  have hd : (constructConstant c).denote (fun _ _ => 0) = some (sortValue c) := constructConstant_denote hc
  by_cases hw : c.width = 1
  · refine .of_isBool hw ?_
    unfold constructConstant
    rw [if_pos hw]
    rfl
  · rw [sortValue_of_ne hw] at hd
    exact .of_bvLength hw (SolverTerm.bvLength_eq _ hd)

theorem buildsTerm_notOptimized (h : BuildsTerm name ce e) : BuildsTerm name ce (.notOptimized e) := by
  intro s hs
  obtain ⟨t, s', hrun, hinv, hgrows, hterm⟩ := h s hs
  exact ⟨t, s', hrun, hinv, hgrows, hterm.sort, hterm.covers, hterm.denote⟩

theorem buildsTerm_hashed (b : Backend) (h : BuildsTerm name ce e) : BuildsTerm name (b.hashed e ce) e := by
  intro s hs
  unfold hashed
  by_cases hhash : b.useConstructHash = true
  · rw [if_pos hhash]
    cases hlookup : s.constructed.lookup e with
    | some res =>
      have hmem : (e, res) ∈ s.constructed := mem_of_lookup hlookup
      obtain ⟨hw, hterm⟩ := hs.constructed _ hmem
      obtain ⟨t, w⟩ := res
      obtain rfl : w = e.width := hw
      exact ⟨t, s, rfl, hs, .refl hterm.covers, hterm⟩
    | none =>
      obtain ⟨t, s', hrun, hinv, hgrows, hterm⟩ := h s hs
      have hgrows' : s'.Grows name [] { s' with constructed := (e, t, e.width) :: s'.constructed } :=
        .of_eq rfl rfl nofun
      have hgrows'' := hgrows.trans hgrows'
      rw [List.append_nil] at hgrows''
      refine ⟨t, { s' with constructed := (e, t, e.width) :: s'.constructed }, ?_, ?_, hgrows'', hterm.mono hgrows'⟩
      · simp only [hrun, bind, Option.bind_some]
      · refine ⟨fun p hp => (hinv.arrays p hp).mono hgrows', fun p hp => (hinv.nodes p hp).mono hgrows', fun p hp => ?_,
          hinv.assertions⟩
        rcases List.mem_cons.mp hp with rfl | hp
        · exact ⟨rfl, hterm.mono hgrows'⟩
        · exact ⟨(hinv.constructed p hp).1, (hinv.constructed p hp).2.mono hgrows'⟩
  · rw [if_neg hhash]
    exact h s hs

theorem buildsTerm_select {c t f : Expr} {cc ct cf : BuilderM Built} (ht : (Expr.select c t f).WellTyped)
    (hc : BuildsTerm name cc c) (htrue : BuildsTerm name ct t) (hfalse : BuildsTerm name cf f) :
    BuildsTerm name (constructSelect cc ct cf) (.select c t f) := by
  obtain ⟨htc, htt, htf, hwc, hw⟩ := ht
  intro s hs
  obtain ⟨tc, s₁, hrun₁, hinv₁, hgrows₁, hterm₁⟩ := hc s hs
  obtain ⟨tt, s₂, tf, s₃, hrun₂, hrun₃, hinv, hgrows₂, htermt, htermf⟩ := buildsTerm_two htrue hfalse hinv₁
  have htermc : TermFor s₃ tc c := hterm₁.mono hgrows₂
  refine ⟨.ite tc tt tf, s₃, ?_, hinv, hgrows₁.trans hgrows₂, ?_⟩
  · rw [constructSelect, run_bind hrun₁]
    dsimp only
    rw [run_bind hrun₂]
    dsimp only
    rw [run_bind hrun₃, ← hw]
    rfl
  · have hwt : (Expr.select c t f).WellTyped := ⟨htc, htt, htf, hwc, hw⟩
    have hc : c.roots ⊆ (Expr.select c t f).roots := List.subset_append_left _ _
    have htr : t.roots ⊆ (Expr.select c t f).roots := fun a ha =>
      List.mem_append_right _ (List.mem_append_left _ ha)
    have hfr : f.roots ⊆ (Expr.select c t f).roots := fun a ha =>
      List.mem_append_right _ (List.mem_append_right _ ha)
    have hcovers : s₃.Covers (Expr.select c t f).roots :=
      htermc.covers.append (htermt.covers.append htermf.covers)
    have hwidth : ∀ m, (t.solverValue m).width = (f.solverValue m).width := fun m =>
      (t.width_solverValue m htt).trans (hw.trans (f.width_solverValue m htf).symm)
    by_cases h1 : t.width = 1
    · refine .of_holds h1 hwt (htermt.sort.isBool h1) hcovers fun hr => ?_
      have hite := Holds.ite (htermc.holds htc hwc hr hc) (htermt.holds htt h1 hr htr)
        (htermf.holds htf (hw ▸ h1) hr hfr)
      unfold Expr.solverValue
      split
      · rename_i hcond
        rwa [decide_eq_true hcond, cond_true] at hite
      · rename_i hcond
        rwa [decide_eq_false hcond, cond_false] at hite
    · refine .of_denotes h1 hwt (htermt.sort.bvLength h1) hcovers fun hr => ?_
      have hite := Denotes.ite (htermc.holds htc hwc hr hc) (htermt.denotes htt h1 hr htr)
        (htermf.denotes htf (hw ▸ h1) hr hfr) (hwidth _)
      unfold Expr.solverValue
      split
      · rename_i hcond
        rwa [decide_eq_true hcond, cond_true] at hite
      · rename_i hcond
        rwa [decide_eq_false hcond, cond_false] at hite

theorem buildsTerm_concat (ht : (Expr.concat l r).WellTyped) (hwl : l.width ≠ 1) (hwr : r.width ≠ 1)
    (hw : (Expr.concat l r).width ≠ 1) (hl : BuildsTerm name cl l) (hr : BuildsTerm name cr r) :
    BuildsTerm name (constructConcat (Expr.concat l r).width cl cr) (.concat l r) := by
  intro s hs
  obtain ⟨tr, s₁, tl, s₂, hrun₁, hrun₂, hinv, hgrows, htermr, hterml⟩ := buildsTerm_two hr hl hs
  refine ⟨.concat tl tr, s₂, ?_, hinv, hgrows, ?_⟩
  · rw [constructConcat, run_bind hrun₁]
    dsimp only
    rw [run_bind hrun₂]
    rfl
  · refine .of_denotes hw ht ?_ (htermr.covers.append hterml.covers) fun hr => ?_
    · exact congrArg₂ (· + ·) (hterml.sort.bvLength hwl) (htermr.sort.bvLength hwr)
    · exact (hterml.denotes ht.1 hwl hr (List.subset_append_right _ _)).concat
        (htermr.denotes ht.2 hwr hr (List.subset_append_left _ _))

theorem eq_ofBool_of_width {a : APInt} (hw : a.width = 1) : a = .ofBool (decide (a.toNat = 1)) := by
  obtain ⟨x, rfl⟩ := APInt.exists_value hw
  revert x
  decide

theorem buildsTerm_extract {offset width : Nat} (ht : (Expr.extract e offset width).WellTyped)
    (hlt : width < e.width) (he : BuildsTerm name ce e) :
    BuildsTerm name (constructExtract offset width ce) (.extract e offset width) := by
  obtain ⟨hte, hpos, hle⟩ := ht
  have ht : (Expr.extract e offset width).WellTyped := ⟨hte, hpos, hle⟩
  have hwe : e.width ≠ 1 := by omega
  intro s hs
  obtain ⟨t, s₁, hrun, hinv, hgrows, hterm⟩ := he s hs
  by_cases h1 : width = 1
  · subst h1
    refine ⟨bvBoolExtract t offset, s₁, ?_, hinv, hgrows, ?_⟩
    · rw [constructExtract, run_bind hrun]
      rfl
    · refine .of_holds rfl ht rfl hterm.covers fun {env m} hr => ?_
      have hext := (hterm.denotes hte hwe hr (List.Subset.refl _)).extract (le_refl offset) (by rw [e.width_solverValue m hte]; omega)
      rw [Nat.sub_self, Nat.zero_add] at hext
      have hone : Means env (bvOne 1) 1 1 := bvOne_means (by omega)
      have heq := Denotes.eq hext hone rfl
      have hbool : (((e.solverValue m).extract offset 1) == bits 1 1) =
          decide (((e.solverValue m).extract offset 1).toNat = 1) := by
        have hlt : ((e.solverValue m).extract offset 1).toNat < 2 ^ 1 := APInt.toNat_lt _
        refine Bool.eq_iff_iff.mpr ?_
        rw [beq_iff_eq, decide_eq_true_iff]
        have hiff : ((e.solverValue m).extract offset 1).toNat = (bits 1 1).toNat ↔ _ := APInt.toNat_eq_iff rfl
        exact hiff.symm
      rw [hbool] at heq
      exact heq
  · refine ⟨bvExtract t (offset + width - 1) offset, s₁, ?_, hinv, hgrows, ?_⟩
    · rw [constructExtract, run_bind hrun]
      dsimp only
      rw [if_neg h1]
      rfl
    · have hlen : offset + width - 1 - offset + 1 = width := by omega
      refine .of_denotes h1 ht hlen hterm.covers fun {env m} hr => ?_
      have hext := (hterm.denotes hte hwe hr (List.Subset.refl _)).extract (by omega : offset ≤ offset + width - 1)
        (by rw [e.width_solverValue m hte]; omega)
      rwa [hlen] at hext

theorem zextOrTrunc_eq_append {a : APInt} {w : Nat} (h : a.width ≤ w) :
    a.zextOrTrunc w = (bits (w - a.width) 0).append a := by
  refine APInt.ext_toNat (by simp only [APInt.width_append, APInt.width_zextOrTrunc, width_bits]; omega) ?_
  have hlt : a.toNat < 2 ^ w := a.toNat_lt.trans_le (Nat.pow_le_pow_right (by omega) h)
  show (a.value.setWidth w).toNat = (BitVec.ofInt (w - a.width) 0 ++ a.value).toNat
  rw [BitVec.toNat_setWidth, BitVec.toNat_append]
  simp only [BitVec.ofInt_ofNat, BitVec.toNat_ofNat, Nat.zero_mod, Nat.zero_shiftLeft, Nat.zero_or]
  exact Nat.mod_eq_of_lt hlt

def castOne : CastKind → Int
  | .zext => 1
  | .sext => -1

theorem cast_bool {kind : CastKind} {a : APInt} {w : Nat} (ha : a.width = 1) :
    kind.apply a w = bits w (if a.toNat = 1 then castOne kind else 0) := by
  rw [eq_ofBool_of_width ha]
  by_cases h1 : a.toNat = 1
  · rw [decide_eq_true h1, if_pos (by decide)]
    cases kind with
    | zext =>
      refine bits_eq_of_toNat rfl ?_
      show (((BitVec.ofBool true).setWidth w).toNat : Int) ≡ 1 [ZMOD 2 ^ w]
      rw [BitVec.toNat_setWidth]
      push_cast
      exact Int.mod_modEq _ _
    | sext =>
      refine bits_eq_of_toNat rfl ?_
      have hones : (BitVec.ofBool true).signExtend w = BitVec.allOnes w := by
        refine BitVec.eq_of_getLsbD_eq fun i hi => ?_
        simp [BitVec.getLsbD_signExtend, hi, BitVec.msb_eq_getLsbD_last]
      show (((BitVec.ofBool true).signExtend w).toNat : Int) ≡ -1 [ZMOD 2 ^ w]
      rw [hones, BitVec.toNat_allOnes]
      push_cast [Nat.one_le_two_pow]
      exact Int.modEq_iff_dvd.mpr ⟨-1, by ring⟩
  · rw [decide_eq_false h1, if_neg (by decide)]
    cases kind with
    | zext =>
      refine APInt.ext_toNat rfl ?_
      simp [CastKind.apply, APInt.zextOrTrunc, APInt.ofBool, APInt.toNat, bits]
    | sext =>
      refine APInt.ext_getLsbD rfl fun i hi => ?_
      simp [CastKind.apply, APInt.sextOrTrunc, APInt.ofBool, bits, BitVec.getLsbD_signExtend]

theorem buildsTerm_cast {b : Backend} (hb : b.Sound) {kind : CastKind} {width : Nat}
    (ht : (Expr.cast kind e width).WellTyped) (hpos : 0 < e.width) (hlt : e.width < width) (he : BuildsTerm name ce e) :
    BuildsTerm name (b.constructCast kind width ce) (.cast kind e width) := by
  have hw : width ≠ 1 := by omega
  intro s hs
  obtain ⟨t, s₁, hrun, hinv, hgrows, hterm⟩ := he s hs
  by_cases h1 : e.width = 1
  · -- a truth value chooses between two constants
    have hchoice : ∀ {ones : SolverTerm}, (∀ env, Means env ones width (castOne kind)) →
        TermFor s₁ (.ite t ones (bvZero width)) (.cast kind e width) := by
      intro ones hones
      refine .of_denotes hw ht (hones fun _ _ => 0).bvLength hterm.covers fun {env m} hr => ?_
      have hite := Means.ite (hterm.holds ht.1 h1 hr (List.Subset.refl _)) (hones env) (bvZero_means (by omega : 0 < width))
      show Denotes env _ (kind.apply (e.solverValue m) width)
      rw [cast_bool (by rw [e.width_solverValue m ht.1, h1])]
      split
      · rename_i hv
        rwa [decide_eq_true hv, cond_true] at hite
      · rename_i hv
        rwa [decide_eq_false hv, cond_false] at hite
    cases kind with
    | zext =>
      refine ⟨.ite t (bvOne width) (bvZero width), s₁, ?_, hinv, hgrows,
        hchoice fun env => bvOne_means (by omega)⟩
      rw [constructCast, run_bind hrun]
      dsimp only
      rw [if_pos h1]
      rfl
    | sext =>
      refine ⟨.ite t (b.bvMinusOne width) (bvZero width), s₁, ?_, hinv, hgrows,
        hchoice fun env => hb.minusOne env (by omega)⟩
      rw [constructCast, run_bind hrun]
      dsimp only
      rw [if_pos h1]
      rfl
  · cases kind with
    | zext =>
      refine ⟨.concat (bvZero (width - e.width)) t, s₁, ?_, hinv, hgrows, ?_⟩
      · rw [constructCast, run_bind hrun]
        dsimp only
        rw [if_neg h1, run_lift (hb.zeroExtend hlt)]
        rfl
      · refine .of_denotes hw ht ?_ hterm.covers fun {env m} hr => ?_
        · show (bvZero (width - e.width)).bvLength + t.bvLength = width
          rw [bvLength_bvZero (by omega), hterm.sort.bvLength h1]
          omega
        · show Denotes env _ ((e.solverValue m).zextOrTrunc width)
          have hwe : (e.solverValue m).width = e.width := e.width_solverValue m ht.1
          rw [zextOrTrunc_eq_append (by omega), hwe]
          have hzero : Means env (bvZero (width - e.width)) (width - e.width) 0 := bvZero_means (by omega)
          exact Denotes.concat hzero (hterm.denotes ht.1 h1 hr (List.Subset.refl _))
    | sext =>
      refine ⟨.signExtend t width, s₁, ?_, hinv, hgrows, ?_⟩
      · rw [constructCast, run_bind hrun]
        dsimp only
        rw [if_neg h1, run_lift (hb.signExtend (by rw [hterm.sort.bvLength h1]; omega))]
        rfl
      · refine .of_denotes hw ht rfl hterm.covers fun {env m} hr => ?_
        exact (hterm.denotes ht.1 h1 hr (List.Subset.refl _)).signExtend (by rw [e.width_solverValue m ht.1]; omega)

theorem complement_bool {a : APInt} (ha : a.width = 1) : decide (a.complement.toNat = 1) = !decide (a.toNat = 1) := by
  obtain ⟨x, rfl⟩ := APInt.exists_value ha
  revert x
  decide

theorem buildsTerm_not (ht : (Expr.not e).WellTyped) (he : BuildsTerm name ce e) : BuildsTerm name (constructNot ce) (.not e) := by
  intro s hs
  obtain ⟨t, s₁, hrun, hinv, hgrows, hterm⟩ := he s hs
  by_cases h1 : e.width = 1
  · refine ⟨.not t, s₁, ?_, hinv, hgrows, ?_⟩
    · rw [constructNot, run_bind hrun]
      dsimp only
      rw [if_pos h1]
      rfl
    · refine .of_holds h1 ht rfl hterm.covers fun {env m} hr => ?_
      show Holds env _ (decide ((e.solverValue m).complement.toNat = 1))
      rw [complement_bool (by rw [e.width_solverValue m ht, h1])]
      exact (hterm.holds ht h1 hr (List.Subset.refl _)).not
  · refine ⟨.bvNot t, s₁, ?_, hinv, hgrows, ?_⟩
    · rw [constructNot, run_bind hrun]
      dsimp only
      rw [if_neg h1]
      rfl
    · exact .of_denotes h1 ht (hterm.sort.bvLength h1) hterm.covers fun hr =>
        (hterm.denotes ht h1 hr (List.Subset.refl _)).not

variable {b : Backend} {kind : BinaryKind} {o : BvOp}

theorem covers_binary (hl : s.Covers l.roots) (hr : s.Covers r.roots) : s.Covers (Expr.binary kind l r).roots := by
  rw [Expr.roots]
  split
  · exact hr.append hl
  · exact hl.append hr

theorem termFor_op {tl tr : SolverTerm} (hk : ∀ re a c, kind.solverValue re a c = .map₂ o.apply a c)
    (ht : (Expr.binary kind l r).WellTyped) (hw : l.width ≠ 1) (hl : TermFor s tl l) (hr : TermFor s tr r) :
    TermFor s (.op o tl tr) (.binary kind l r) := by
  refine .of_denotes hw ht (hl.sort.bvLength hw) (covers_binary hl.covers hr.covers) fun {env m} hrep => ?_
  have hop := Denotes.op (o := o) (hl.denotes ht.1 hw hrep (Expr.roots_binary_left kind l r))
    (hr.denotes ht.2.1 (ht.2.2 ▸ hw) hrep (Expr.roots_binary_right kind l r)) ((l.width_solverValue m ht.1).trans (ht.2.2.trans (r.width_solverValue m ht.2.1).symm))
  rwa [← hk r] at hop

theorem op_eq (hb : b.Sound) {tl tr : SolverTerm} {o : BvOp} (hwidth : l.width = r.width) (hw : l.width ≠ 1)
    (hl : TermFor s tl l) (hr : TermFor s tr r) {w : Nat} (hlw : w = l.width) : b.op o w tl tr = some (.op o tl tr) := by
  subst hlw
  exact hb.op (hl.sort.bvLength hw) (by rw [hr.sort.bvLength (hwidth ▸ hw), hwidth])

theorem buildsTerm_arith (hb : b.Sound) (hk : ∀ re a c, kind.solverValue re a c = .map₂ o.apply a c)
    (hmul : kind ≠ .mul) (ht : (Expr.binary kind l r).WellTyped) (hw : l.width ≠ 1) (hl : BuildsTerm name cl l) (hr : BuildsTerm name cr r) :
    BuildsTerm name (b.constructArith o cl cr) (.binary kind l r) := by
  intro s hs
  obtain ⟨tl, s₁, tr, s₂, hrun₁, hrun₂, hinv, hgrows, hterml, htermr⟩ := buildsTerm_two hl hr hs
  rw [← Expr.roots_binary hmul] at hgrows
  refine ⟨.op o tl tr, s₂, ?_, hinv, hgrows, termFor_op hk ht hw hterml htermr⟩
  rw [constructArith, run_bind hrun₁]
  dsimp only
  rw [run_bind hrun₂]
  dsimp only
  rw [if_neg (ht.2.2 ▸ hw), run_lift (op_eq hb ht.2.2 hw hterml htermr ht.2.2.symm)]
  show some ((SolverTerm.op o tl tr, r.width), s₂) = some ((SolverTerm.op o tl tr, l.width), s₂)
  rw [ht.2.2]

theorem buildsTerm_mul (hb : b.Sound) (ht : (Expr.binary .mul l r).WellTyped) (hpos : 0 < l.width) (hw : l.width ≠ 1)
    (hl : BuildsTerm name cl l) (hr : BuildsTerm name cr r) : BuildsTerm name (b.constructMul l cl cr) (.binary .mul l r) := by
  have hwr : r.width ≠ 1 := ht.2.2 ▸ hw
  have hltr : 1 < r.width := by
    have hposr : 0 < r.width := ht.2.2 ▸ hpos
    omega
  intro s hs
  obtain ⟨tr, s₁, hrun₁, hinv₁, hgrows₁, htermr⟩ := hr s hs
  cases hspecial : l.asConstant.bind fun c => b.mulConstant c r.width tr with
  | some t? =>
    obtain ⟨c, hc, hcase⟩ := Option.bind_eq_some_iff.mp hspecial
    obtain rfl := Expr.asConstant_eq_some hc
    have hcw : c.width = r.width := ht.2.2
    obtain ⟨t, rfl, hlen, hvalue⟩ := hb.mul hltr hcw trivial (htermr.sort.bvLength hwr) hcase
    have hroots : (Expr.binary .mul (.constant c) r).roots = r.roots := by
      rw [Expr.roots_mul]
      exact List.append_nil _
    refine ⟨t, s₁, ?_, hinv₁, by rwa [hroots], ?_⟩
    · rw [constructMul, run_bind hrun₁]
      dsimp only
      rw [if_neg hwr, hspecial]
      show some ((t, r.width), s₁) = some ((t, c.width), s₁)
      rw [hcw]
    · exact .of_denotes hw ht (hlen.trans hcw.symm) (by rw [hroots]; exact htermr.covers) fun hrep =>
        hvalue _ _ (htermr.denotes ht.2.1 hwr hrep (Expr.roots_binary_right .mul _ r))
  | none =>
    obtain ⟨tl, s₂, hrun₂, hinv₂, hgrows₂, hterml⟩ := hl s₁ hinv₁
    have htermr' : TermFor s₂ tr r := htermr.mono hgrows₂
    refine ⟨.op .mul tl tr, s₂, ?_, hinv₂, by rw [Expr.roots_mul]; exact hgrows₁.trans hgrows₂,
      termFor_op (fun _ _ _ => rfl) ht hw hterml htermr'⟩
    rw [constructMul, run_bind hrun₁]
    dsimp only
    rw [if_neg hwr, hspecial]
    dsimp only
    rw [run_bind hrun₂]
    dsimp only
    rw [run_lift (op_eq hb ht.2.2 hw hterml htermr' rfl)]
    rfl

theorem roots_binary_constant (hmul : kind ≠ .mul) (l : Expr) (c : APInt) :
    (Expr.binary kind l (.constant c)).roots = l.roots := by
  rw [Expr.roots_binary hmul]
  exact List.append_nil _

theorem buildsTerm_division (hb : b.Sound) (hk : ∀ re a c, kind.solverValue re a c = .map₂ o.apply a c)
    (hmul : kind ≠ .mul) {special : APInt → Nat → SolverTerm → Option (Option SolverTerm)}
    (hspecial : IsSpecialCase special (fun c => c.toNat ≠ 0) fun c a => .map₂ o.apply a c)
    (ht : (Expr.binary kind l r).WellTyped) (hpos : 0 < l.width) (hw : l.width ≠ 1)
    (hdivisor : ∀ c, r.asConstant = some c → c.toNat ≠ 0) (hl : BuildsTerm name cl l) (hr : BuildsTerm name cr r) :
    BuildsTerm name (b.constructDivision o special r cl cr) (.binary kind l r) := by
  intro s hs
  obtain ⟨tl, s₁, hrun₁, hinv₁, hgrows₁, hterml⟩ := hl s hs
  cases hcases : r.asConstant.bind fun c => special c l.width tl with
  | some t? =>
    obtain ⟨c, hc, hcase⟩ := Option.bind_eq_some_iff.mp hcases
    have hne : c.toNat ≠ 0 := hdivisor c hc
    obtain rfl := Expr.asConstant_eq_some hc
    have hcw : c.width = l.width := ht.2.2.symm
    obtain ⟨t, rfl, hlen, hvalue⟩ := hspecial (by omega) hcw hne (hterml.sort.bvLength hw) hcase
    have hroots : (Expr.binary kind l (.constant c)).roots = l.roots := roots_binary_constant hmul l c
    refine ⟨t, s₁, ?_, hinv₁, by rwa [hroots], ?_⟩
    · rw [constructDivision, run_bind hrun₁]
      dsimp only
      rw [if_neg hw, hcases]
      rfl
    · refine .of_denotes hw ht hlen (by rw [hroots]; exact hterml.covers) fun {env m} hrep => ?_
      have hv : Denotes env t (.map₂ o.apply (l.solverValue m) c) :=
        hvalue _ _ (hterml.denotes ht.1 hw hrep (Expr.roots_binary_left kind l _))
      rwa [← hk (.constant c)] at hv
  | none =>
    obtain ⟨tr, s₂, hrun₂, hinv₂, hgrows₂, htermr⟩ := hr s₁ hinv₁
    have hterml' : TermFor s₂ tl l := hterml.mono hgrows₂
    have hgrows := hgrows₁.trans hgrows₂
    rw [← Expr.roots_binary hmul] at hgrows
    refine ⟨.op o tl tr, s₂, ?_, hinv₂, hgrows, termFor_op hk ht hw hterml' htermr⟩
    rw [constructDivision, run_bind hrun₁]
    dsimp only
    rw [if_neg hw, hcases]
    dsimp only
    rw [run_bind hrun₂]
    dsimp only
    rw [run_lift (op_eq hb ht.2.2 hw hterml' htermr ht.2.2.symm)]
    show some ((SolverTerm.op o tl tr, r.width), s₂) = some ((SolverTerm.op o tl tr, l.width), s₂)
    rw [ht.2.2]

theorem buildsTerm_bitwise (hk : ∀ re a c, kind.solverValue re a c = .map₂ o.apply a c) (hmul : kind ≠ .mul)
    {bool : SolverTerm → SolverTerm → SolverTerm}
    {f : Bool → Bool → Bool} (hsort : ∀ {tl tr : SolverTerm}, tl.isBool = true → tr.isBool = true →
      (bool tl tr).isBool = true)
    (hbool : ∀ {env : Interpretation} {tl tr : SolverTerm} {p q : Bool}, Holds env tl p → Holds env tr q →
      Holds env (bool tl tr) (f p q))
    (hvalue : ∀ x y : BitVec 1, decide ((o.apply x y).toNat = 1) = f (decide (x.toNat = 1)) (decide (y.toNat = 1)))
    (ht : (Expr.binary kind l r).WellTyped) (hl : BuildsTerm name cl l) (hr : BuildsTerm name cr r) :
    BuildsTerm name (constructBitwise bool o cl cr) (.binary kind l r) := by
  intro s hs
  obtain ⟨tl, s₁, tr, s₂, hrun₁, hrun₂, hinv, hgrows, hterml, htermr⟩ := buildsTerm_two hl hr hs
  rw [← Expr.roots_binary hmul] at hgrows
  have hwidth : l.width = r.width := ht.2.2
  by_cases h1 : l.width = 1
  · refine ⟨bool tl tr, s₂, ?_, hinv, hgrows, ?_⟩
    · rw [constructBitwise, run_bind hrun₁]
      dsimp only
      rw [run_bind hrun₂]
      dsimp only
      rw [if_pos (hwidth ▸ h1)]
      show some ((bool tl tr, r.width), s₂) = some ((bool tl tr, l.width), s₂)
      rw [hwidth]
    · refine .of_holds h1 ht (hsort (hterml.sort.isBool h1) (htermr.sort.isBool (hwidth ▸ h1)))
        (covers_binary hterml.covers htermr.covers) fun {env m} hrep => ?_
      have hb := hbool (hterml.holds ht.1 h1 hrep (Expr.roots_binary_left kind l r))
        (htermr.holds ht.2.1 (hwidth ▸ h1) hrep (Expr.roots_binary_right kind l r))
      show Holds env _ (decide ((kind.solverValue r (l.solverValue m) (r.solverValue m)).toNat = 1))
      have hwl : (l.solverValue m).width = 1 := (l.width_solverValue m ht.1).trans h1
      have hwr : (r.solverValue m).width = 1 := (r.width_solverValue m ht.2.1).trans (hwidth ▸ h1)
      obtain ⟨x, y, hx, hy⟩ := APInt.exists_values hwl hwr
      rw [hx, hy] at hb
      rw [hx, hy, hk, APInt.map₂_mk]
      show Holds env _ (decide ((o.apply x y).toNat = 1))
      rw [hvalue]
      exact hb
  · refine ⟨.op o tl tr, s₂, ?_, hinv, hgrows, termFor_op hk ht h1 hterml htermr⟩
    rw [constructBitwise, run_bind hrun₁]
    dsimp only
    rw [run_bind hrun₂]
    dsimp only
    rw [if_neg (hwidth ▸ h1)]
    show some ((SolverTerm.op o tl tr, r.width), s₂) = some ((SolverTerm.op o tl tr, l.width), s₂)
    rw [hwidth]

def IsConstantShift (byConstant : Nat → SolverTerm → Nat → SolverTerm) (value : APInt → Nat → APInt) : Prop :=
  ∀ {w : Nat} {t : SolverTerm} {n : Nat}, 1 < w → t.bvLength = w → (byConstant w t n).bvLength = w ∧
    ∀ (env : Interpretation) (a : APInt), Denotes env t a → Denotes env (byConstant w t n) (value a n)

theorem bvLeftShift_isConstantShift : IsConstantShift (fun _ => bvLeftShift) shiftLeft := by
  intro w t n hw ht
  refine ⟨bvLength_bvLeftShift ht (by omega), fun env a ha => ?_⟩
  obtain rfl : a.width = w := ha.bvLength.symm.trans ht
  have h := bvLeftShift_means (s := n) ha.means (by omega)
  unfold Means at h
  rwa [← shiftLeft_bits, bits_toNat] at h

theorem toNat_int_bounds (a : APInt) : (0 : Int) ≤ a.toNat ∧ (a.toNat : Int) < 2 ^ a.width :=
  ⟨by positivity, by exact_mod_cast a.toNat_lt⟩

theorem bvRightShift_isConstantShift : IsConstantShift (fun _ => bvRightShift) shiftRight := by
  intro w t n hw ht
  refine ⟨bvLength_bvRightShift ht (by omega), fun env a ha => ?_⟩
  obtain rfl : a.width = w := ha.bvLength.symm.trans ht
  obtain ⟨hnonneg, hlt⟩ := toNat_int_bounds a
  have h := bvRightShift_means (s := n) ha.means hnonneg hlt (by omega)
  unfold Means at h
  rwa [← shiftRight_bits hnonneg hlt, bits_toNat] at h

theorem exists_signed (a : APInt) (hw : 0 < a.width) :
    ∃ x : Int, a = bits a.width x ∧ -2 ^ (a.width - 1) ≤ x ∧ x < 2 ^ (a.width - 1) := by
  obtain ⟨w, v⟩ := a
  refine ⟨v.toInt, ?_, ?_, ?_⟩
  · show (⟨w, v⟩ : APInt) = ⟨w, BitVec.ofInt w v.toInt⟩
    rw [BitVec.ofInt_toInt]
  · exact BitVec.le_toInt v
  · exact BitVec.toInt_lt

theorem ashrByConstant_denotes {bvMinusOne : Nat → SolverTerm} (hones : IsMinusOne bvMinusOne) {env : Interpretation} {t : SolverTerm}
    {a : APInt} {w n : Nat} (hw : 1 < w) (ht : t.bvLength = w) (ha : Denotes env t a) :
    Denotes env (constructAShrByConstant bvMinusOne t n (bvBoolExtract t (w - 1))) (arithShiftRight a n) := by
  obtain rfl : a.width = w := ha.bvLength.symm.trans ht
  obtain ⟨x, hx, hlo, hhi⟩ := exists_signed a (by omega)
  have hmeans : Means env t a.width x := by
    unfold Means
    rwa [← hx]
  have h := constructAShrByConstant_means (s := n) hones hmeans (by omega) hlo hhi
    (bvBoolExtract_sign hmeans (by omega) hlo hhi)
  unfold Means at h
  rwa [← arithShiftRight_bits (by omega) hlo hhi, ← hx] at h

theorem ashrByConstant_isConstantShift (hb : b.Sound) : IsConstantShift b.ashrByConstant arithShiftRight := by
  intro w t n hw ht
  exact ⟨bvLength_constructAShrByConstant hb.minusOne ht (by omega),
    fun env a ha => ashrByConstant_denotes hb.minusOne hw ht ha⟩

theorem buildsTerm_shift (value : APInt → Nat → APInt)
    (hk : ∀ re a c, kind.solverValue re a c = value a (shiftAmount re c)) (hmul : kind ≠ .mul) {byConstant : Nat → SolverTerm → Nat → SolverTerm}
    {byTerm : SolverTerm → SolverTerm → Option SolverTerm} (hconst : IsConstantShift byConstant value) (hterm : IsVarShift byTerm value)
    (ht : (Expr.binary kind l r).WellTyped) (hpos : 0 < l.width) (hw : l.width ≠ 1)
    (hl : BuildsTerm name cl l) (hr : BuildsTerm name cr r) :
    BuildsTerm name (constructShift byConstant byTerm r cl cr) (.binary kind l r) := by
  intro s hs
  obtain ⟨tl, s₁, hrun₁, hinv₁, hgrows₁, hterml⟩ := hl s hs
  cases hc : r.asConstant with
  | some c =>
    obtain ⟨hlen, hvalue⟩ := hconst (n := shiftConstant c) (by omega : 1 < l.width) (hterml.sort.bvLength hw)
    have hroots : (Expr.binary kind l r).roots = l.roots := by
      rw [Expr.asConstant_eq_some hc]
      exact roots_binary_constant hmul l c
    refine ⟨byConstant l.width tl (shiftConstant c), s₁, ?_, hinv₁, by rwa [hroots], ?_⟩
    · rw [constructShift, run_bind hrun₁]
      dsimp only
      rw [if_neg hw, hc]
      rfl
    · refine .of_denotes hw ht hlen (by rw [hroots]; exact hterml.covers) fun {env m} hrep => ?_
      have hv := hvalue _ _ (hterml.denotes ht.1 hw hrep (Expr.roots_binary_left kind l r))
      have hamount : shiftAmount r (r.solverValue m) = shiftConstant c := by rw [shiftAmount, hc]
      show Denotes env _ (kind.solverValue r (l.solverValue m) (r.solverValue m))
      rw [hk, hamount]
      exact hv
  | none =>
    obtain ⟨tr, s₂, hrun₂, hinv₂, hgrows₂, htermr⟩ := hr s₁ hinv₁
    have hterml' : TermFor s₂ tl l := hterml.mono hgrows₂
    have hwr : r.width ≠ 1 := ht.2.2 ▸ hw
    have hlenr : tr.bvLength = l.width := (htermr.sort.bvLength hwr).trans ht.2.2.symm
    obtain ⟨t, hshift, hlen, hvalue⟩ := hterm (by omega : 1 < l.width) (hterml'.sort.bvLength hw) hlenr
    have hgrows := hgrows₁.trans hgrows₂
    rw [← Expr.roots_binary hmul] at hgrows
    refine ⟨t, s₂, ?_, hinv₂, hgrows, ?_⟩
    · rw [constructShift, run_bind hrun₁]
      dsimp only
      rw [if_neg hw, hc]
      dsimp only
      rw [run_bind hrun₂]
      dsimp only
      rw [run_lift hshift]
      rfl
    · refine .of_denotes hw ht hlen (covers_binary hterml'.covers htermr.covers) fun {env m} hrep => ?_
      have hv := hvalue _ _ _ (hterml'.denotes ht.1 hw hrep (Expr.roots_binary_left kind l r))
        (htermr.denotes ht.2.1 hwr hrep (Expr.roots_binary_right kind l r))
      have hamount : shiftAmount r (r.solverValue m) = (r.solverValue m).toNat := by rw [shiftAmount, hc]
      rwa [← hamount, ← hk] at hv

theorem buildsTerm_binary (hb : b.Sound) (ht : (Expr.binary kind l r).WellTyped) (hpos : 0 < l.width)
    (hbool : l.width = 1 → kind.isBitwise = true)
    (hdivisor : kind.isDivision = true → ∀ c, r.asConstant = some c → c.toNat ≠ 0)
    (hl : BuildsTerm name cl l) (hr : BuildsTerm name cr r) :
    BuildsTerm name (b.constructBinary kind l r cl cr) (.binary kind l r) := by
  have hw : kind.isBitwise = false → l.width ≠ 1 := fun hk h1 => by
    rw [hbool h1] at hk
    cases hk
  cases kind with
  | add => exact buildsTerm_arith hb (fun _ _ _ => rfl) (by decide) ht (hw rfl) hl hr
  | sub => exact buildsTerm_arith hb (fun _ _ _ => rfl) (by decide) ht (hw rfl) hl hr
  | mul => exact buildsTerm_mul hb ht hpos (hw rfl) hl hr
  | udiv =>
    exact buildsTerm_division hb (fun _ _ _ => rfl) (by decide) hb.udiv ht hpos (hw rfl) (hdivisor rfl) hl hr
  | sdiv =>
    exact buildsTerm_division hb (fun _ _ _ => rfl) (by decide) hb.sdiv ht hpos (hw rfl) (hdivisor rfl) hl hr
  | urem =>
    exact buildsTerm_division hb (fun _ _ _ => rfl) (by decide) hb.urem ht hpos (hw rfl) (hdivisor rfl) hl hr
  | srem => exact buildsTerm_arith hb (fun _ _ _ => rfl) (by decide) ht (hw rfl) hl hr
  | and =>
    exact buildsTerm_bitwise (fun _ _ _ => rfl) (by decide) (fun _ _ => rfl) (f := (· && ·)) Holds.and (by decide) ht hl hr
  | or => exact buildsTerm_bitwise (fun _ _ _ => rfl) (by decide) (fun _ _ => rfl) (f := (· || ·)) Holds.or (by decide) ht hl hr
  | xor =>
    exact buildsTerm_bitwise (fun _ _ _ => rfl) (by decide) (fun _ _ => rfl) (f := fun p q => bif p then !q else q)
      (fun hp hq => Holds.ite hp hq.not hq) (by decide) ht hl hr
  | shl =>
    exact buildsTerm_shift shiftLeft (fun _ _ _ => rfl) (by decide) bvLeftShift_isConstantShift hb.varLeftShift ht hpos (hw rfl) hl hr
  | lshr =>
    exact buildsTerm_shift shiftRight (fun _ _ _ => rfl) (by decide) bvRightShift_isConstantShift hb.varRightShift ht hpos (hw rfl) hl hr
  | ashr =>
    exact buildsTerm_shift arithShiftRight (fun _ _ _ => rfl) (by decide) (ashrByConstant_isConstantShift hb) hb.varArithRightShift
      ht hpos (hw rfl) hl hr

theorem decide_toNat_ofBool (p : Bool) : decide ((APInt.ofBool p).toNat = 1) = p := by cases p <;> rfl

theorem termFor_cmp {kind : CmpKind} {t : SolverTerm} (ht : (Expr.cmp kind l r).WellTyped) (hb : t.isBool = true)
    (hl : s.Covers l.roots) (hr : s.Covers r.roots)
    (h : ∀ {env : Interpretation} {m : Valuation}, s.Represents (l.roots ++ r.roots) env m → Holds env t
      (kind.apply (l.solverValue m).value ((r.solverValue m).value.setWidth (l.solverValue m).width))) :
    TermFor s t (.cmp kind l r) := by
  refine .of_holds rfl ht hb (hl.append hr) fun {env m} hrep => ?_
  show Holds env t (decide ((APInt.ofBool _).toNat = 1))
  rw [decide_toNat_ofBool]
  exact h hrep

theorem buildsTerm_order {kind : CmpKind} {rel : BvRel} (hk : ∀ {w : Nat} (x y : BitVec w), kind.apply x y = rel.apply x y)
    (ht : (Expr.cmp kind l r).WellTyped) (hw : l.width ≠ 1) (hl : BuildsTerm name cl l) (hr : BuildsTerm name cr r) :
    BuildsTerm name (constructOrder rel cl cr) (.cmp kind l r) := by
  intro s hs
  obtain ⟨tl, s₁, tr, s₂, hrun₁, hrun₂, hinv, hgrows, hterml, htermr⟩ := buildsTerm_two hl hr hs
  have hwr : r.width ≠ 1 := ht.2.2 ▸ hw
  refine ⟨.rel rel tl tr, s₂, ?_, hinv, hgrows, ?_⟩
  · rw [constructOrder, run_bind hrun₁]
    dsimp only
    rw [run_bind hrun₂]
    dsimp only
    rw [if_neg hwr]
    rfl
  · refine termFor_cmp ht rfl hterml.covers htermr.covers fun {env m} hrep => ?_
    rw [hk]
    exact Denotes.rel (hterml.denotes ht.1 hw hrep (List.subset_append_left _ _))
      (htermr.denotes ht.2.1 hwr hrep (List.subset_append_right _ _))
      ((l.width_solverValue m ht.1).trans (ht.2.2.trans (r.width_solverValue m ht.2.1).symm))

theorem eq_apply_bool {a c : APInt} (ha : a.width = 1) (hc : c.width = 1) :
    CmpKind.eq.apply a.value (c.value.setWidth a.width) = (decide (a.toNat = 1) == decide (c.toNat = 1)) := by
  obtain ⟨x, y, rfl, rfl⟩ := APInt.exists_values ha hc
  revert x y
  decide

theorem eq_apply_vector {a c : APInt} (hw : a.width = c.width) :
    CmpKind.eq.apply a.value (c.value.setWidth a.width) = (a == c) := by
  obtain ⟨w, x⟩ := a
  obtain ⟨w', y⟩ := c
  obtain rfl : w = w' := hw
  refine Bool.eq_iff_iff.mpr ?_
  rw [beq_iff_eq, BitVec.setWidth_eq]
  show (x == y) = true ↔ _
  rw [beq_iff_eq, APInt.mk.injEq]
  exact ⟨fun h => ⟨rfl, heq_of_eq h⟩, fun h => eq_of_heq h.2⟩

theorem buildsTerm_eq (hb : b.Sound) (ht : (Expr.cmp .eq l r).WellTyped) (hl : BuildsTerm name cl l) (hr : BuildsTerm name cr r) :
    BuildsTerm name (b.constructEq l cl cr) (.cmp .eq l r) := by
  intro s hs
  obtain ⟨tl, s₁, tr, s₂, hrun₁, hrun₂, hinv, hgrows, hterml, htermr⟩ := buildsTerm_two hl hr hs
  have hwidth : l.width = r.width := ht.2.2
  have hvl : ∀ m, (l.solverValue m).width = l.width := fun m => l.width_solverValue m ht.1
  have hvr : ∀ m, (r.solverValue m).width = r.width := fun m => r.width_solverValue m ht.2.1
  by_cases h1 : r.width = 1
  · have hl1 : l.width = 1 := hwidth.trans h1
    cases hc : l.asConstant with
    | some c =>
      obtain rfl := Expr.asConstant_eq_some hc
      have hcw : c.width = 1 := hl1
      have hctrue : ConstantExpr.isTrue c = decide (c.toNat = 1) := by
        rw [eq_ofBool_of_width hcw]
        cases decide (c.toNat = 1) <;> rfl
      refine ⟨if ConstantExpr.isTrue c then tr else .not tr, s₂, ?_, hinv, hgrows, ?_⟩
      · rw [constructEq, run_bind hrun₁]
        dsimp only
        rw [run_bind hrun₂]
        dsimp only
        rw [if_pos h1, hc]
        show some ((_, r.width), s₂) = some ((_, 1), s₂)
        rw [h1]
      · refine termFor_cmp ht ?_ hterml.covers htermr.covers fun {env m} hrep => ?_
        · split
          · exact htermr.sort.isBool h1
          · rfl
        · have hr := htermr.holds ht.2.1 h1 hrep (List.subset_append_right _ _)
          rw [eq_apply_bool (hvl m ▸ hl1) (hvr m ▸ h1)]
          show Holds env _ (decide (c.toNat = 1) == _)
          rw [hctrue]
          by_cases hone : c.toNat = 1
          · rw [decide_eq_true hone, if_pos rfl, Bool.true_beq]
            exact hr
          · rw [decide_eq_false hone, if_neg (by decide), Bool.false_beq]
            exact hr.not
    | none =>
      refine ⟨.iff tl tr, s₂, ?_, hinv, hgrows, ?_⟩
      · rw [constructEq, run_bind hrun₁]
        dsimp only
        rw [run_bind hrun₂]
        dsimp only
        rw [if_pos h1, hc]
        dsimp only
        rw [run_lift (hb.iff (hterml.sort.isBool hl1) (htermr.sort.isBool h1))]
        show some ((_, r.width), s₂) = some ((_, 1), s₂)
        rw [h1]
      · refine termFor_cmp ht rfl hterml.covers htermr.covers fun {env m} hrep => ?_
        rw [eq_apply_bool (hvl m ▸ hl1) (hvr m ▸ h1)]
        exact Holds.iff (hterml.holds ht.1 hl1 hrep (List.subset_append_left _ _))
          (htermr.holds ht.2.1 h1 hrep (List.subset_append_right _ _))
  · have hl1 : l.width ≠ 1 := hwidth ▸ h1
    have hvalues : ∀ m, (l.solverValue m).width = (r.solverValue m).width := fun m =>
      (hvl m).trans (hwidth.trans (hvr m).symm)
    refine ⟨.eq tl tr, s₂, ?_, hinv, hgrows, ?_⟩
    · rw [constructEq, run_bind hrun₁]
      dsimp only
      rw [run_bind hrun₂]
      dsimp only
      rw [if_neg h1]
      rfl
    · refine termFor_cmp ht rfl hterml.covers htermr.covers fun {env m} hrep => ?_
      rw [eq_apply_vector (hvalues m)]
      exact Denotes.eq (hterml.denotes ht.1 hl1 hrep (List.subset_append_left _ _))
        (htermr.denotes ht.2.1 h1 hrep (List.subset_append_right _ _)) (hvalues m)

theorem buildsTerm_cmp (hb : b.Sound) {kind : CmpKind} (ht : (Expr.cmp kind l r).WellTyped)
    (halloc : kind.isAllocated = true) (hbool : l.width = 1 → kind = .eq) (hl : BuildsTerm name cl l) (hr : BuildsTerm name cr r) :
    BuildsTerm name (b.constructCmp kind l cl cr) (.cmp kind l r) := by
  have hw : kind ≠ .eq → l.width ≠ 1 := fun hk h1 => hk (hbool h1)
  cases kind with
  | eq => exact buildsTerm_eq hb ht hl hr
  | ult => exact buildsTerm_order (fun _ _ => rfl) ht (hw (by decide)) hl hr
  | ule => exact buildsTerm_order (fun _ _ => rfl) ht (hw (by decide)) hl hr
  | slt => exact buildsTerm_order (fun _ _ => rfl) ht (hw (by decide)) hl hr
  | sle => exact buildsTerm_order (fun _ _ => rfl) ht (hw (by decide)) hl hr
  | ne | ugt | uge | sgt | sge => cases halloc

end Cases

section Arrays

variable {b : Backend} {name : ExprArray → String} {root : ExprArray} {index value : Expr} {next un : UpdateNode}
  {ca : BuilderM ArrayTerm} {ci cv : BuilderM Built}

theorem getInitialArray_builds (hb : b.Sound) (hroot : root.WellFormed) (hindexed : root.Indexed) :
    BuildsArray name (b.getInitialArray name root) root .nil := by
  intro s hs
  unfold getInitialArray
  cases hlookup : s.arrays.lookup root with
  | some t =>
    have harray : ArrayFor s t root .nil := hs.arrays _ (mem_of_lookup hlookup)
    exact ⟨t, s, rfl, hs, .refl harray.covers, harray⟩
  | none =>
    have hnew : ∀ t, (root, t) ∉ s.arrays := fun t ht => by
      have hne := List.lookup_eq_none_iff.mp hlookup _ ht
      simp at hne
    have hfresh : ∀ p ∈ s.constantArrayAssertions, p.1 ≠ root := by
      intro p hp hroot
      obtain ⟨t, ht, -⟩ := hs.assertions p hp
      exact hnew t (hroot ▸ ht)
    obtain ⟨t, assertions, hrun, hsub, hkeys, hdomain, hrange, hname, hdenote⟩ :=
      hb.initialArray (name root ++ toString s.arrays.length) hroot hindexed hfresh
    have hgrows : s.Grows name [root]
        { s with arrays := (root, t) :: s.arrays, constantArrayAssertions := assertions } := by
      refine ⟨fun p hp => .tail _ hp, hsub, ?_⟩
      have hmem : root ∉ s.arrayNames.map Prod.fst := by
        intro hmem
        obtain ⟨p, hp, hproot⟩ := List.mem_map.mp hmem
        obtain ⟨q, hq, rfl⟩ := List.mem_map.mp hp
        obtain rfl : q.1 = root := hproot
        exact hnew q.2 hq
      show (root, t.name) :: s.arrayNames = nameArray name s.arrayNames root
      unfold nameArray
      rw [if_neg hmem, hname]
      unfold BuilderState.arrayNames
      rw [List.length_map]
    have harray : ArrayFor { s with arrays := (root, t) :: s.arrays, constantArrayAssertions := assertions } t root
        .nil := by
      refine ⟨hdomain, hrange, fun a ha => ?_, fun {env m} hrep => ?_⟩
      · obtain rfl : a = root := List.mem_singleton.mp ha
        exact ⟨t, .head _⟩
      · refine hdenote env m (fun i hi => ?_) fun p hp hroot =>
          hrep.assertions p hp (List.mem_singleton.mpr hroot)
        rw [← hname]
        exact hrep.contents (root, t) (.head _) (.head _) i hi
    refine ⟨t, { s with arrays := (root, t) :: s.arrays, constantArrayAssertions := assertions }, ?_, ?_, hgrows,
      harray⟩
    · simp only [hrun, bind, Option.bind_some]
    · refine ⟨fun p hp => ?_, fun p hp => (hs.nodes p hp).mono hgrows,
        fun p hp => ⟨(hs.constructed p hp).1, (hs.constructed p hp).2.mono hgrows⟩, fun p hp => ?_⟩
      · rcases List.mem_cons.mp hp with rfl | hp
        · exact harray
        · exact (hs.arrays p hp).mono hgrows
      · rcases hkeys p hp with hp | ⟨hp, hholds⟩
        · obtain ⟨u, hu, hholds⟩ := hs.assertions p hp
          exact ⟨u, .tail _ hu, hholds⟩
        · refine ⟨t, by rw [hp]; exact .head _, fun env m hcontents => hholds env m fun i => ?_⟩
          rw [← hname, ← hp]
          exact hcontents i

theorem arrayFor_write {s : BuilderState} {a : ArrayTerm} {ti tv : SolverTerm} (hindexed : root.Indexed)
    (ht : (UpdateNode.cons index value next).WellTyped root) (ha : ArrayFor s a root next) (hi : TermFor s ti index)
    (hv : TermFor s tv value) : ArrayFor s (.write a ti tv) root (.cons index value next) := by
  obtain ⟨hti, htv, htn, hwi, hwv⟩ := ht
  refine ⟨ha.domain, ha.range, ha.covers.append (hi.covers.append hv.covers), fun {env m} hrep => ?_⟩
  obtain ⟨f, hf, hcontents⟩ := ha.denote (hrep.subset (List.subset_append_left _ _))
  have hir : index.roots ⊆ (UpdateNode.cons index value next).roots root := fun a ha =>
    List.mem_append_right _ (List.mem_append_left _ ha)
  have hvr : value.roots ⊆ (UpdateNode.cons index value next).roots root := fun a ha =>
    List.mem_append_right _ (List.mem_append_right _ ha)
  have hdi : index.width ≠ 1 := by
    rw [hwi]
    exact Nat.ne_of_gt hindexed.1
  have hdv : value.width ≠ 1 := by
    rw [hwv]
    exact Nat.ne_of_gt hindexed.2
  have hxw : (index.solverValue m).width = a.domain := by rw [index.width_solverValue m hti, hwi, ha.domain]
  have hyw : (value.solverValue m).width = a.range := by rw [value.width_solverValue m htv, hwv, ha.range]
  refine ⟨_, ArrayTerm.denote_write hf (hi.denotes hti hdi hrep hir) (hv.denotes htv hdv hrep hvr) hxw hyw, fun i hlt => ?_⟩
  rw [UpdateNode.solverLookup]
  by_cases hidx : (index.solverValue m).toNat = i
  · rw [if_pos hidx, hidx, Function.update_self]
  · rw [if_neg hidx, Function.update_of_ne (Ne.symm hidx)]
    exact hcontents i hlt

theorem writeNode_builds (hindexed : root.Indexed) (ht : (UpdateNode.cons index value next).WellTyped root)
    (ha : BuildsArray name ca root next) (hi : BuildsTerm name ci index) (hv : BuildsTerm name cv value) :
    BuildsArray name (writeNode root (.cons index value next) ca ci cv) root (.cons index value next) := by
  intro s hs
  unfold writeNode
  cases hlookup : s.nodes.lookup (root, UpdateNode.cons index value next) with
  | some t =>
    have harray := hs.nodes ((root, .cons index value next), t) (mem_of_lookup hlookup)
    exact ⟨t, s, rfl, hs, .refl harray.covers, harray⟩
  | none =>
    obtain ⟨a, s₁, hrun₁, hinv₁, hgrows₁, harray⟩ := ha s hs
    obtain ⟨ti, s₂, tv, s₃, hrun₂, hrun₃, hinv, hgrows₂, htermi, htermv⟩ := buildsTerm_two hi hv hinv₁
    have hgrows₃ : s₃.Grows name []
        { s₃ with nodes := ((root, .cons index value next), .write a ti tv) :: s₃.nodes } := .of_eq rfl rfl nofun
    have hgrows := (hgrows₁.trans hgrows₂).trans hgrows₃
    rw [List.append_nil] at hgrows
    have hwrite := (arrayFor_write hindexed ht (harray.mono hgrows₂) htermi htermv).mono hgrows₃
    refine ⟨.write a ti tv, { s₃ with nodes := ((root, .cons index value next), .write a ti tv) :: s₃.nodes }, ?_, ?_,
      hgrows, hwrite⟩
    · simp only [hrun₁, hrun₂, hrun₃, bind, Option.bind_some]
    · refine ⟨fun p hp => (hinv.arrays p hp).mono hgrows₃, fun p hp => ?_,
        fun p hp => ⟨(hinv.constructed p hp).1, (hinv.constructed p hp).2.mono hgrows₃⟩, hinv.assertions⟩
      rcases List.mem_cons.mp hp with rfl | hp
      · exact hwrite
      · exact (hinv.nodes p hp).mono hgrows₃

theorem constructRead_builds (ht : (Expr.read root un index).WellTyped) (hindexed : root.Indexed)
    (ha : BuildsArray name ca root un) (hi : BuildsTerm name ci index) :
    BuildsTerm name (constructRead root ca ci) (.read root un index) := by
  obtain ⟨-, htu, hti, hwi⟩ := id ht
  intro s hs
  obtain ⟨a, s₁, hrun₁, hinv₁, hgrows₁, harray⟩ := ha s hs
  obtain ⟨ti, s₂, hrun₂, hinv₂, hgrows₂, htermi⟩ := hi s₁ hinv₁
  have harray' : ArrayFor s₂ a root un := harray.mono hgrows₂
  refine ⟨.read a ti, s₂, ?_, hinv₂, hgrows₁.trans hgrows₂, ?_⟩
  · rw [constructRead, run_bind hrun₁, run_bind hrun₂]
    rfl
  · have hw : root.range ≠ 1 := Nat.ne_of_gt hindexed.2
    refine .of_denotes hw ht harray'.range (harray'.covers.append htermi.covers) fun {env m} hrep => ?_
    obtain ⟨f, hf, hcontents⟩ := harray'.denote (hrep.subset (List.subset_append_left _ _))
    have hdi : index.width ≠ 1 := by
      rw [hwi]
      exact Nat.ne_of_gt hindexed.1
    have hxw : (index.solverValue m).width = root.domain := by rw [index.width_solverValue m hti, hwi]
    have hlt : (index.solverValue m).toNat < 2 ^ root.domain := by
      rw [← hxw]
      exact APInt.toNat_lt _
    have hread := Denotes.read hf (htermi.denotes hti hdi hrep (List.subset_append_right _ _)) (hxw.trans harray'.domain.symm)
    rwa [hcontents _ hlt] at hread

end Arrays

section Construct

variable {b : Backend} {name : ExprArray → String}

mutual

theorem construct_spec (hb : b.Sound) : ∀ (e : Expr), e.WellTyped → e.Canonical → e.Buildable → e.NonzeroDivisors →
    BuildsTerm name (b.construct name e) e
  | .constant c, _, _, hbuild, _ => buildsTerm_constant hbuild
  | .notOptimized src, ht, hc, hbuild, hdiv => by
    unfold construct
    exact buildsTerm_hashed b (buildsTerm_notOptimized (construct_spec hb src ht hc hbuild.1 hdiv.1))
  | .read root head index, ht, hc, hbuild, hdiv => by
    obtain ⟨hroot, hth, hti, -⟩ := id ht
    obtain ⟨hch, hci, -⟩ := hc
    obtain ⟨hbh, hbi, hindexed⟩ := hbuild
    unfold construct
    exact buildsTerm_hashed b (constructRead_builds ht hindexed
      (getArrayForUpdate_spec hb hroot hindexed head hth hch hbh hdiv.1) (construct_spec hb index hti hci hbi hdiv.2.1))
  | .select cond t f, ht, hc, hbuild, hdiv => by
    obtain ⟨htc, htt, htf, -⟩ := id ht
    obtain ⟨hcc, hct, hcf, -⟩ := hc
    unfold construct
    exact buildsTerm_hashed b (buildsTerm_select ht (construct_spec hb cond htc hcc hbuild.1 hdiv.1)
      (construct_spec hb t htt hct hbuild.2.1 hdiv.2.1) (construct_spec hb f htf hcf hbuild.2.2.1 hdiv.2.2.1))
  | .concat l r, ht, hc, hbuild, hdiv => by
    obtain ⟨hwl, hwr⟩ : l.width ≠ 1 ∧ r.width ≠ 1 := hbuild.2.2
    have hl : 0 < l.width := Expr.Buildable.width_pos l hbuild.1 ht.1
    have hw : (Expr.concat l r).width ≠ 1 := by
      show l.width + r.width ≠ 1
      omega
    unfold construct
    exact buildsTerm_hashed b (buildsTerm_concat ht hwl hwr hw (construct_spec hb l ht.1 hc.1 hbuild.1 hdiv.1)
      (construct_spec hb r ht.2 hc.2.1 hbuild.2.1 hdiv.2.1))
  | .extract e offset width, ht, hc, hbuild, hdiv => by
    unfold construct
    exact buildsTerm_hashed b (buildsTerm_extract ht hc.2.2 (construct_spec hb e ht.1 hc.1 hbuild.1 hdiv.1))
  | .cast kind src width, ht, hc, hbuild, hdiv => by
    unfold construct
    exact buildsTerm_hashed b (buildsTerm_cast hb ht (Expr.Buildable.width_pos src hbuild.1 ht.1) hc.2.2
      (construct_spec hb src ht.1 hc.1 hbuild.1 hdiv.1))
  | .not e, ht, hc, hbuild, hdiv => by
    unfold construct
    exact buildsTerm_hashed b (buildsTerm_not ht (construct_spec hb e ht hc.1 hbuild.1 hdiv.1))
  | .binary kind l r, ht, hc, hbuild, hdiv => by
    obtain ⟨hcl, hcr, -, hbool⟩ := hc
    unfold construct
    exact buildsTerm_hashed b (buildsTerm_binary hb ht (Expr.Buildable.width_pos l hbuild.1 ht.1)
      (fun h1 => (hbool h1).1) hdiv.2.2 (construct_spec hb l ht.1 hcl hbuild.1 hdiv.1)
      (construct_spec hb r ht.2.1 hcr hbuild.2.1 hdiv.2.1))
  | .cmp kind l r, ht, hc, hbuild, hdiv => by
    obtain ⟨hcl, hcr, -, halloc, hbool⟩ := hc
    unfold construct
    exact buildsTerm_hashed b (buildsTerm_cmp hb ht halloc hbool (construct_spec hb l ht.1 hcl hbuild.1 hdiv.1)
      (construct_spec hb r ht.2.1 hcr hbuild.2.1 hdiv.2.1))

theorem getArrayForUpdate_spec (hb : b.Sound) {root : ExprArray} (hroot : root.WellFormed) (hindexed : root.Indexed) :
    ∀ (un : UpdateNode), un.WellTyped root → un.Canonical → un.ForallNodes Expr.BuildableNode →
      un.ForallNodes Expr.NonzeroDivisor → BuildsArray name (b.getArrayForUpdate name root un) root un
  | .nil, _, _, _, _ => by
    unfold getArrayForUpdate
    exact getInitialArray_builds hb hroot hindexed
  | .cons index value next, ht, hc, hbuild, hdiv => by
    obtain ⟨hti, htv, htn, -⟩ := id ht
    unfold getArrayForUpdate
    exact writeNode_builds hindexed ht
      (getArrayForUpdate_spec hb hroot hindexed next htn hc.2.2 hbuild.2.2 hdiv.2.2)
      (construct_spec hb index hti hc.1 hbuild.1 hdiv.1) (construct_spec hb value htv hc.2.1 hbuild.2.1 hdiv.2.1)

end

end Construct

section Powers

variable {c : APInt} {w l : Nat} {t : SolverTerm}

theorem exists_power (hcw : c.width = w) (h64 : c.width ≤ 64) (h : Bits64.isPowerOfTwo c.toNat = true) :
    ∃ l < w, c.toNat = 2 ^ l ∧ Bits64.indexOfSingleBit c.toNat = some l := by
  have hlt : c.toNat < 2 ^ c.width := c.toNat_lt
  have hlt' : c.toNat < 2 ^ 64 := hlt.trans_le (Nat.pow_le_pow_right (by omega) h64)
  obtain ⟨l, -, hl, hindex⟩ := Bits64.exists_of_isPowerOfTwo h hlt'
  refine ⟨l, ?_, hl, hindex⟩
  rw [hl, hcw] at hlt
  exact (Nat.pow_lt_pow_iff_right (by omega : 1 < 2)).mp hlt

theorem udivByPower_spec (hw : 0 < w) (hcw : c.width = w) (hc : c.toNat = 2 ^ l) (ht : t.bvLength = w) :
    (bvRightShift t l).bvLength = w ∧ ∀ (env : Interpretation) (a : APInt), Denotes env t a →
      Denotes env (bvRightShift t l) (.map₂ BvOp.udiv.apply a c) := by
  refine ⟨bvLength_bvRightShift ht hw, fun env a ha => ?_⟩
  have haw : a.width = w := ha.bvLength.symm.trans ht
  have hne : c.toNat ≠ 0 := by
    rw [hc]
    positivity
  obtain ⟨hnonneg, hlt⟩ := toNat_int_bounds a
  have h := bvRightShift_means (s := l) ha.means hnonneg hlt (by omega)
  rw [udiv_eq (haw.trans hcw.symm) hne, hc]
  push_cast
  exact h

theorem uremByPower_spec (hl : l < w) (hcw : c.width = w) (hc : c.toNat = 2 ^ l) (ht : t.bvLength = w) :
    (l = 0 → ∀ (env : Interpretation) (a : APInt), Denotes env t a →
      Denotes env (bvZero w) (.map₂ BvOp.urem.apply a c)) ∧
    (l ≠ 0 → (SolverTerm.concat (bvZero (w - l)) (bvExtract t (l - 1) 0)).bvLength = w ∧
      ∀ (env : Interpretation) (a : APInt), Denotes env t a →
        Denotes env (.concat (bvZero (w - l)) (bvExtract t (l - 1) 0)) (.map₂ BvOp.urem.apply a c)) := by
  have hvalue : ∀ a : APInt, a.width = w → APInt.map₂ BvOp.urem.apply a c = bits w ((a.toNat : Int) % 2 ^ l) :=
    fun a haw => by
      rw [urem_eq (haw.trans hcw.symm), haw, hc]
      push_cast
      rfl
  refine ⟨fun hl0 env a ha => ?_, fun hl0 => ⟨?_, fun env a ha => ?_⟩⟩
  · rw [hvalue a (ha.bvLength.symm.trans ht), hl0, pow_zero, Int.emod_one]
    exact bvZero_means (by omega)
  · show (bvZero (w - l)).bvLength + (l - 1 - 0 + 1) = w
    rw [bvLength_bvZero (by omega)]
    omega
  · have haw : a.width = w := ha.bvLength.symm.trans ht
    have hext := ha.means.extract (by omega : 0 ≤ l - 1) (by omega)
    rw [pow_zero, Int.ediv_one, show l - 1 - 0 + 1 = l by omega] at hext
    have hlow : Means env (bvExtract t (l - 1) 0) l ((a.toNat : Int) % 2 ^ l) :=
      hext.congr (Int.mod_modEq _ _).symm
    have hzero : Means env (bvZero (w - l)) (w - l) 0 := bvZero_means (by omega)
    have h := hzero.concat hlow (Int.emod_nonneg _ (by positivity)) (Int.emod_lt_of_pos _ (by positivity))
    rw [Int.zero_mul, Int.zero_add, show w - l + l = w by omega] at h
    rw [hvalue a haw]
    exact h

end Powers

end Backend

end CgsKlee
