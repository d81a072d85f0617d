import CgsKlee.Solver.BuildersAgree

/-!
# Over-shifts

A shift by the width or more.  `ConstantExpr` fills the result with zeros or with the sign, while `STPBuilder` takes a
constant amount for a word of 32 bits and shifts everything out to zero, the sign included.  The two agree exactly if
the value survives both (`BinaryKind.OverShiftAgrees`).
-/

namespace CgsKlee

open Smt

section Words

variable {w k : Nat} {x : BitVec w}

def signFill (x : BitVec w) : BitVec w := if x.toInt < 0 then BitVec.allOnes w else 0

theorem toInt_signFill (hw : 0 < w) : (signFill x).toInt = if x.toInt < 0 then -1 else 0 := by
  unfold signFill
  split
  · rw [BitVec.toInt_allOnes, if_pos hw]
  · exact BitVec.toInt_zero

theorem shiftLeft_eq_zero_iff (h : k < w) : x <<< k = 0 ↔ 2 ^ (w - k) ∣ x.toNat := by
  have hpow : 2 ^ w = 2 ^ (w - k) * 2 ^ k := by rw [← Nat.pow_add, Nat.sub_add_cancel h.le]
  rw [BitVec.toNat_eq, BitVec.toNat_shiftLeft, Nat.shiftLeft_eq, hpow]
  show _ % _ = 0 ↔ _
  rw [← Nat.dvd_iff_mod_eq_zero]
  exact Nat.mul_dvd_mul_iff_right (Nat.two_pow_pos k)

theorem ushiftRight_eq_zero_iff : x >>> k = 0 ↔ x.toNat < 2 ^ k := by
  rw [BitVec.toNat_eq, BitVec.toNat_ushiftRight, Nat.shiftRight_eq_div_pow]
  exact Nat.div_eq_zero_iff_lt (Nat.two_pow_pos k)

theorem sshiftRight_eq_signFill_iff (hw : 0 < w) :
    x.sshiftRight k = signFill x ↔ -2 ^ k ≤ x.toInt ∧ x.toInt < 2 ^ k := by
  have hpow : (0 : Int) < 2 ^ k := by positivity
  rw [← BitVec.toInt_inj, BitVec.toInt_sshiftRight, toInt_signFill hw, Int.shiftRight_eq_div_pow]
  push_cast
  split
  · rename_i hneg
    constructor
    · intro h
      have hlt := Int.lt_ediv_add_one_mul_self x.toInt hpow
      have hle := Int.ediv_mul_le x.toInt hpow.ne'
      rw [h] at hle
      omega
    · rintro ⟨hlo, -⟩
      refine le_antisymm ?_ ?_
      · exact Int.le_of_lt_add_one (Int.ediv_lt_of_lt_mul hpow (by omega))
      · exact (Int.le_ediv_iff_mul_le hpow).mpr (by omega)
  · rename_i hnonneg
    constructor
    · intro h
      have hlt := Int.lt_ediv_add_one_mul_self x.toInt hpow
      rw [h] at hlt
      omega
    · rintro ⟨-, hhi⟩
      exact Int.ediv_eq_zero_of_lt (by omega) hhi

theorem zero_eq_signFill_iff (hw : 0 < w) : 0 = signFill x ↔ 0 ≤ x.toInt := by
  have hzero : (0 : BitVec w).toInt = 0 := BitVec.toInt_zero
  rw [← BitVec.toInt_inj, toInt_signFill hw, hzero]
  split <;> omega

theorem sshiftRight_over (hw : 0 < w) (h : w ≤ k) : x.sshiftRight k = signFill x := by
  have hpow : (2 : Int) ^ w ≤ 2 ^ k := pow_le_pow_right₀ (by decide) h
  have hlo := BitVec.le_toInt x
  have hhi := BitVec.toInt_lt (x := x)
  have hhalf : (2 : Int) ^ (w - 1) ≤ 2 ^ w := pow_le_pow_right₀ (by decide) (by omega)
  exact (sshiftRight_eq_signFill_iff hw).mpr ⟨by omega, by omega⟩

end Words

def BinaryKind.overShifted (kind : BinaryKind) (a : APInt) : APInt :=
  match kind with
  | .ashr => ⟨a.width, signFill a.value⟩
  | _ => .ofNat a.width 0

/-- What is left after a shift of `a` by the amount `k` that the solver is given is what an over-shift leaves.  It has
to be said for amounts below the width too, as an amount that is cut to 32 bits may become one. -/
def BinaryKind.OverShiftAgrees (kind : BinaryKind) (a : APInt) (k : Nat) : Prop :=
  match kind with
  | .shl => k < a.width → 2 ^ (a.width - k) ∣ a.toNat
  | .lshr => k < a.width → a.toNat < 2 ^ k
  | .ashr => if k < a.width then -2 ^ k ≤ a.value.toInt ∧ a.value.toInt < 2 ^ k else 0 ≤ a.value.toInt
  | _ => True

variable {kind : BinaryKind} {a c : APInt}

theorem apply_overShift (hk : kind.isShift = true) (hpos : 0 < a.width) (hw : a.width = c.width)
    (hover : a.width ≤ c.toNat) : APInt.map₂ kind.apply a c = kind.overShifted a := by
  obtain ⟨w, x⟩ := a
  obtain ⟨y, rfl⟩ := APInt.exists_value hw.symm
  have hover' : w ≤ y.toNat := hover
  rw [APInt.map₂_mk]
  cases kind with
  | shl =>
    have hzero : x <<< y = 0#w := by
      rw [BitVec.shiftLeft_eq']
      exact BitVec.shiftLeft_eq_zero hover'
    exact congrArg (APInt.mk w) hzero
  | lshr =>
    have hzero : x >>> y = 0#w := by
      rw [BitVec.ushiftRight_eq']
      exact BitVec.ushiftRight_eq_zero hover'
    exact congrArg (APInt.mk w) hzero
  | ashr => exact congrArg (APInt.mk w) (sshiftRight_over hpos hover')
  | _ => cases hk

theorem solverValue_overShift (hk : kind.isShift = true) (hpos : 0 < a.width) (right : Expr) :
    kind.solverValue right a c = kind.overShifted a ↔ kind.OverShiftAgrees a (shiftAmount right c) := by
  obtain ⟨w, x⟩ := a
  generalize hamount : shiftAmount right c = k
  cases kind with
  | shl =>
    show shiftLeft ⟨w, x⟩ (shiftAmount right c) = ⟨w, 0⟩ ↔ (k < w → 2 ^ (w - k) ∣ x.toNat)
    rw [hamount]
    unfold shiftLeft
    split
    · rename_i hlt
      simp only [APInt.mk.injEq, heq_eq_eq, true_and]
      exact (shiftLeft_eq_zero_iff hlt).trans ⟨fun h _ => h, fun h => h hlt⟩
    · rename_i hge
      exact ⟨fun _ hlt => absurd hlt hge, fun _ => rfl⟩
  | lshr =>
    show shiftRight ⟨w, x⟩ (shiftAmount right c) = ⟨w, 0⟩ ↔ (k < w → x.toNat < 2 ^ k)
    rw [hamount]
    unfold shiftRight
    split
    · rename_i hlt
      simp only [APInt.mk.injEq, heq_eq_eq, true_and]
      exact ushiftRight_eq_zero_iff.trans ⟨fun h _ => h, fun h => h hlt⟩
    · rename_i hge
      exact ⟨fun _ hlt => absurd hlt hge, fun _ => rfl⟩
  | ashr =>
    show arithShiftRight ⟨w, x⟩ (shiftAmount right c) = ⟨w, signFill x⟩ ↔
      if k < w then -2 ^ k ≤ x.toInt ∧ x.toInt < 2 ^ k else 0 ≤ x.toInt
    rw [hamount]
    unfold arithShiftRight
    split
    · simp only [APInt.mk.injEq, heq_eq_eq, true_and]
      exact sshiftRight_eq_signFill_iff hpos
    · simp only [APInt.ofNat, APInt.mk.injEq, heq_eq_eq, true_and]
      exact zero_eq_signFill_iff hpos
  | _ => cases hk

theorem overShiftAgrees_over (hk : kind.isShift = true) {k : Nat} (h : a.width ≤ k) :
    kind.OverShiftAgrees a k ↔ (kind = .ashr → 0 ≤ a.value.toInt) := by
  have hge : ¬k < a.width := by omega
  cases kind with
  | shl | lshr => simp [BinaryKind.OverShiftAgrees, hge]
  | ashr =>
    simp only [BinaryKind.OverShiftAgrees]
    rw [if_neg hge]
    simp
  | _ => cases hk

namespace Backend

variable {b : Backend} {env : Interpretation} {left amount : SolverTerm} {rightExpr : Expr} {w : Nat}

theorem constructShift_denotes (value : APInt → Nat → APInt) {byConstant : Nat → SolverTerm → Nat → SolverTerm}
    {byTerm : SolverTerm → SolverTerm → Option SolverTerm}
    (hconst : IsConstantShift byConstant value) (hterm : IsVarShift byTerm value) (hw : 1 < w) (ha : a.width = w)
    (hc : c.width = w) (hleft : Denotes env left a) (hamount : Denotes env amount c) (s : BuilderState) :
    ∃ t, constructShift byConstant byTerm rightExpr (pure (left, w)) (pure (amount, w)) s = some ((t, w), s) ∧
      Denotes env t (value a (shiftAmount rightExpr c)) := by
  have hlen : left.bvLength = w := hleft.bvLength.trans ha
  unfold constructShift shiftAmount
  rw [run_bind (show (pure (left, w) : BuilderM Built) s = some ((left, w), s) from rfl)]
  dsimp only
  rw [if_neg (by omega)]
  cases hright : rightExpr.asConstant with
  | some d => exact ⟨_, rfl, (hconst hw hlen).2 env a hleft⟩
  | none =>
    obtain ⟨t, ht, -, hvalue⟩ := hterm hw hlen (hamount.bvLength.trans hc)
    refine ⟨t, ?_, hvalue env a c hleft hamount⟩
    dsimp only
    rw [run_bind (show (pure (amount, w) : BuilderM Built) s = some ((amount, w), s) from rfl)]
    dsimp only
    rw [run_lift ht]
    rfl

theorem constructBinary_shift (hb : b.Sound) (hk : kind.isShift = true) (hw : 1 < w) (ha : a.width = w)
    (hc : c.width = w) (hleft : Denotes env left a) (hamount : Denotes env amount c) (leftExpr rightExpr : Expr)
    (s : BuilderState) :
    ∃ t, b.constructBinary kind leftExpr rightExpr (pure (left, w)) (pure (amount, w)) s = some ((t, w), s) ∧
      Denotes env t (kind.solverValue rightExpr a c) := by
  cases kind with
  | shl =>
    exact constructShift_denotes shiftLeft bvLeftShift_isConstantShift hb.varLeftShift hw ha hc hleft hamount s
  | lshr =>
    exact constructShift_denotes shiftRight bvRightShift_isConstantShift hb.varRightShift hw ha hc hleft hamount s
  | ashr =>
    exact constructShift_denotes arithShiftRight (ashrByConstant_isConstantShift hb) hb.varArithRightShift hw ha hc hleft
      hamount s
  | _ => cases hk

theorem constructBinary_overShift (hb : b.Sound) (hk : kind.isShift = true) (hw : 1 < w) (ha : a.width = w)
    (hc : c.width = w) (hover : w ≤ c.toNat) (hleft : Denotes env left a) (hamount : Denotes env amount c)
    (leftExpr rightExpr : Expr) (s : BuilderState) :
    ∃ t v, b.constructBinary kind leftExpr rightExpr (pure (left, w)) (pure (amount, w)) s = some ((t, w), s) ∧
      Denotes env t v ∧
      (v = APInt.map₂ kind.apply a c ↔ kind.OverShiftAgrees a (shiftAmount rightExpr c)) := by
  obtain ⟨t, ht, hden⟩ := constructBinary_shift hb hk hw ha hc hleft hamount leftExpr rightExpr s
  refine ⟨t, _, ht, hden, ?_⟩
  rw [apply_overShift hk (by omega) (ha.trans hc.symm) (by omega)]
  exact solverValue_overShift hk (by omega) rightExpr

end Backend

namespace STPBuilder

variable {env : Interpretation} {left amount : SolverTerm} {w : Nat}

/-- An over-shift by a constant or by a variable amount has the value that the evaluator computes exactly if nothing but
the sign is left of the operand after a shift by the amount that STP is given, and no sign is lost. -/
theorem overShift_agrees_iff (useConstructHash optimizeDivides : Bool) (hk : kind.isShift = true) (hw : 2 ≤ w)
    (ha : a.width = w) (hc : c.width = w) (hover : w ≤ c.toNat) (hleft : Denotes env left a)
    (hamount : Denotes env amount c) (leftExpr rightExpr : Expr) (hvar : rightExpr.asConstant = none)
    (s : BuilderState) :
    (∃ t v, (backend useConstructHash optimizeDivides).constructBinary kind leftExpr (.constant c) (pure (left, w))
        (pure (amount, w)) s = some ((t, w), s) ∧ Denotes env t v ∧
      (v = APInt.map₂ kind.apply a c ↔ kind.OverShiftAgrees a (Backend.shiftConstant c))) ∧
    ∃ t v, (backend useConstructHash optimizeDivides).constructBinary kind leftExpr rightExpr (pure (left, w))
        (pure (amount, w)) s = some ((t, w), s) ∧ Denotes env t v ∧
      (v = APInt.map₂ kind.apply a c ↔ (kind = .ashr → 0 ≤ a.value.toInt)) := by
  have hb := backend_sound useConstructHash optimizeDivides
  refine ⟨Backend.constructBinary_overShift hb hk hw ha hc hover hleft hamount leftExpr (.constant c) s, ?_⟩
  have hshift : shiftAmount rightExpr c = c.toNat := by
    unfold shiftAmount
    rw [hvar]
  obtain ⟨t, v, ht, hden, hiff⟩ :=
    Backend.constructBinary_overShift hb hk hw ha hc hover hleft hamount leftExpr rightExpr s
  rw [hshift, overShiftAgrees_over hk (by omega)] at hiff
  exact ⟨t, v, ht, hden, hiff⟩

def byteAt (i : Nat) : Expr := .read ⟨0, 4, 32, 8, []⟩ .nil (.ofNat 32 i)

def byteTerm (i : Nat) : SolverTerm := .read (.var "bytes0" 32 8) (.const 32 i)

def bytesOf (l : List Nat) : Interpretation := fun _ i => l.getD i 0

/-- A positive byte that is shifted by eight. -/
theorem overShift_agrees_positive :
    ∃ t v, (backend true true).constructBinary .ashr (byteAt 0) (byteAt 1) (pure (byteTerm 0, 8))
        (pure (byteTerm 1, 8)) .empty = some ((t, 8), .empty) ∧ Denotes (bytesOf [64, 8]) t v ∧
      v = APInt.map₂ BinaryKind.ashr.apply (.ofNat 8 64) (.ofNat 8 8) := by
  have hleft : Denotes (bytesOf [64, 8]) (byteTerm 0) (.ofNat 8 64) := rfl
  have hamount : Denotes (bytesOf [64, 8]) (byteTerm 1) (.ofNat 8 8) := rfl
  have hwidth : (APInt.ofNat 8 8).width = 8 := rfl
  obtain ⟨-, t, v, ht, hden, hiff⟩ := overShift_agrees_iff true true (show BinaryKind.ashr.isShift = true from rfl)
    (by decide) rfl hwidth (by decide) hleft hamount (byteAt 0) (byteAt 1) rfl .empty
  exact ⟨t, v, ht, hden, hiff.mpr fun _ => by decide⟩

/-- A negative byte that is shifted by eight, by a constant and by a variable amount, and a word that is shifted by the
constant `2 ^ 32`. -/
theorem overShift_diverges :
    (∃ t v, (backend true true).constructBinary .ashr (byteAt 0) (.constant (.ofNat 8 8)) (pure (byteTerm 0, 8))
        (pure (.const 8 8, 8)) .empty = some ((t, 8), .empty) ∧ Denotes (bytesOf [128, 8]) t v ∧
      v ≠ APInt.map₂ BinaryKind.ashr.apply (.ofNat 8 128) (.ofNat 8 8)) ∧
    (∃ t v, (backend true true).constructBinary .ashr (byteAt 0) (byteAt 1) (pure (byteTerm 0, 8))
        (pure (byteTerm 1, 8)) .empty = some ((t, 8), .empty) ∧ Denotes (bytesOf [128, 8]) t v ∧
      v ≠ APInt.map₂ BinaryKind.ashr.apply (.ofNat 8 128) (.ofNat 8 8)) ∧
    ∃ t v, (backend true true).constructBinary .shl (.cast .zext (byteAt 0) 64) (.constant (.ofNat 64 (2 ^ 32)))
        (pure (.concat (.const 56 0) (byteTerm 0), 64)) (pure (.const 64 (2 ^ 32), 64)) .empty =
          some ((t, 64), .empty) ∧ Denotes (bytesOf [1]) t v ∧
      v ≠ APInt.map₂ BinaryKind.shl.apply (.ofNat 64 1) (.ofNat 64 (2 ^ 32)) := by
  have hb := backend_sound true true
  have hleft : Denotes (bytesOf [128, 8]) (byteTerm 0) (.ofNat 8 128) := rfl
  have hword : Denotes (bytesOf [1]) (.concat (.const 56 0) (byteTerm 0)) (.ofNat 64 1) := rfl
  have hashr : BinaryKind.ashr.isShift = true := rfl
  have hshl : BinaryKind.shl.isShift = true := rfl
  have hwidth : (APInt.ofNat 8 8).width = 8 := rfl
  have hnegative : ¬(0 : Int) ≤ (BitVec.ofNat 8 128).toInt := by decide
  refine ⟨?_, ?_, ?_⟩
  · have hamount : Denotes (bytesOf [128, 8]) (.const 8 8) (.ofNat 8 8) := rfl
    obtain ⟨t, v, ht, hden, hiff⟩ := Backend.constructBinary_overShift hb hashr (by decide) rfl hwidth (by decide) hleft
      hamount (byteAt 0) (.constant (.ofNat 8 8)) .empty
    exact ⟨t, v, ht, hden, fun h => hnegative (hiff.mp h)⟩
  · have hamount : Denotes (bytesOf [128, 8]) (byteTerm 1) (.ofNat 8 8) := rfl
    obtain ⟨t, v, ht, hden, hiff⟩ := Backend.constructBinary_overShift hb hashr (by decide) rfl hwidth (by decide) hleft
      hamount (byteAt 0) (byteAt 1) .empty
    exact ⟨t, v, ht, hden, fun h => hnegative (hiff.mp h)⟩
  · have hwidth : (APInt.ofNat 64 (2 ^ 32)).width = 64 := rfl
    have hamount : Denotes (bytesOf [1]) (.const 64 (2 ^ 32)) (.ofNat 64 (2 ^ 32)) := rfl
    obtain ⟨t, v, ht, hden, hiff⟩ := Backend.constructBinary_overShift hb hshl (by decide) rfl hwidth (by decide) hword
      hamount (.cast .zext (byteAt 0) 64) (.constant (.ofNat 64 (2 ^ 32))) .empty
    refine ⟨t, v, ht, hden, fun h => ?_⟩
    have hdvd : 2 ^ 64 ∣ 1 := hiff.mp h (by decide)
    revert hdvd
    decide

end STPBuilder

end CgsKlee
