import CgsKlee.Module.Value
import Mathlib.Tactic.Linarith

/-!
# Arithmetic with overflow

`IntrinsicCleanerPass::runOnBasicBlock` replaces the intrinsics for addition, subtraction and multiplication that report
an overflow by arithmetic of the double width, whose result is compared with the bounds of the single width, and those
that saturate by wrapping arithmetic and a test of the wrapped result.  Both are exact for every width: `lowering_exact`.
-/

namespace CgsKlee

open Smt

namespace IntrinsicCleaner

open InstValue

inductive WithOverflow
  | sadd_with_overflow | ssub_with_overflow | smul_with_overflow
  | uadd_with_overflow | usub_with_overflow | umul_with_overflow
  deriving DecidableEq, Repr

inductive Sat
  | sadd_sat | ssub_sat | uadd_sat | usub_sat
  deriving DecidableEq, Repr

def getMaxValue (bw : Nat) : InstValue := constant ⟨bw, BitVec.allOnes bw⟩

def getSignedMaxValue (bw : Nat) : InstValue := constant ⟨bw, BitVec.intMax bw⟩

def getSignedMinValue (bw : Nat) : InstValue := constant ⟨bw, BitVec.intMin bw⟩

/-- The result and the overflow bit of the struct. -/
def lowerWithOverflow (id : WithOverflow) (bw : Nat) : InstValue × InstValue :=
  let op1 := operand 0
  let op2 := operand 1
  let bw2 := bw * 2
  let createUnsigned (op : BinaryOps) : InstValue × InstValue :=
    let op1ext := zext op1 bw2
    let op2ext := zext op2 bw2
    let int_max := zext (getMaxValue bw) bw2
    let result_ext := binary op op1ext op2ext
    (trunc result_ext bw, icmp .ugt result_ext int_max)
  let createSigned (op : BinaryOps) : InstValue × InstValue :=
    let op1ext := sext op1 bw2
    let op2ext := sext op2 bw2
    let int_max := sext (getSignedMaxValue bw) bw2
    let int_min := sext (getSignedMinValue bw) bw2
    let result_ext := binary op op1ext op2ext
    (trunc result_ext bw, binary .or (icmp .sgt result_ext int_max) (icmp .slt result_ext int_min))
  match id with
  | .uadd_with_overflow => createUnsigned .add
  | .usub_with_overflow => createUnsigned .sub
  | .umul_with_overflow => createUnsigned .mul
  | .sadd_with_overflow => createSigned .add
  | .ssub_with_overflow => createSigned .sub
  | .smul_with_overflow => createSigned .mul

def createNot (v : InstValue) : InstValue := binary .xor v (constant (.ofBool true))

def lowerSat (id : Sat) (bw : Nat) : InstValue :=
  let op1 := operand 0
  let op2 := operand 1
  let zero := constant (.ofNat bw 0)
  let smin := getSignedMinValue bw
  let smax := getSignedMaxValue bw
  let sign1 := icmp .slt op1 zero
  let sign2 := icmp .slt op2 zero
  match id with
  | .usub_sat =>
    let result := binary .sub op1 op2
    let overflow := icmp .ult op1 op2 -- a < b  =>  a - b < 0
    select overflow zero result
  | .uadd_sat =>
    let result := binary .add op1 op2
    let overflow := icmp .ult result op1 -- a + b < a
    select overflow (getMaxValue bw) result
  | .ssub_sat =>
    let result := binary .sub op1 op2
    let signR := icmp .slt result zero
    let saturated := select sign2 smax smin
    -- the sign of the result differs from the sign of the first operand, and the signs of the operands differ
    let overflow := binary .and (binary .xor sign1 signR) (binary .xor sign1 sign2)
    select overflow saturated result
  | .sadd_sat =>
    let result := binary .add op1 op2
    let signR := icmp .slt result zero
    let saturated := select sign2 smin smax
    -- the sign of the result differs from the sign of the first operand, and the signs of the operands are the same
    let overflow := binary .and (binary .xor sign1 signR) (createNot (binary .xor sign1 sign2))
    select overflow saturated result

def WithOverflow.exact {bw : Nat} (a b : BitVec bw) : WithOverflow → Int
  | sadd_with_overflow => a.toInt + b.toInt
  | ssub_with_overflow => a.toInt - b.toInt
  | smul_with_overflow => a.toInt * b.toInt
  | uadd_with_overflow => a.toNat + b.toNat
  | usub_with_overflow => a.toNat - b.toNat
  | umul_with_overflow => a.toNat * b.toNat

def Sat.exact {bw : Nat} (a b : BitVec bw) : Sat → Int
  | sadd_sat => a.toInt + b.toInt
  | ssub_sat => a.toInt - b.toInt
  | uadd_sat => a.toNat + b.toNat
  | usub_sat => a.toNat - b.toNat

def range (signed : Bool) (bw : Nat) : Int × Int :=
  if signed then (-2 ^ (bw - 1), 2 ^ (bw - 1) - 1) else (0, 2 ^ bw - 1)

def WithOverflow.signed : WithOverflow → Bool
  | sadd_with_overflow | ssub_with_overflow | smul_with_overflow => true
  | uadd_with_overflow | usub_with_overflow | umul_with_overflow => false

def Sat.signed : Sat → Bool
  | sadd_sat | ssub_sat => true
  | uadd_sat | usub_sat => false

def Fits (signed : Bool) (bw : Nat) (z : Int) : Prop := (range signed bw).1 ≤ z ∧ z ≤ (range signed bw).2

instance (signed : Bool) (bw : Nat) (z : Int) : Decidable (Fits signed bw z) := instDecidableAnd

def clamp (signed : Bool) (bw : Nat) (z : Int) : Int := max (range signed bw).1 (min z (range signed bw).2)

def operands {bw : Nat} (a b : BitVec bw) : Nat → APInt := fun i => if i = 0 then ⟨bw, a⟩ else ⟨bw, b⟩

section Operands

variable {bw : Nat} (a b : BitVec bw)

theorem op1_toNat : Reads (operands a b) (operand 0) bw a.toNat :=
  congrArg (APInt.mk bw) (BitVec.eq_of_toNat_eq (by simp))

theorem op2_toNat : Reads (operands a b) (operand 1) bw b.toNat :=
  congrArg (APInt.mk bw) (BitVec.eq_of_toNat_eq (by simp))

theorem op1_toInt : Reads (operands a b) (operand 0) bw a.toInt := congrArg (APInt.mk bw) BitVec.ofInt_toInt.symm

theorem op2_toInt : Reads (operands a b) (operand 1) bw b.toInt := congrArg (APInt.mk bw) BitVec.ofInt_toInt.symm

theorem getMaxValue_reads (ops : Nat → APInt) : Reads ops (getMaxValue bw) bw (2 ^ bw - 1) := by
  refine Reads.constant bw _ (BitVec.eq_of_toNat_eq ?_)
  have hpos : (0 : Int) < 2 ^ bw := by positivity
  have hmax : ((BitVec.ofInt bw (2 ^ bw - 1)).toNat : Int) = 2 ^ bw - 1 := toNat_bits_of_lt (by omega) (by omega)
  rw [BitVec.toNat_allOnes, ← Int.natCast_inj, hmax, Nat.cast_sub (Nat.two_pow_pos bw)]
  push_cast
  rfl

theorem getSignedMaxValue_reads (ops : Nat → APInt) :
    Reads ops (getSignedMaxValue bw) bw (2 ^ (bw - 1) - 1) := by
  refine Reads.constant bw _ ?_
  rw [← BitVec.toInt_intMax, BitVec.ofInt_toInt]

theorem getSignedMinValue_reads (ops : Nat → APInt) (hbw : 1 ≤ bw) :
    Reads ops (getSignedMinValue bw) bw (-2 ^ (bw - 1)) := by
  refine Reads.constant bw _ ?_
  rw [← BitVec.toInt_intMin_of_pos (by omega), BitVec.ofInt_toInt]

end Operands

section DoubleWidth

variable {bw : Nat} {ops : Nat → APInt} {v : InstValue} {z : Int}

theorem two_pow_double (bw : Nat) : (2 : Int) ^ (bw * 2) = 2 ^ bw * 2 ^ bw := by
  rw [Nat.mul_two, pow_add]

theorem two_pow_pred (hbw : 1 ≤ bw) : (2 : Int) ^ bw = 2 * 2 ^ (bw - 1) := by
  conv_lhs => rw [show bw = bw - 1 + 1 by omega, pow_succ, mul_comm]

theorem exceeds_max (hbw : 1 ≤ bw) (h : Reads ops v (bw * 2) z) (hlo : -2 ^ bw < z) (hhi : z < 2 ^ (bw * 2)) :
    Decides ops (icmp .ugt v (zext (getMaxValue bw) (bw * 2))) (!decide (Fits false bw z)) := by
  have hpos : (2 : Int) ≤ 2 ^ bw := by
    rw [two_pow_pred hbw]
    have h1 : (1 : Int) ≤ 2 ^ (bw - 1) := one_le_pow₀ (by omega)
    omega
  have hsquare : (2 : Int) * 2 ^ bw ≤ 2 ^ (bw * 2) := by
    rw [two_pow_double]
    exact mul_le_mul_of_nonneg_right hpos (by omega)
  have hmax : Reads ops (zext (getMaxValue bw) (bw * 2)) (bw * 2) (2 ^ bw - 1) :=
    (getMaxValue_reads ops).zext (by omega) (by omega) _
  refine (h.ugt hmax).congr ?_
  rw [Int.emod_eq_of_lt (by omega : (0 : Int) ≤ 2 ^ bw - 1) (by omega), ← decide_not]
  refine decide_eq_decide.mpr ?_
  simp only [Fits, range, Bool.false_eq_true, if_false]
  rcases Int.lt_or_le z 0 with hneg | hnonneg
  · have hmod : z % 2 ^ (bw * 2) = z + 2 ^ (bw * 2) := by
      rw [← Int.add_emod_right z, Int.emod_eq_of_lt (by omega) (by omega)]
    rw [hmod]
    omega
  · rw [Int.emod_eq_of_lt hnonneg hhi]
    omega

theorem exceeds_bounds (hbw : 1 ≤ bw) (h : Reads ops v (bw * 2) z) (hlo : -2 ^ (bw * 2 - 1) ≤ z)
    (hhi : z < 2 ^ (bw * 2 - 1)) :
    Decides ops (binary .or (icmp .sgt v (sext (getSignedMaxValue bw) (bw * 2)))
      (icmp .slt v (sext (getSignedMinValue bw) (bw * 2)))) (!decide (Fits true bw z)) := by
  have hpos : (1 : Int) ≤ 2 ^ (bw - 1) := one_le_pow₀ (by omega)
  have hle : (2 : Int) ^ (bw - 1) ≤ 2 ^ (bw * 2 - 1) := pow_le_pow_right₀ (by omega) (by omega)
  have hmax : Reads ops (sext (getSignedMaxValue bw) (bw * 2)) (bw * 2) (2 ^ (bw - 1) - 1) :=
    (getSignedMaxValue_reads ops).sext (by omega) (by omega) (by omega) (by omega)
  have hmin : Reads ops (sext (getSignedMinValue bw) (bw * 2)) (bw * 2) (-2 ^ (bw - 1)) :=
    (getSignedMinValue_reads ops hbw).sext (by omega) (by omega) (by omega) (by omega)
  have hgt := h.sgt hmax (by omega) hlo hhi (by omega) (by omega)
  have hlt := h.slt hmin (by omega) hlo hhi (by omega) (by omega)
  refine (hgt.or hlt).congr ?_
  rw [← Bool.decide_or, ← decide_not]
  refine decide_eq_decide.mpr ?_
  simp only [Fits, range, if_true]
  omega

end DoubleWidth

section Overflow

variable {bw : Nat} (hbw : 1 ≤ bw) (a b : BitVec bw)

include hbw

theorem unsigned_exact {op : BinaryOps} {z : Int} (hlo : -2 ^ bw < z) (hhi : z < 2 ^ (bw * 2))
    (hop : ∀ {v u : InstValue}, Reads (operands a b) v (bw * 2) a.toNat → Reads (operands a b) u (bw * 2) b.toNat →
      Reads (operands a b) (binary op v u) (bw * 2) z) :
    let result_ext := binary op (zext (operand 0) (bw * 2)) (zext (operand 1) (bw * 2))
    Reads (operands a b) (trunc result_ext bw) bw z ∧
      Decides (operands a b) (icmp .ugt result_ext (zext (getMaxValue bw) (bw * 2))) (!decide (Fits false bw z)) := by
  have ha : (a.toNat : Int) < 2 ^ bw := by exact_mod_cast a.isLt
  have hb : (b.toNat : Int) < 2 ^ bw := by exact_mod_cast b.isLt
  have hresult := hop ((op1_toNat a b).zext (by omega) ha _) ((op2_toNat a b).zext (by omega) hb _)
  exact ⟨hresult.trunc (by omega), exceeds_max hbw hresult hlo hhi⟩

theorem signed_exact {op : BinaryOps} {z : Int} (hlo : -2 ^ (bw * 2 - 1) ≤ z) (hhi : z < 2 ^ (bw * 2 - 1))
    (hop : ∀ {v u : InstValue}, Reads (operands a b) v (bw * 2) a.toInt → Reads (operands a b) u (bw * 2) b.toInt →
      Reads (operands a b) (binary op v u) (bw * 2) z) :
    let result_ext := binary op (sext (operand 0) (bw * 2)) (sext (operand 1) (bw * 2))
    Reads (operands a b) (trunc result_ext bw) bw z ∧
      Decides (operands a b) (binary .or (icmp .sgt result_ext (sext (getSignedMaxValue bw) (bw * 2)))
        (icmp .slt result_ext (sext (getSignedMinValue bw) (bw * 2)))) (!decide (Fits true bw z)) := by
  have hresult := hop ((op1_toInt a b).sext (by omega) (BitVec.le_toInt a) BitVec.toInt_lt (by omega))
    ((op2_toInt a b).sext (by omega) (BitVec.le_toInt b) BitVec.toInt_lt (by omega))
  exact ⟨hresult.trunc (by omega), exceeds_bounds hbw hresult hlo hhi⟩

theorem withOverflow_exact (id : WithOverflow) :
    Reads (operands a b) (lowerWithOverflow id bw).1 bw (id.exact a b) ∧
      Decides (operands a b) (lowerWithOverflow id bw).2 (!decide (Fits id.signed bw (id.exact a b))) := by
  have hM : (2 : Int) ≤ 2 ^ bw := by
    rw [two_pow_pred hbw]
    have h1 : (1 : Int) ≤ 2 ^ (bw - 1) := one_le_pow₀ (by omega)
    omega
  have hsquare : (2 : Int) ^ (bw * 2) = 2 ^ bw * 2 ^ bw := two_pow_double bw
  have hdouble : (2 : Int) * 2 ^ bw ≤ 2 ^ (bw * 2) := by
    rw [hsquare]
    exact mul_le_mul_of_nonneg_right hM (by omega)
  have ha : (a.toNat : Int) < 2 ^ bw := by exact_mod_cast a.isLt
  have hb : (b.toNat : Int) < 2 ^ bw := by exact_mod_cast b.isLt
  -- the bounds of the signed operands, and of the double width
  have hH : (1 : Int) ≤ 2 ^ (bw - 1) := one_le_pow₀ (by omega)
  have hK : (2 : Int) ^ (bw * 2 - 1) = 2 * (2 ^ (bw - 1) * 2 ^ (bw - 1)) := by
    rw [← pow_add, ← pow_succ', show bw - 1 + (bw - 1) + 1 = bw * 2 - 1 by omega]
  have hHK : (2 : Int) ^ (bw - 1) ≤ 2 ^ (bw - 1) * 2 ^ (bw - 1) := le_mul_of_one_le_left (by omega) hH
  have halo := BitVec.le_toInt a
  have hahi : a.toInt < 2 ^ (bw - 1) := BitVec.toInt_lt
  have hblo := BitVec.le_toInt b
  have hbhi : b.toInt < 2 ^ (bw - 1) := BitVec.toInt_lt
  cases id with
  | uadd_with_overflow =>
    have hlo : -2 ^ bw < (a.toNat : Int) + b.toNat := by omega
    have hhi : (a.toNat : Int) + b.toNat < 2 ^ (bw * 2) := by omega
    exact unsigned_exact hbw a b hlo hhi fun hv hu => hv.add hu
  | usub_with_overflow =>
    have hlo : -2 ^ bw < (a.toNat : Int) - b.toNat := by omega
    have hhi : (a.toNat : Int) - b.toNat < 2 ^ (bw * 2) := by omega
    exact unsigned_exact hbw a b hlo hhi fun hv hu => hv.sub hu
  | umul_with_overflow =>
    have hnonneg : (0 : Int) ≤ a.toNat * b.toNat := by positivity
    have hlt : (a.toNat : Int) * b.toNat < 2 ^ (bw * 2) := by
      rw [hsquare]
      exact mul_lt_mul'' ha hb (by omega) (by omega)
    have hlo : -2 ^ bw < (a.toNat : Int) * b.toNat := by omega
    exact unsigned_exact hbw a b hlo hlt fun hv hu => hv.mul hu
  | sadd_with_overflow =>
    have hlo : -2 ^ (bw * 2 - 1) ≤ a.toInt + b.toInt := by omega
    have hhi : a.toInt + b.toInt < 2 ^ (bw * 2 - 1) := by omega
    exact signed_exact hbw a b hlo hhi fun hv hu => hv.add hu
  | ssub_with_overflow =>
    have hlo : -2 ^ (bw * 2 - 1) ≤ a.toInt - b.toInt := by omega
    have hhi : a.toInt - b.toInt < 2 ^ (bw * 2 - 1) := by omega
    exact signed_exact hbw a b hlo hhi fun hv hu => hv.sub hu
  | smul_with_overflow =>
    have hproduct : |a.toInt * b.toInt| ≤ 2 ^ (bw - 1) * 2 ^ (bw - 1) := by
      rw [abs_mul]
      exact mul_le_mul (abs_le.mpr ⟨halo, hahi.le⟩) (abs_le.mpr ⟨hblo, hbhi.le⟩) (abs_nonneg _) (by omega)
    obtain ⟨habs, habs'⟩ := abs_le.mp hproduct
    have hlo : -2 ^ (bw * 2 - 1) ≤ a.toInt * b.toInt := by omega
    have hhi : a.toInt * b.toInt < 2 ^ (bw * 2 - 1) := by omega
    exact signed_exact hbw a b hlo hhi fun hv hu => hv.mul hu

end Overflow

section Saturation

variable {bw : Nat} (hbw : 1 ≤ bw) (a b : BitVec bw)

theorem zero_reads (ops : Nat → APInt) : Reads ops (constant (.ofNat bw 0)) bw 0 := Reads.constant bw _ rfl

theorem Decides.not {ops : Nat → APInt} {v : InstValue} {p : Bool} (h : Decides ops v p) :
    Decides ops (createNot v) (!p) := by
  have htrue : Decides ops (constant (.ofBool true)) true := rfl
  exact (h.xor htrue).congr (Bool.xor_true p)

theorem usub_sat_exact : Reads (operands a b) (lowerSat .usub_sat bw) bw (clamp false bw (a.toNat - b.toNat)) := by
  have ha : (a.toNat : Int) < 2 ^ bw := by exact_mod_cast a.isLt
  have hb : (b.toNat : Int) < 2 ^ bw := by exact_mod_cast b.isLt
  have hoverflow := (op1_toNat a b).ult (op2_toNat a b)
  rw [Int.emod_eq_of_lt (by omega) ha, Int.emod_eq_of_lt (by omega) hb] at hoverflow
  have hselect := Reads.select hoverflow (zero_reads _) ((op1_toNat a b).sub (op2_toNat a b))
  refine hselect.congr (congrArg (· % 2 ^ bw) ?_)
  simp only [clamp, range, Bool.false_eq_true, if_false, decide_eq_true_eq]
  split <;> omega

theorem uadd_sat_exact : Reads (operands a b) (lowerSat .uadd_sat bw) bw (clamp false bw (a.toNat + b.toNat)) := by
  have ha : (a.toNat : Int) < 2 ^ bw := by exact_mod_cast a.isLt
  have hb : (b.toNat : Int) < 2 ^ bw := by exact_mod_cast b.isLt
  have hresult := (op1_toNat a b).add (op2_toNat a b)
  have hoverflow := hresult.ult (op1_toNat a b)
  rw [Int.emod_eq_of_lt (by omega) ha] at hoverflow
  have hselect := Reads.select hoverflow (getMaxValue_reads _) hresult
  refine hselect.congr (congrArg (· % 2 ^ bw) ?_)
  simp only [clamp, range, Bool.false_eq_true, if_false, decide_eq_true_eq]
  rcases Int.lt_or_le ((a.toNat : Int) + b.toNat) (2 ^ bw) with hfits | hwraps
  · rw [Int.emod_eq_of_lt (by omega) hfits]
    split <;> omega
  · have hmod : ((a.toNat : Int) + b.toNat) % 2 ^ bw = a.toNat + b.toNat - 2 ^ bw := by
      rw [← Int.sub_emod_right, Int.emod_eq_of_lt (by omega) (by omega)]
    rw [hmod]
    split <;> omega

include hbw

theorem sign_reads {ops : Nat → APInt} {v : InstValue} {z : Int} (h : Reads ops v bw z) (hlo : -2 ^ bw ≤ z)
    (hhi : z < 2 ^ bw) : Decides ops (icmp .slt v (constant (.ofNat bw 0)))
      (decide (-2 ^ (bw - 1) ≤ z ∧ z < 0 ∨ 2 ^ (bw - 1) ≤ z)) := by
  have hH : (1 : Int) ≤ 2 ^ (bw - 1) := one_le_pow₀ (by omega)
  have hM := two_pow_pred hbw
  obtain ⟨s, hs, hslo, hshi, hsign⟩ : ∃ s : Int, z ≡ s [ZMOD 2 ^ bw] ∧ -2 ^ (bw - 1) ≤ s ∧ s < 2 ^ (bw - 1) ∧
      (s < 0 ↔ -2 ^ (bw - 1) ≤ z ∧ z < 0 ∨ 2 ^ (bw - 1) ≤ z) := by
    rcases Int.lt_or_le z (-2 ^ (bw - 1)) with hlow | hhigh
    · exact ⟨z + 2 ^ bw, Int.modEq_iff_dvd.mpr ⟨1, by ring⟩, by omega, by omega, by omega⟩
    · rcases Int.lt_or_le z (2 ^ (bw - 1)) with hmid | htop
      · exact ⟨z, Int.ModEq.refl z, by omega, by omega, by omega⟩
      · exact ⟨z - 2 ^ bw, Int.modEq_iff_dvd.mpr ⟨-1, by ring⟩, by omega, by omega, by omega⟩
  exact ((h.congr hs).slt (zero_reads ops) hbw hslo hshi (by omega) (by omega)).congr (decide_eq_decide.mpr hsign)

theorem sadd_sat_exact : Reads (operands a b) (lowerSat .sadd_sat bw) bw (clamp true bw (a.toInt + b.toInt)) := by
  have hH : (1 : Int) ≤ 2 ^ (bw - 1) := one_le_pow₀ (by omega)
  have hM := two_pow_pred hbw
  have halo := BitVec.le_toInt a
  have hahi : a.toInt < 2 ^ (bw - 1) := BitVec.toInt_lt
  have hblo := BitVec.le_toInt b
  have hbhi : b.toInt < 2 ^ (bw - 1) := BitVec.toInt_lt
  have hresult := (op1_toInt a b).add (op2_toInt a b)
  have hsign1 := (op1_toInt a b).slt (zero_reads _) hbw halo hahi (by omega) (by omega)
  have hsign2 := (op2_toInt a b).slt (zero_reads _) hbw hblo hbhi (by omega) (by omega)
  have hsignR := sign_reads hbw hresult (by omega) (by omega)
  have hoverflow := (hsign1.xor hsignR).and (Decides.not (hsign1.xor hsign2))
  have hsaturated := Reads.select hsign2 (getSignedMinValue_reads _ hbw) (getSignedMaxValue_reads _)
  refine (Reads.select hoverflow hsaturated hresult).congr (congrArg (· % 2 ^ bw) ?_)
  simp only [clamp, range, if_true, Bool.and_eq_true, Bool.not_eq_true', bne_iff_ne, ne_eq, decide_eq_decide,
    decide_eq_true_eq, bne_eq_false_iff_eq]
  split_ifs <;> omega

theorem ssub_sat_exact : Reads (operands a b) (lowerSat .ssub_sat bw) bw (clamp true bw (a.toInt - b.toInt)) := by
  have hH : (1 : Int) ≤ 2 ^ (bw - 1) := one_le_pow₀ (by omega)
  have hM := two_pow_pred hbw
  have halo := BitVec.le_toInt a
  have hahi : a.toInt < 2 ^ (bw - 1) := BitVec.toInt_lt
  have hblo := BitVec.le_toInt b
  have hbhi : b.toInt < 2 ^ (bw - 1) := BitVec.toInt_lt
  have hresult := (op1_toInt a b).sub (op2_toInt a b)
  have hsign1 := (op1_toInt a b).slt (zero_reads _) hbw halo hahi (by omega) (by omega)
  have hsign2 := (op2_toInt a b).slt (zero_reads _) hbw hblo hbhi (by omega) (by omega)
  have hsignR := sign_reads hbw hresult (by omega) (by omega)
  have hoverflow := (hsign1.xor hsignR).and (hsign1.xor hsign2)
  have hsaturated := Reads.select hsign2 (getSignedMaxValue_reads _) (getSignedMinValue_reads _ hbw)
  refine (Reads.select hoverflow hsaturated hresult).congr (congrArg (· % 2 ^ bw) ?_)
  simp only [clamp, range, if_true, Bool.and_eq_true, bne_iff_ne, ne_eq, decide_eq_decide, decide_eq_true_eq]
  split_ifs <;> omega

theorem sat_exact (id : Sat) :
    Reads (operands a b) (lowerSat id bw) bw (clamp id.signed bw (id.exact a b)) := by
  cases id with
  | sadd_sat => exact sadd_sat_exact hbw a b
  | ssub_sat => exact ssub_sat_exact hbw a b
  | uadd_sat => exact uadd_sat_exact a b
  | usub_sat => exact usub_sat_exact a b

end Saturation

/-- For every width and all operands: the instructions for an intrinsic with overflow give the result modulo the width
and the bit that tells whether the result does not fit, those for a saturating intrinsic the nearest number that fits. -/
theorem lowering_exact {bw : Nat} (hbw : 1 ≤ bw) (a b : BitVec bw) :
    (∀ id : WithOverflow,
      (lowerWithOverflow id bw).1.eval (operands a b) = ⟨bw, BitVec.ofInt bw (id.exact a b)⟩ ∧
        (lowerWithOverflow id bw).2.eval (operands a b) = .ofBool (!decide (Fits id.signed bw (id.exact a b)))) ∧
    ∀ id : Sat,
      (lowerSat id bw).eval (operands a b) = ⟨bw, BitVec.ofInt bw (clamp id.signed bw (id.exact a b))⟩ :=
  ⟨fun id => withOverflow_exact hbw a b id, fun id => sat_exact hbw a b id⟩

theorem lowering_exact_one :
    (lowerWithOverflow .smul_with_overflow 1).2.eval (operands 1#1 1#1) = .ofBool true ∧
      (lowerSat .sadd_sat 1).eval (operands 1#1 1#1) = ⟨1, 1#1⟩ :=
  ⟨(lowering_exact (Nat.le_refl 1) 1#1 1#1).1 .smul_with_overflow |>.2,
    (lowering_exact (Nat.le_refl 1) 1#1 1#1).2 .sadd_sat⟩

end IntrinsicCleaner

end CgsKlee
