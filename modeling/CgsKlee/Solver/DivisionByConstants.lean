import CgsKlee.Lib.SolverTerms
import CgsKlee.Solver.ConstantDivision

/-!
# Division by constants

The two formulas of `constructUDivByConstant` and `constructSDivByConstant` in the arithmetic of words of 32 bits, with
the constants of `ConstantDivision.cpp`.  The unsigned one is the quotient, and the signed one the quotient truncated
towards zero.
-/

namespace CgsKlee

open Smt

/-- `n/d = (((n - t1) >> sh1) + t1) >> sh2`, with `t1 = MULUH(mprime, n)`. -/
def udivByConstant (mprime sh1 sh2 : Nat) (n : BitVec 32) : BitVec 32 :=
  let t1 := (BitVec.ofNat 64 mprime * n.setWidth 64).extractLsb' 32 32
  ((n - t1) >>> sh1 + t1) >>> sh2

/-- `q0 = (n_plus_mulsh >> shpost) - XSIGN(n)` and `n/d = (q0 ^ dsign) - dsign`, with
`n_plus_mulsh = n + MULSH(mprime, n)`. -/
def sdivByConstant (mprime dsign : Int) (shpost : Nat) (n : BitVec 32) : BitVec 32 :=
  let mulsh := (BitVec.ofInt 64 mprime * n.signExtend 64).extractLsb' 32 32
  let n_plus_mulsh := n + mulsh
  -- sign extend, shift, extract
  let shift_shpost := (n_plus_mulsh.signExtend 64 >>> shpost).extractLsb' 0 32
  let q0 := shift_shpost - if n.msb then BitVec.allOnes 32 else 0#32
  (q0 ^^^ BitVec.ofInt 32 dsign) - BitVec.ofInt 32 dsign

section Unsigned

variable {d mprime sh1 sh2 : Nat} {n : BitVec 32}

theorem toNat_upper (hm : mprime < 2 ^ 32) :
    ((BitVec.ofNat 64 mprime * n.setWidth 64).extractLsb' 32 32).toNat = n.toNat * mprime / 2 ^ 32 := by
  have hn := n.isLt
  have hproduct : n.toNat * mprime < 2 ^ 32 * 2 ^ 32 := Nat.mul_lt_mul'' hn hm
  have hmul : (BitVec.ofNat 64 mprime * n.setWidth 64).toNat = n.toNat * mprime := by
    rw [BitVec.toNat_mul, BitVec.toNat_ofNat, BitVec.toNat_setWidth, Nat.mod_eq_of_lt (by omega : mprime < 2 ^ 64),
      Nat.mod_eq_of_lt (by omega : n.toNat < 2 ^ 64), Nat.mul_comm, Nat.mod_eq_of_lt (by omega)]
  rw [BitVec.extractLsb'_toNat, hmul, Nat.shiftRight_eq_div_pow, Nat.mod_eq_of_lt]
  rw [Nat.div_lt_iff_lt_mul (by omega)]
  exact hproduct

theorem udivByConstant_eq (hd : 0 < d) (h : d < 2 ^ 32) : ∃ mprime sh1 sh2,
    ComputeUDivConstants32 d = some (mprime, sh1, sh2) ∧
      ∀ n : BitVec 32, (udivByConstant mprime sh1 sh2 n).toNat = n.toNat / d := by
  obtain ⟨mprime, sh1, sh2, hconst, hm, -, -, hquot⟩ := ComputeUDivConstants32_spec hd h
  refine ⟨mprime, sh1, sh2, hconst, fun n => ?_⟩
  obtain ⟨hle, hlt, heq⟩ := hquot n.toNat n.isLt
  have ht := toNat_upper (n := n) hm
  unfold udivByConstant
  generalize (BitVec.ofNat 64 mprime * n.setWidth 64).extractLsb' 32 32 = t at ht
  rw [← ht] at hle hlt heq
  have hsub : (n - t).toNat = n.toNat - t.toNat := BitVec.toNat_sub_of_le (BitVec.le_def.mpr hle)
  simp only [BitVec.toNat_ushiftRight, BitVec.toNat_add, hsub, Nat.shiftRight_eq_div_pow]
  rw [Nat.mod_eq_of_lt hlt, heq]

end Unsigned

section Signed

variable {w v o : Nat} {x : Int} {n : BitVec 32}

theorem extract_ofInt (h : o + v ≤ w) : (BitVec.ofInt w x).extractLsb' o v = BitVec.ofInt v (x / 2 ^ o) := by
  have hbits : (bits w x).extract o v = bits v (x / 2 ^ o) := extract_bits h
  simpa only [bits, APInt.extract, APInt.mk.injEq, heq_eq_eq, true_and] using hbits

theorem shiftRight_signExtend (n : BitVec 32) {s : Nat} (hs : s < 32) :
    (n.signExtend 64 >>> s).extractLsb' 0 32 = BitVec.ofInt 32 (n.toInt / 2 ^ s) := by
  have hshift : (n.signExtend 64 >>> s).extractLsb' 0 32 = (n.signExtend 64).extractLsb' s 32 := by
    refine BitVec.eq_of_getLsbD_eq fun i hi => ?_
    simp only [BitVec.getLsbD_extractLsb', BitVec.getLsbD_ushiftRight, Nat.zero_add]
  rw [hshift]
  exact extract_ofInt (by omega)

theorem mulsh_eq (mprime : Int) (n : BitVec 32) :
    (BitVec.ofInt 64 mprime * n.signExtend 64).extractLsb' 32 32 = BitVec.ofInt 32 (n.toInt * mprime / 2 ^ 32) := by
  have hmul : BitVec.ofInt 64 mprime * n.signExtend 64 = BitVec.ofInt 64 (n.toInt * mprime) := by
    rw [Int.mul_comm, BitVec.ofInt_mul]
    rfl
  rw [hmul, extract_ofInt (by omega)]

theorem xor_sub_sign (q : Int) (c : Prop) [Decidable c] :
    (BitVec.ofInt 32 q ^^^ BitVec.ofInt 32 (if c then -1 else 0)) - BitVec.ofInt 32 (if c then -1 else 0) =
      BitVec.ofInt 32 (if c then -q else q) := by
  by_cases hc : c
  · have hones : BitVec.ofInt 32 (-1) = BitVec.allOnes 32 := by decide
    rw [if_pos hc, if_pos hc, hones, BitVec.xor_allOnes, BitVec.ofInt_neg, BitVec.neg_eq_not_add]
    have hone : -BitVec.allOnes 32 = 1#32 := by decide
    rw [BitVec.sub_eq_add_neg, hone]
  · have hzero : BitVec.ofInt 32 0 = 0#32 := by decide
    rw [if_neg hc, if_neg hc, hzero, BitVec.xor_zero, BitVec.sub_zero]

theorem sdivByConstant_eq {d : Int} (hd : d ≠ 0) (hd1 : d ≠ 1) (hd2 : d ≠ -1) (h : -2 ^ 31 ≤ d) (h' : d < 2 ^ 31) :
    ∃ mprime dsign shpost, ComputeSDivConstants32 d = some (mprime, dsign, shpost) ∧
      ∀ n : BitVec 32, sdivByConstant mprime dsign shpost n = BitVec.ofInt 32 (n.toInt.tdiv d) := by
  obtain ⟨mprime, shpost, hconst, -, -, hshpost, hquot⟩ := ComputeSDivConstants32_spec hd hd1 hd2 h h'
  refine ⟨mprime, _, shpost, hconst, fun n => ?_⟩
  obtain ⟨hlo, hhi, heq⟩ := hquot n.toInt (BitVec.le_toInt n) (BitVec.toInt_lt)
  have hsum : n + BitVec.ofInt 32 (n.toInt * mprime / 2 ^ 32) =
      BitVec.ofInt 32 (n.toInt + n.toInt * mprime / 2 ^ 32) := by
    rw [BitVec.ofInt_add, BitVec.ofInt_toInt]
  have htoInt : (BitVec.ofInt 32 (n.toInt + n.toInt * mprime / 2 ^ 32)).toInt =
      n.toInt + n.toInt * mprime / 2 ^ 32 := BitVec.toInt_ofInt_eq_self (by omega) hlo hhi
  -- one more for a negative dividend
  have hsign : ∀ z : Int, BitVec.ofInt 32 z - (if n.msb then BitVec.allOnes 32 else 0#32) =
      BitVec.ofInt 32 (z + if n.toInt < 0 then 1 else 0) := by
    intro z
    rw [BitVec.msb_eq_toInt]
    by_cases hneg : n.toInt < 0
    · have hone : -BitVec.allOnes 32 = BitVec.ofInt 32 1 := by decide
      rw [if_pos (decide_eq_true hneg), if_pos hneg, BitVec.sub_eq_add_neg, hone, BitVec.ofInt_add]
    · rw [if_neg (by simpa using hneg), if_neg hneg, BitVec.sub_zero, Int.add_zero]
  unfold sdivByConstant
  dsimp only
  rw [mulsh_eq, hsum, shiftRight_signExtend _ (by omega), htoInt, hsign, heq, xor_sub_sign]
  congr 1
  by_cases hneg : d < 0
  · rw [if_pos hneg, ← Int.tdiv_neg]
    congr 1
    omega
  · rw [if_neg hneg]
    congr 1
    omega

end Signed

/-- The constants divide exactly, unsigned and signed, and those of a multiplication exist, have no bit in common, and
differ by the multiplicand. -/
theorem constants_exact :
    (∀ d n : BitVec 32, d ≠ 0#32 → ∃ mprime sh1 sh2, ComputeUDivConstants32 d.toNat = some (mprime, sh1, sh2) ∧
      udivByConstant mprime sh1 sh2 n = n / d) ∧
    (∀ d n : BitVec 32, d ≠ 0#32 → d ≠ 1#32 → d ≠ -1#32 → ∃ mprime dsign shpost,
      ComputeSDivConstants32 d.toInt = some (mprime, dsign, shpost) ∧
        (sdivByConstant mprime dsign shpost n).toInt = n.toInt.tdiv d.toInt) ∧
    ∀ m : BitVec 64, ∃ add sub : BitVec 64, ComputeMultConstants64 m.toNat = some (add.toNat, sub.toNat) ∧
      add &&& sub = 0#64 ∧ add - sub = m := by
  refine ⟨fun d n hd => ?_, fun d n hd hd1 hd2 => ?_, fun m => ?_⟩
  · have hpos : 0 < d.toNat := Nat.pos_of_ne_zero fun hzero => hd (BitVec.eq_of_toNat_eq hzero)
    obtain ⟨mprime, sh1, sh2, hconst, hquot⟩ := udivByConstant_eq hpos d.isLt
    exact ⟨mprime, sh1, sh2, hconst, BitVec.eq_of_toNat_eq ((hquot n).trans BitVec.toNat_udiv.symm)⟩
  · have hne : ∀ {k : Int}, d ≠ BitVec.ofInt 32 k → d.toInt ≠ k := fun hk heq => hk (by rw [← heq, BitVec.ofInt_toInt])
    obtain ⟨mprime, dsign, shpost, hconst, hquot⟩ := sdivByConstant_eq (hne hd) (hne hd1) (hne hd2)
      (BitVec.le_toInt d) BitVec.toInt_lt
    refine ⟨mprime, dsign, shpost, hconst, ?_⟩
    have hsdiv : n.sdiv d = BitVec.ofInt 32 (n.toInt.tdiv d.toInt) := by
      rw [← BitVec.toInt_sdiv_of_ne_or_ne n d (.inr hd2), BitVec.ofInt_toInt]
    rw [hquot n, ← hsdiv]
    exact BitVec.toInt_sdiv_of_ne_or_ne n d (.inr hd2)
  · obtain ⟨add, sub, hconst, hadd, hsub, hdisjoint, hsum⟩ := ComputeMultConstants64_spec m.isLt
    refine ⟨BitVec.ofNat 64 add, BitVec.ofNat 64 sub, ?_, ?_, ?_⟩
    · rw [BitVec.toNat_ofNat, BitVec.toNat_ofNat, Nat.mod_eq_of_lt hadd, Nat.mod_eq_of_lt hsub]
      exact hconst
    · refine BitVec.eq_of_getLsbD_eq fun i hi => ?_
      rw [BitVec.getLsbD_and, BitVec.getLsbD_ofNat, BitVec.getLsbD_ofNat, decide_eq_true hi, Bool.true_and,
        Bool.true_and, hdisjoint i, BitVec.getLsbD_zero]
    · refine BitVec.eq_of_toNat_eq ?_
      have hmod : (m.toNat : Int) % 2 ^ 64 = (add - sub) % 2 ^ 64 := hsum
      have hm := m.isLt
      rw [BitVec.toNat_sub, BitVec.toNat_ofNat, BitVec.toNat_ofNat, Nat.mod_eq_of_lt hadd, Nat.mod_eq_of_lt hsub]
      omega

theorem constants_exact_seven :
    (∃ mprime sh1 sh2, ComputeUDivConstants32 7 = some (mprime, sh1, sh2) ∧
      udivByConstant mprime sh1 sh2 0xffffffff#32 = 0xffffffff#32 / 7#32) ∧
    ∃ mprime dsign shpost, ComputeSDivConstants32 (-7) = some (mprime, dsign, shpost) ∧
      (sdivByConstant mprime dsign shpost 0x80000000#32).toInt = (0x80000000#32).toInt.tdiv (-7) :=
  ⟨constants_exact.1 7#32 0xffffffff#32 (by decide),
    constants_exact.2.1 (-7#32) 0x80000000#32 (by decide) (by decide) (by decide)⟩

end CgsKlee
