import Mathlib.Data.Int.ModEq
import Mathlib.Data.Nat.Factorization.Basic
import Mathlib.Data.Nat.Size
import Mathlib.Tactic.Linarith
import Mathlib.Tactic.Ring

/-!
# Arithmetic on machine words

Facts behind the usual tricks with words: how the lowest bit of a number is found and removed, how all bits below the
highest are set, and why a multiplication by a rounded reciprocal divides.
-/

namespace WordArithmetic

theorem testBit_add_two_pow {r n j : Nat} (h : r < 2 ^ n) : (r + 2 ^ n).testBit j = (r.testBit j || decide (j = n)) := by
  have hsum : r + 2 ^ n = 2 ^ n * 1 + r := by omega
  rw [hsum, Nat.testBit_two_pow_mul_add 1 h]
  split
  · rename_i hj
    rw [decide_eq_false (by omega), Bool.or_false]
  · rename_i hj
    have hr : r.testBit j = false := Nat.testBit_lt_two_pow (h.trans_le (Nat.pow_le_pow_right (by omega) (by omega)))
    rw [hr, Bool.false_or]
    refine Bool.eq_iff_iff.mpr ?_
    rw [Nat.testBit_one_eq_true_iff_self_eq_zero, decide_eq_true_iff]
    omega

theorem or_two_pow {r n : Nat} (h : r < 2 ^ n) : r ||| 2 ^ n = r + 2 ^ n := by
  refine Nat.eq_of_testBit_eq fun j => ?_
  rw [testBit_add_two_pow h, Nat.testBit_or, Nat.testBit_two_pow]
  simp only [eq_comm]

theorem xor_two_pow {r n : Nat} (h : r < 2 ^ n) : r ^^^ 2 ^ n = r + 2 ^ n := by
  refine Nat.eq_of_testBit_eq fun j => ?_
  rw [testBit_add_two_pow h, Nat.testBit_xor, Nat.testBit_two_pow]
  by_cases hj : j = n
  · subst hj
    simp [Nat.testBit_lt_two_pow h]
  · simp [hj, Ne.symm hj]

theorem xor_two_pow_of_testBit {a n : Nat} (h : a < 2 ^ (n + 1)) (hbit : a.testBit n = true) :
    2 ^ n ≤ a ∧ a ^^^ 2 ^ n = a - 2 ^ n := by
  have hle : 2 ^ n ≤ a := Nat.ge_two_pow_of_testBit hbit
  have hr : a - 2 ^ n < 2 ^ n := by
    have hpow : 2 ^ (n + 1) = 2 ^ n + 2 ^ n := by ring
    omega
  have ha : a = (a - 2 ^ n) ^^^ 2 ^ n := by
    rw [xor_two_pow hr]
    omega
  refine ⟨hle, ?_⟩
  conv_lhs => rw [ha]
  rw [Nat.xor_assoc, Nat.xor_self, Nat.xor_zero]

theorem exists_lowest_bit {x : Nat} (h : x ≠ 0) : ∃ l k, x = 2 ^ l * (2 * k + 1) := by
  obtain ⟨l, m, ⟨k, rfl⟩, hx⟩ := Nat.exists_eq_two_pow_mul_odd h
  exact ⟨l, k, hx⟩

theorem two_pow_mul_odd_sub_one (l k : Nat) : 2 ^ l * (2 * k + 1) - 1 = 2 ^ l * (2 * k) + (2 ^ l - 1) := by
  have hpos : 0 < 2 ^ l := by positivity
  have hmul : 2 ^ l * (2 * k + 1) = 2 ^ l * (2 * k) + 2 ^ l := by ring
  omega

theorem testBit_odd_succ (k i : Nat) : (2 * k + 1).testBit (i + 1) = (2 * k).testBit (i + 1) := by
  rw [Nat.testBit_add_one, Nat.testBit_add_one]
  congr 1
  omega

theorem and_two_pow_sub {w l k : Nat} (h : 2 ^ l * (2 * k + 1) < 2 ^ w) :
    2 ^ l * (2 * k + 1) &&& (2 ^ w - 2 ^ l * (2 * k + 1)) = 2 ^ l := by
  have hpos : 0 < 2 ^ l * (2 * k + 1) := by positivity
  have hpow : 0 < 2 ^ l := by positivity
  have hlw : l < w := by
    refine (Nat.pow_lt_pow_iff_right (by omega : 1 < 2)).mp (lt_of_le_of_lt ?_ h)
    exact Nat.le_mul_of_pos_right _ (by omega)
  have hsub : 2 ^ w - 2 ^ l * (2 * k + 1) = 2 ^ w - (2 ^ l * (2 * k) + (2 ^ l - 1) + 1) := by
    rw [← two_pow_mul_odd_sub_one]
    omega
  refine Nat.eq_of_testBit_eq fun i => ?_
  rw [Nat.testBit_and, hsub, Nat.testBit_two_pow_sub_succ (by rw [← two_pow_mul_odd_sub_one]; omega),
    Nat.testBit_two_pow_mul, Nat.testBit_two_pow_mul_add _ (by omega : 2 ^ l - 1 < 2 ^ l), Nat.testBit_two_pow]
  rcases Nat.lt_trichotomy i l with hi | rfl | hi
  · rw [decide_eq_false (by omega), Bool.false_and, Bool.false_and, decide_eq_false (by omega)]
  · simp [hlw]
  · obtain ⟨j, rfl⟩ := Nat.exists_eq_add_of_lt hi
    rw [if_neg (by omega), show l + j + 1 - l = j + 1 by omega, testBit_odd_succ]
    cases (2 * k).testBit (j + 1) <;> simp [show l ≠ l + j + 1 by omega]

theorem xor_lowest_bit (l k : Nat) : 2 ^ l * (2 * k + 1) ^^^ 2 ^ l = 2 ^ l * (2 * k) := by
  refine Nat.eq_of_testBit_eq fun i => ?_
  rw [Nat.testBit_xor, Nat.testBit_two_pow_mul, Nat.testBit_two_pow_mul, Nat.testBit_two_pow]
  rcases Nat.lt_trichotomy i l with hi | rfl | hi
  · rw [decide_eq_false (by omega), decide_eq_false (by omega)]
    rfl
  · simp
  · obtain ⟨j, rfl⟩ := Nat.exists_eq_add_of_lt hi
    rw [show l + j + 1 - l = j + 1 by omega, testBit_odd_succ, decide_eq_false (by omega : ¬l = l + j + 1),
      Bool.xor_false]

theorem smear_step {x y n : Nat} (h : ∀ i, y.testBit i = true ↔ ∃ j < n, x.testBit (i + j) = true) (i : Nat) :
    (y ||| y >>> n).testBit i = true ↔ ∃ j < 2 * n, x.testBit (i + j) = true := by
  rw [Nat.testBit_or, Nat.testBit_shiftRight, Bool.or_eq_true, h, h]
  constructor
  · intro hj
    rcases hj with ⟨j, hj, hx⟩ | ⟨j, hj, hx⟩
    · exact ⟨j, by omega, hx⟩
    · exact ⟨n + j, by omega, by rwa [show i + (n + j) = n + i + j by omega]⟩
  · intro hj
    obtain ⟨j, hj, hx⟩ := hj
    by_cases hjn : j < n
    · exact .inl ⟨j, hjn, hx⟩
    · exact .inr ⟨j - n, by omega, by rwa [show n + i + (j - n) = i + j by omega]⟩

theorem smear_eq {x y n : Nat} (hx : x < 2 ^ n) (h : ∀ i, y.testBit i = true ↔ ∃ j < n, x.testBit (i + j) = true) :
    y = 2 ^ x.size - 1 := by
  refine Nat.eq_of_testBit_eq fun i => ?_
  rw [Nat.testBit_two_pow_sub_one]
  refine Bool.eq_iff_iff.mpr ?_
  rw [h, decide_eq_true_iff]
  constructor
  · intro hj
    obtain ⟨j, -, hbit⟩ := hj
    have hle : 2 ^ (i + j) ≤ x := Nat.ge_two_pow_of_testBit hbit
    have hlt : i + j < x.size := Nat.lt_size.mpr hle
    omega
  · intro hi
    have hsize : x.size ≤ n := Nat.size_le.mpr hx
    have hle : 2 ^ (x.size - 1) ≤ x := Nat.lt_size.mp (by omega)
    have hlt : x < 2 ^ (x.size - 1 + 1) := by
      rw [show x.size - 1 + 1 = x.size by omega]
      exact Nat.lt_size_self x
    refine ⟨x.size - 1 - i, by omega, ?_⟩
    rw [show i + (x.size - 1 - i) = x.size - 1 by omega]
    exact Nat.testBit_of_two_pow_le_and_two_pow_add_one_gt hle hlt

section Reciprocal

variable {d n P : Nat}

theorem reciprocal_bounds (hd : 0 < d) : P / d * d ≤ P ∧ P < (P / d + 1) * d :=
  ⟨Nat.div_mul_le_self P d, by
    have h : P < d * (P / d + 1) := Nat.lt_mul_div_succ P hd
    rwa [Nat.mul_comm] at h⟩

theorem quotient_mul_le (hd : 0 < d) : n / d * P ≤ n * (P / d + 1) := by
  have hP : P ≤ (P / d + 1) * d := (reciprocal_bounds hd).2.le
  calc n / d * P ≤ n / d * ((P / d + 1) * d) := Nat.mul_le_mul_left _ hP
    _ = n / d * d * (P / d + 1) := by ring
    _ ≤ n * (P / d + 1) := Nat.mul_le_mul_right _ (Nat.div_mul_le_self n d)

theorem mul_reciprocal_le (hd : 0 < d) : n * (P / d + 1) * d ≤ n * P + n * d := by
  have hP : P / d * d ≤ P := (reciprocal_bounds hd).1
  calc n * (P / d + 1) * d = n * (P / d * d) + n * d := by ring
    _ ≤ n * P + n * d := Nat.add_le_add_right (Nat.mul_le_mul_left n hP) _

theorem succ_mul_le (hd : 0 < d) : (n + 1) * P ≤ (n / d + 1) * P * d := by
  have hn : n + 1 ≤ (n / d + 1) * d := by
    have h : n < d * (n / d + 1) := Nat.lt_mul_div_succ n hd
    rw [Nat.mul_comm]
    exact h
  calc (n + 1) * P ≤ (n / d + 1) * d * P := Nat.mul_le_mul_right P hn
    _ = (n / d + 1) * P * d := by ring

theorem mul_reciprocal_div (hd : 0 < d) (h : n * d < P) : n * (P / d + 1) / P = n / d := by
  refine Nat.div_eq_of_lt_le (quotient_mul_le hd) ?_
  refine Nat.lt_of_mul_lt_mul_right ((mul_reciprocal_le hd).trans_lt ?_ |>.trans_le (succ_mul_le hd))
  calc n * P + n * d < n * P + P := Nat.add_lt_add_left h _
    _ = (n + 1) * P := by ring

theorem mul_reciprocal_bounds (hd : 0 < d) (hn : 0 < n) (h : n * d ≤ P) :
    n / d * P < n * (P / d + 1) ∧ n * (P / d + 1) ≤ (n / d + 1) * P := by
  constructor
  · rcases Nat.eq_zero_or_pos (n / d) with hq | hq
    · rw [hq, Nat.zero_mul]
      positivity
    · calc n / d * P < n / d * ((P / d + 1) * d) := Nat.mul_lt_mul_of_pos_left (reciprocal_bounds hd).2 hq
        _ = n / d * d * (P / d + 1) := by ring
        _ ≤ n * (P / d + 1) := Nat.mul_le_mul_right _ (Nat.div_mul_le_self n d)
  · refine Nat.le_of_mul_le_mul_right ?_ hd
    calc n * (P / d + 1) * d ≤ n * P + n * d := mul_reciprocal_le hd
      _ ≤ n * P + P := Nat.add_le_add_left h _
      _ = (n + 1) * P := by ring
      _ ≤ (n / d + 1) * P * d := succ_mul_le hd

end Reciprocal

theorem ediv_reciprocal {D P : Nat} (hD : 0 < D) {n : Int} (h : n.natAbs * D ≤ P) (h' : 0 ≤ n → n.natAbs * D < P) :
    n * (P / D + 1 : Nat) / P + (if n < 0 then 1 else 0) = n.tdiv D := by
  by_cases hn : n < 0
  · obtain ⟨a, rfl⟩ : ∃ a : Nat, n = -a := ⟨n.natAbs, by omega⟩
    rw [if_pos hn]
    have hpos : 0 < a := by omega
    have habs : (-(a : Int)).natAbs = a := by omega
    rw [habs] at h
    obtain ⟨hlower, hupper⟩ := mul_reciprocal_bounds hD hpos h
    have hP : 0 < P := lt_of_lt_of_le (Nat.mul_pos hpos hD) h
    have hdiv : -(a : Int) * (P / D + 1 : Nat) / P = -((a / D : Nat) : Int) - 1 := by
      have hlo : ((a / D : Nat) : Int) * P < a * (P / D + 1 : Nat) := by exact_mod_cast hlower
      have hup : (a : Int) * (P / D + 1 : Nat) ≤ ((a / D : Nat) + 1) * P := by exact_mod_cast hupper
      have hPint : (0 : Int) < P := by exact_mod_cast hP
      refine (Int.ediv_eq_iff_of_pos hPint).mpr ⟨?_, ?_⟩
      · linarith
      · linarith
    rw [hdiv, Int.neg_tdiv, ← Int.ofNat_tdiv]
    ring
  · obtain ⟨a, rfl⟩ : ∃ a : Nat, n = a := ⟨n.natAbs, by omega⟩
    rw [if_neg hn, Int.add_zero, ← Int.ofNat_tdiv]
    have hquot : a * (P / D + 1) / P = a / D := mul_reciprocal_div hD (by simpa using h' (by omega))
    exact_mod_cast hquot

end WordArithmetic
