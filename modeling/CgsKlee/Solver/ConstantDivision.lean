import Mathlib.Data.Int.ModEq
import Mathlib.Data.Nat.Bitwise
import CgsKlee.Lib.WordArithmetic

/-!
# Constants for multiplication and division

The words that the translation to the solver computes with: `Bits.h`, and the constants of `ConstantDivision.cpp` that
turn a multiplication by a constant into additions, and a division by a constant into a multiplication and shifts.
Words are natural numbers below `2 ^ 32` or `2 ^ 64`; `none` is a failed assertion or a division by zero.
-/

namespace CgsKlee

open WordArithmetic

namespace Bits32

def withoutRightmostBit (x : Nat) : Nat := x &&& (x + (2 ^ 32 - 1)) % 2 ^ 32

def indexOfSingleBit (x : Nat) : Option Nat :=
  if withoutRightmostBit x = 0 then
    let res := (if x &&& 0xFFFF0000 ≠ 0 then 16 else 0) + (if x &&& 0xFF00FF00 ≠ 0 then 8 else 0) +
      (if x &&& 0xF0F0F0F0 ≠ 0 then 4 else 0) + (if x &&& 0xCCCCCCCC ≠ 0 then 2 else 0) +
      (if x &&& 0xAAAAAAAA ≠ 0 then 1 else 0)
    if res < 32 ∧ 2 ^ res = x then some res else none
  else none

end Bits32

namespace Bits64

def truncateToNBits (x N : Nat) : Nat := x &&& (2 ^ 64 - 1) >>> (64 - N)

def maxValueOfNBits (N : Nat) : Option Nat :=
  -- assert: N <= 64
  if N ≤ 64 then some (if N = 0 then 0 else (2 ^ 64 - 1) >>> (64 - N)) else none

def withoutRightmostBit (x : Nat) : Nat := x &&& (x - 1)

def isolateRightmostBit (x : Nat) : Nat := x &&& (2 ^ 64 - x) % 2 ^ 64

def isPowerOfTwo (x : Nat) : Bool := if x = 0 then false else x &&& (x - 1) == 0

def indexOfSingleBit (x : Nat) : Option Nat :=
  if x &&& (x + (2 ^ 64 - 1)) % 2 ^ 64 = 0 then do
    let res ← Bits32.indexOfSingleBit ((x ||| x >>> 32) % 2 ^ 32)
    let res := if x &&& 0xFFFFFFFF <<< 32 ≠ 0 then res + 32 else res
    if res < 64 ∧ 2 ^ res = x then some res else none
  else none

def indexOfRightmostBit (x : Nat) : Option Nat := indexOfSingleBit (isolateRightmostBit x)

theorem shift_allOnes {N : Nat} (h : N ≤ 64) : (2 ^ 64 - 1) >>> (64 - N) = 2 ^ N - 1 := by
  have hall : ∀ k : Fin 65, (2 ^ 64 - 1) >>> (64 - k.val) = 2 ^ k.val - 1 := by decide
  exact hall ⟨N, by omega⟩

theorem truncateToNBits_eq {x N : Nat} (h : N ≤ 64) : truncateToNBits x N = x % 2 ^ N := by
  unfold truncateToNBits
  rw [shift_allOnes h, Nat.and_two_pow_sub_one_eq_mod]

theorem maxValueOfNBits_eq {N : Nat} (h : N ≤ 64) : maxValueOfNBits N = some (2 ^ N - 1) := by
  unfold maxValueOfNBits
  rw [if_pos h]
  split
  · rename_i hN
    subst hN
    rfl
  · rw [shift_allOnes h]

theorem indexOfSingleBit_two_pow {l : Nat} (h : l < 64) : indexOfSingleBit (2 ^ l) = some l := by
  have hall : ∀ k : Fin 64, indexOfSingleBit (2 ^ k.val) = some k.val := by decide
  exact hall ⟨l, h⟩

theorem isolateRightmostBit_eq {l k : Nat} (h : 2 ^ l * (2 * k + 1) < 2 ^ 64) :
    isolateRightmostBit (2 ^ l * (2 * k + 1)) = 2 ^ l := by
  have hpos : 0 < 2 ^ l * (2 * k + 1) := by positivity
  unfold isolateRightmostBit
  rw [Nat.mod_eq_of_lt (by omega)]
  exact and_two_pow_sub h

theorem withoutRightmostBit_eq (l k : Nat) : withoutRightmostBit (2 ^ l * (2 * k + 1)) = 2 ^ l * (2 * k) := by
  have hpos := Nat.two_pow_pos l
  apply Nat.eq_of_testBit_eq
  intro i
  unfold withoutRightmostBit
  rw [Nat.testBit_and, two_pow_mul_odd_sub_one, Nat.testBit_two_pow_mul,
    Nat.testBit_two_pow_mul_add _ (by omega : 2 ^ l - 1 < 2 ^ l), Nat.testBit_two_pow_mul]
  by_cases hi : i < l
  · simp [hi, Nat.not_le.mpr hi]
  · obtain ⟨j, rfl⟩ : ∃ j, i = l + j := ⟨i - l, by omega⟩
    rw [if_neg hi, Nat.add_sub_cancel_left]
    cases j with
    | zero => simp
    | succ j =>
      rw [testBit_odd_succ, Nat.testBit_add_one, show 2 * k / 2 = k by omega]
      simp

theorem lowest_bit_lt {l k w : Nat} (h : 2 ^ l * (2 * k + 1) < 2 ^ w) : l < w :=
  (Nat.pow_lt_pow_iff_right (by omega : 1 < 2)).mp
    (lt_of_le_of_lt (Nat.le_mul_of_pos_right _ (by omega)) h)

theorem indexOfRightmostBit_eq {l k : Nat} (h : 2 ^ l * (2 * k + 1) < 2 ^ 64) :
    indexOfRightmostBit (2 ^ l * (2 * k + 1)) = some l := by
  unfold indexOfRightmostBit
  rw [isolateRightmostBit_eq h]
  exact indexOfSingleBit_two_pow (lowest_bit_lt h)

theorem exists_of_isPowerOfTwo {x : Nat} (h : isPowerOfTwo x = true) (hx : x < 2 ^ 64) :
    ∃ l < 64, x = 2 ^ l ∧ indexOfSingleBit x = some l := by
  unfold isPowerOfTwo at h
  split at h
  · cases h
  · rename_i hne
    obtain ⟨l, k, rfl⟩ := exists_lowest_bit hne
    have hl : l < 64 := lowest_bit_lt hx
    have hpow : 0 < 2 ^ l := by positivity
    have hzero : 2 ^ l * (2 * k + 1) &&& (2 ^ l * (2 * k + 1) - 1) = 0 := beq_iff_eq.mp h
    -- the bits above the lowest are in both
    have hk : k = 0 := by
      by_contra hk
      obtain ⟨i, hi⟩ := Nat.exists_testBit_of_ne_zero hk
      have hbit : (2 ^ l * (2 * k + 1) &&& (2 ^ l * (2 * k + 1) - 1)).testBit (l + (i + 1)) = true := by
        rw [Nat.testBit_and, two_pow_mul_odd_sub_one, Nat.testBit_two_pow_mul,
          Nat.testBit_two_pow_mul_add _ (by omega : 2 ^ l - 1 < 2 ^ l), if_neg (by omega),
          show l + (i + 1) - l = i + 1 by omega, testBit_odd_succ, Nat.testBit_add_one, show 2 * k / 2 = k by omega, hi]
        simp
      rw [hzero, Nat.zero_testBit] at hbit
      cases hbit
    subst hk
    have hone : 2 ^ l * (2 * 0 + 1) = 2 ^ l := by ring
    rw [hone]
    exact ⟨l, hl, rfl, indexOfSingleBit_two_pow hl⟩

end Bits64

/-- The constants less the lowest bit of a run: `+(1<<x) - (1<<(x+1))` is `-(1<<x)`. -/
def subtractLowest (low add sub : Nat) : Nat × Nat :=
  if low ≠ 0 ∧ add &&& 2 ^ low >>> 1 ≠ 0 then (add ^^^ 2 ^ low >>> 1, sub ^^^ 2 ^ low >>> 1) else (add, sub ||| 2 ^ low)

/-- One turn of the loop of `ComputeMultConstants64`: the lowest run of ones in `x` becomes its only bit, or the bit
above it less its lowest bit. -/
def multConstantsStep (x add sub : Nat) : Option (Nat × Nat × Nat) := do
  let low ← Bits64.indexOfRightmostBit x
  let lowbit := 2 ^ low
  let p := (x + lowbit) % 2 ^ 64
  let q := Bits64.isolateRightmostBit p
  let high ← if q ≠ 0 then Bits64.indexOfSingleBit q else some 64
  if high = low + 1 then
    some (p ^^^ q, add ||| lowbit, sub)
  else
    let (add, sub) := subtractLowest low add sub
    some (p ^^^ q, if high ≠ 64 then add ||| 2 ^ high else add, sub)

def multConstantsLoop : Nat → Nat → Nat → Nat → Option (Nat × Nat)
  | 0, x, add, sub => if x = 0 then some (add, sub) else none
  | fuel + 1, x, add, sub =>
    if x = 0 then some (add, sub)
    else do
      let (x, add, sub) ← multConstantsStep x add sub
      multConstantsLoop fuel x add sub

def ComputeMultConstants64 (multiplicand : Nat) : Option (Nat × Nat) := do
  let (add, sub) ← multConstantsLoop 64 multiplicand 0 0
  if multiplicand = (add + (2 ^ 64 - sub)) % 2 ^ 64 then some (add, sub) else none

/-- What is left of the multiplicand has no bits below `b`, and the constants have bits below `b` only. -/
structure MultConstants (c b x add sub : Nat) : Prop where
  x_lt : x < 2 ^ 64
  dvd : 2 ^ b ∣ x
  add_lt : add < 2 ^ b
  add_lt' : add < 2 ^ 64
  sub_lt : 2 * sub < 2 ^ b
  sub_lt' : sub < 2 ^ 64
  disjoint : ∀ j, (add.testBit j && sub.testBit j) = false
  sum : (c : Int) ≡ add - sub + x [ZMOD 2 ^ 64]

theorem lowest_run {l k : Nat} (h : 2 ^ l * (2 * k + 1) < 2 ^ 64) :
    2 ^ l * (2 * k + 1) + 2 ^ l = 2 ^ 64 ∨
      ∃ high m, l < high ∧ 2 ^ l * (2 * k + 1) + 2 ^ l = 2 ^ high * (2 * m + 1) ∧ 2 ^ high * (2 * m + 1) < 2 ^ 64 := by
  have hl : l < 64 := Bits64.lowest_bit_lt h
  have hsum : 2 ^ l * (2 * k + 1) + 2 ^ l = 2 ^ (l + 1) * (k + 1) := by ring
  have htop : 2 ^ 64 = 2 ^ l * 2 ^ (64 - l) := by
    rw [← Nat.pow_add]
    congr 1
    omega
  have hle : 2 ^ l * (2 * k + 1) + 2 ^ l ≤ 2 ^ 64 := by
    rw [htop] at h ⊢
    have hlt : 2 * k + 1 < 2 ^ (64 - l) := Nat.lt_of_mul_lt_mul_left h
    calc 2 ^ l * (2 * k + 1) + 2 ^ l = 2 ^ l * (2 * k + 1 + 1) := by ring
      _ ≤ 2 ^ l * 2 ^ (64 - l) := Nat.mul_le_mul_left _ hlt
  rcases Nat.eq_or_lt_of_le hle with heq | hlt
  · exact .inl heq
  · right
    obtain ⟨e, m, hm⟩ := exists_lowest_bit (Nat.succ_ne_zero k)
    have hhigh : 2 ^ l * (2 * k + 1) + 2 ^ l = 2 ^ (l + 1 + e) * (2 * m + 1) := by
      rw [hsum, show k + 1 = 2 ^ e * (2 * m + 1) from hm]
      ring
    exact ⟨l + 1 + e, m, by omega, hhigh, by omega⟩

theorem subtractLowest_spec {b low add sub : Nat} (hb : b ≤ low) (hadd : add < 2 ^ b) (hsub : 2 * sub < 2 ^ b)
    (hdisjoint : ∀ j, (add.testBit j && sub.testBit j) = false) :
    (subtractLowest low add sub).1 < 2 ^ low ∧ (subtractLowest low add sub).2 < 2 ^ (low + 1) ∧
      (((subtractLowest low add sub).1 : Int) - (subtractLowest low add sub).2 = add - sub - 2 ^ low) ∧
      ∀ j, ((subtractLowest low add sub).1.testBit j && (subtractLowest low add sub).2.testBit j) = false := by
  have hpow : 2 ^ b ≤ 2 ^ low := Nat.pow_le_pow_right (by omega) hb
  have hdouble : 2 ^ (low + 1) = 2 ^ low + 2 ^ low := by ring
  unfold subtractLowest
  split
  · rename_i hlow
    obtain ⟨hne, hbit⟩ := hlow
    obtain ⟨n, rfl⟩ := Nat.exists_eq_succ_of_ne_zero hne
    have hhalf : 2 ^ (n + 1) >>> 1 = 2 ^ n := by
      rw [Nat.shiftRight_eq_div_pow, pow_succ]
      omega
    have hsucc : 2 ^ (n + 1) = 2 ^ n + 2 ^ n := by ring
    rw [Nat.succ_eq_add_one] at *
    rw [hhalf] at hbit ⊢
    have htest : add.testBit n = true := by
      by_contra hf
      rw [Nat.and_two_pow, Bool.eq_false_iff.mpr hf] at hbit
      simp at hbit
    obtain ⟨hle, hxor⟩ := xor_two_pow_of_testBit (show add < 2 ^ (n + 1) by omega) htest
    have hsubn : sub < 2 ^ n := by omega
    have hrest : add - 2 ^ n < 2 ^ n := by omega
    rw [hxor, xor_two_pow hsubn]
    refine ⟨by omega, by omega, ?_, fun j => ?_⟩
    · have hcast : ((2 ^ n : Nat) : Int) = 2 ^ n := by push_cast; rfl
      have hcast' : ((2 : Int) ^ (n + 1)) = 2 ^ n + 2 ^ n := by ring
      push_cast [Nat.cast_sub hle]
      omega
    · have haddbit : add.testBit j = ((add - 2 ^ n).testBit j || decide (j = n)) := by
        rw [← testBit_add_two_pow hrest, Nat.sub_add_cancel hle]
      rw [testBit_add_two_pow hsubn]
      by_cases hj : j = n
      · subst hj
        rw [Nat.testBit_lt_two_pow hrest, Bool.false_and]
      · have hd : (add.testBit j && sub.testBit j) = false := hdisjoint j
        rw [haddbit] at hd
        simpa [hj] using hd
  · have hsubl : sub < 2 ^ low := by omega
    rw [or_two_pow hsubl]
    refine ⟨by omega, by omega, by push_cast; ring, fun j => ?_⟩
    rw [testBit_add_two_pow hsubl]
    by_cases hj : j = low
    · subst hj
      rw [Nat.testBit_lt_two_pow (by omega), Bool.false_and]
    · simpa [hj] using hdisjoint j

section Step

variable {c b x add sub l k : Nat}

theorem MultConstants.le_lowest (h : MultConstants c b (2 ^ l * (2 * k + 1)) add sub) : b ≤ l := by
  have hcoprime : Nat.Coprime (2 ^ b) (2 * k + 1) := Nat.Coprime.pow_left b (by simp)
  exact (Nat.pow_dvd_pow_iff_le_right (by omega)).mp (hcoprime.dvd_of_dvd_mul_right h.dvd)

theorem MultConstants.single (h : MultConstants c b (2 ^ l * (2 * k + 1)) add sub) :
    MultConstants c (l + 1) (2 ^ l * (2 * k)) (add ||| 2 ^ l) sub := by
  have hb : b ≤ l := h.le_lowest
  have hl : l < 64 := Bits64.lowest_bit_lt h.x_lt
  have hpow : 2 ^ b ≤ 2 ^ l := Nat.pow_le_pow_right (by omega) hb
  have hdouble : 2 ^ (l + 1) = 2 ^ l + 2 ^ l := by ring
  have htop : 2 ^ (l + 1) ≤ 2 ^ 64 := Nat.pow_le_pow_right (by omega) (by omega)
  have hx : 2 ^ l * (2 * k + 1) = 2 ^ l * (2 * k) + 2 ^ l := by ring
  have hadd : add < 2 ^ l := h.add_lt.trans_le hpow
  have hsub : 2 * sub < 2 ^ l := h.sub_lt.trans_le hpow
  have hxlt : 2 ^ l * (2 * k + 1) < 2 ^ 64 := h.x_lt
  rw [or_two_pow hadd]
  refine ⟨by omega, ⟨k, by ring⟩, by omega, by omega, by omega, h.sub_lt', fun j => ?_, ?_⟩
  · rw [testBit_add_two_pow hadd]
    by_cases hj : j = l
    · subst hj
      rw [Nat.testBit_lt_two_pow (by omega : sub < 2 ^ j), Bool.and_false]
    · simpa [hj] using h.disjoint j
  · have hsum := h.sum
    rw [hx] at hsum
    push_cast at hsum ⊢
    have heq : (add : Int) - sub + (2 ^ l * (2 * k) + 2 ^ l) = add + 2 ^ l - sub + 2 ^ l * (2 * k) := by ring
    rwa [heq] at hsum

theorem MultConstants.run (h : MultConstants c b (2 ^ l * (2 * k + 1)) add sub) {high m : Nat} (hlow : l + 1 < high)
    (hrun : 2 ^ l * (2 * k + 1) + 2 ^ l = 2 ^ high * (2 * m + 1)) (hlt : 2 ^ high * (2 * m + 1) < 2 ^ 64) :
    MultConstants c (high + 1) (2 ^ high * (2 * m)) ((subtractLowest l add sub).1 ||| 2 ^ high)
      (subtractLowest l add sub).2 := by
  obtain ⟨hadd, hsub, hdiff, hdisjoint⟩ := subtractLowest_spec h.le_lowest h.add_lt h.sub_lt h.disjoint
  generalize (subtractLowest l add sub).1 = add' at *
  generalize (subtractLowest l add sub).2 = sub' at *
  have hhigh : high < 64 := Bits64.lowest_bit_lt hlt
  have hpow : 2 ^ (l + 1) ≤ 2 ^ (high - 1) := Nat.pow_le_pow_right (by omega) (by omega)
  have hhalf : 2 ^ high = 2 ^ (high - 1) + 2 ^ (high - 1) := by
    conv_lhs => rw [show high = high - 1 + 1 by omega]
    ring
  have hdouble : 2 ^ (l + 1) = 2 ^ l + 2 ^ l := by ring
  have hdouble' : 2 ^ (high + 1) = 2 ^ high + 2 ^ high := by ring
  have htop : 2 ^ (high + 1) ≤ 2 ^ 64 := Nat.pow_le_pow_right (by omega) (by omega)
  have hx : 2 ^ high * (2 * m + 1) = 2 ^ high * (2 * m) + 2 ^ high := by ring
  have hlt' : add' < 2 ^ high := by omega
  rw [or_two_pow hlt']
  refine ⟨by omega, ⟨m, by ring⟩, by omega, by omega, by omega, by omega, fun j => ?_, ?_⟩
  · rw [testBit_add_two_pow hlt']
    by_cases hj : j = high
    · subst hj
      rw [Nat.testBit_lt_two_pow (by omega : sub' < 2 ^ j), Bool.and_false]
    · simpa [hj] using hdisjoint j
  · have hxint : ((2 ^ l * (2 * k + 1) : Nat) : Int) + 2 ^ l = ((2 ^ high * (2 * m) : Nat) : Int) + 2 ^ high := by
      have hnat : 2 ^ l * (2 * k + 1) + 2 ^ l = 2 ^ high * (2 * m) + 2 ^ high := by omega
      exact_mod_cast hnat
    have heq : (add : Int) - sub + ((2 ^ l * (2 * k + 1) : Nat) : Int) =
        ((add' + 2 ^ high : Nat) : Int) - sub' + ((2 ^ high * (2 * m) : Nat) : Int) := by
      rw [Nat.cast_add, Nat.cast_pow, Nat.cast_two]
      linarith
    rw [← heq]
    exact h.sum

theorem MultConstants.top (h : MultConstants c b (2 ^ l * (2 * k + 1)) add sub)
    (hrun : 2 ^ l * (2 * k + 1) + 2 ^ l = 2 ^ 64) :
    MultConstants c 65 0 (subtractLowest l add sub).1 (subtractLowest l add sub).2 := by
  obtain ⟨hadd, hsub, hdiff, hdisjoint⟩ := subtractLowest_spec h.le_lowest h.add_lt h.sub_lt h.disjoint
  have hl : l < 64 := Bits64.lowest_bit_lt h.x_lt
  have hpow : 2 ^ l ≤ 2 ^ 63 := Nat.pow_le_pow_right (by omega) (by omega)
  have hdouble : 2 ^ (l + 1) = 2 ^ l + 2 ^ l := by ring
  generalize (subtractLowest l add sub).1 = add' at *
  generalize (subtractLowest l add sub).2 = sub' at *
  have hle : 0 < 2 ^ l := by positivity
  refine ⟨by omega, ⟨0, rfl⟩, by omega, by omega, by omega, ?_, hdisjoint, ?_⟩
  · omega
  · have hxint : ((2 ^ l * (2 * k + 1) : Nat) : Int) + 2 ^ l = 2 ^ 64 := by exact_mod_cast hrun
    have heq : (add : Int) - sub + ((2 ^ l * (2 * k + 1) : Nat) : Int) = add' - sub' + 2 ^ 64 := by linarith
    refine h.sum.trans ?_
    rw [heq, Nat.cast_zero, add_zero]
    exact Int.add_modEq_right

theorem multConstantsStep_eq (add sub : Nat) {low p q high : Nat} (hlow : Bits64.indexOfRightmostBit x = some low)
    (hp : (x + 2 ^ low) % 2 ^ 64 = p) (hq : Bits64.isolateRightmostBit p = q)
    (hhigh : (if q ≠ 0 then Bits64.indexOfSingleBit q else some 64) = some high) :
    multConstantsStep x add sub =
      if high = low + 1 then some (p ^^^ q, add ||| 2 ^ low, sub)
      else some (p ^^^ q,
        if high ≠ 64 then (subtractLowest low add sub).1 ||| 2 ^ high else (subtractLowest low add sub).1,
        (subtractLowest low add sub).2) := by
  simp only [multConstantsStep, hlow, hp, hq, bind, Option.bind_some]
  by_cases hq0 : q ≠ 0
  · rw [if_pos hq0] at hhigh ⊢
    rw [hhigh]
    rfl
  · rw [if_neg hq0] at hhigh ⊢
    obtain rfl : 64 = high := Option.some.inj hhigh
    rfl

theorem MultConstants.step (h : MultConstants c b x add sub) (hx : x ≠ 0) :
    ∃ b' x' add' sub', b < b' ∧ multConstantsStep x add sub = some (x', add', sub') ∧
      MultConstants c b' x' add' sub' := by
  obtain ⟨l, k, rfl⟩ := exists_lowest_bit hx
  have hb : b ≤ l := h.le_lowest
  have hl : l < 64 := Bits64.lowest_bit_lt h.x_lt
  have hlow : Bits64.indexOfRightmostBit (2 ^ l * (2 * k + 1)) = some l := Bits64.indexOfRightmostBit_eq h.x_lt
  rcases lowest_run h.x_lt with htop | ⟨high, m, hlh, hrun, hlt⟩
  · -- the sum overflows, so that nothing is left
    have hp : (2 ^ l * (2 * k + 1) + 2 ^ l) % 2 ^ 64 = 0 := by rw [htop, Nat.mod_self]
    have hstep := multConstantsStep_eq add sub hlow hp rfl rfl
    by_cases h63 : 64 = l + 1
    · refine ⟨l + 1, 0, add ||| 2 ^ l, sub, by omega, ?_, ?_⟩
      · rw [hstep, if_pos h63]
        rfl
      · obtain rfl : l = 63 := by omega
        obtain rfl : k = 0 := by
          have hxlt : 2 ^ 63 * (2 * k + 1) < 2 ^ 64 := h.x_lt
          omega
        exact h.single
    · refine ⟨65, 0, (subtractLowest l add sub).1, (subtractLowest l add sub).2, by omega, ?_, h.top htop⟩
      rw [hstep, if_neg h63]
      rfl
  · have hp : (2 ^ l * (2 * k + 1) + 2 ^ l) % 2 ^ 64 = 2 ^ high * (2 * m + 1) := by
      rw [hrun, Nat.mod_eq_of_lt hlt]
    have hhigh : high < 64 := Bits64.lowest_bit_lt hlt
    have hq : Bits64.isolateRightmostBit (2 ^ high * (2 * m + 1)) = 2 ^ high := Bits64.isolateRightmostBit_eq hlt
    have hindex : Bits64.indexOfSingleBit (2 ^ high) = some high := Bits64.indexOfSingleBit_two_pow hhigh
    have hif : (if 2 ^ high ≠ 0 then Bits64.indexOfSingleBit (2 ^ high) else some 64) = some high := by
      rw [if_pos (by positivity), hindex]
    have hstep := multConstantsStep_eq add sub hlow hp hq hif
    by_cases hone : high = l + 1
    · subst hone
      have hxor : 2 ^ (l + 1) * (2 * m + 1) ^^^ 2 ^ (l + 1) = 2 ^ l * (2 * k) := by
        rw [xor_lowest_bit]
        have hx1 : 2 ^ l * (2 * k + 1) + 2 ^ l = 2 ^ l * (2 * k) + 2 ^ (l + 1) := by ring
        have hx2 : 2 ^ (l + 1) * (2 * m + 1) = 2 ^ (l + 1) * (2 * m) + 2 ^ (l + 1) := by ring
        omega
      refine ⟨l + 1, 2 ^ l * (2 * k), add ||| 2 ^ l, sub, by omega, ?_, h.single⟩
      rw [hstep, if_pos rfl, hxor]
    · refine ⟨high + 1, 2 ^ high * (2 * m), (subtractLowest l add sub).1 ||| 2 ^ high, (subtractLowest l add sub).2,
        by omega, ?_, h.run (by omega) hrun hlt⟩
      rw [hstep, if_neg hone, if_pos (by omega), xor_lowest_bit]

theorem multConstantsLoop_spec : ∀ {fuel b x add sub : Nat}, MultConstants c b x add sub → 64 ≤ fuel + b →
    ∃ b' add' sub', multConstantsLoop fuel x add sub = some (add', sub') ∧ MultConstants c b' 0 add' sub' := by
  intro fuel
  induction fuel with
  | zero =>
    intro b x add sub h hb
    have hzero : x = 0 := by
      refine Nat.eq_zero_of_dvd_of_lt ?_ h.x_lt
      exact (Nat.pow_dvd_pow 2 (by omega)).trans h.dvd
    subst hzero
    exact ⟨b, add, sub, rfl, h⟩
  | succ fuel ih =>
    intro b x add sub h hb
    by_cases hx : x = 0
    · subst hx
      exact ⟨b, add, sub, rfl, h⟩
    · obtain ⟨b', x', add', sub', hlt, hstep, h'⟩ := h.step hx
      obtain ⟨b'', add'', sub'', hloop, h''⟩ := ih h' (by omega)
      refine ⟨b'', add'', sub'', ?_, h''⟩
      rw [multConstantsLoop, if_neg hx, hstep]
      exact hloop

end Step

theorem ComputeMultConstants64_spec {c : Nat} (hc : c < 2 ^ 64) :
    ∃ add sub, ComputeMultConstants64 c = some (add, sub) ∧ add < 2 ^ 64 ∧ sub < 2 ^ 64 ∧
      (∀ j, (add.testBit j && sub.testBit j) = false) ∧ (c : Int) ≡ add - sub [ZMOD 2 ^ 64] := by
  have hinit : MultConstants c 0 c 0 0 :=
    ⟨hc, by simp, by simp, by simp, by simp, by simp, by simp, by simp⟩
  obtain ⟨b, add, sub, hloop, h⟩ := multConstantsLoop_spec hinit (le_refl 64)
  have hsum : (c : Int) ≡ add - sub [ZMOD 2 ^ 64] := by simpa using h.sum
  have hsub : sub < 2 ^ 64 := h.sub_lt'
  -- the assertion at the end
  have hassert : c = (add + (2 ^ 64 - sub)) % 2 ^ 64 := by
    have hmod : (c : Int) % 2 ^ 64 = (add - sub) % 2 ^ 64 := hsum
    have hcast : (((add + (2 ^ 64 - sub)) % 2 ^ 64 : Nat) : Int) = (add - sub) % 2 ^ 64 := by
      push_cast [Nat.cast_sub hsub.le]
      omega
    omega
  refine ⟨add, sub, ?_, h.add_lt', hsub, h.disjoint, hsum⟩
  unfold ComputeMultConstants64
  rw [hloop]
  exact if_pos hassert

/-- `ones`: the number of set bits of a word of 32 bits. -/
def ones (x : Nat) : Nat :=
  let x := (x + (2 ^ 32 - (x >>> 1 &&& 0x55555555))) % 2 ^ 32
  let x := (x >>> 2 &&& 0x33333333) + (x &&& 0x33333333)
  let x := (x >>> 4 + x) &&& 0x0f0f0f0f
  let x := x + x >>> 8
  let x := x + x >>> 16
  x &&& 0x3f

/-- `ldz`: the number of leading zeroes. -/
def ldz (x : Nat) : Nat :=
  let x := x ||| x >>> 1
  let x := x ||| x >>> 2
  let x := x ||| x >>> 4
  let x := x ||| x >>> 8
  let x := x ||| x >>> 16
  32 - ones x

def exp_base_2 (n : Nat) : Nat :=
  let x := (2 ^ 32 - 1 - n) &&& (n + (2 ^ 32 - 32)) % 2 ^ 32
  let x := x >>> 31
  x <<< n % 2 ^ 32

def LOG2_CEIL (x : Nat) : Nat := 32 - ldz ((x + (2 ^ 32 - 1)) % 2 ^ 32)

def ComputeUDivConstants32 (d : Nat) : Option (Nat × Nat × Nat) :=
  if d = 0 then none
  else
    let l := LOG2_CEIL d
    let mid := (exp_base_2 l + (2 ^ 32 - d)) % 2 ^ 32
    some ((2 ^ 32 * mid / d + 1) % 2 ^ 32, min l 1, l - 1)

def ComputeSDivConstants32 (d : Int) : Option (Int × Int × Nat) :=
  if d = 0 then none
  else
    let abs_d := d.natAbs
    let l := max 1 (LOG2_CEIL abs_d)
    let l := if abs_d = 2 ^ 31 then 31 else l
    let mid := exp_base_2 (l - 1)
    let m : Nat := 2 ^ 32 * mid / abs_d + 1
    some (((m : Int) - 2 ^ 32).bmod (2 ^ 32), if d < 0 then -1 else 0, l - 1)

theorem exp_base_2_eq {n : Nat} (h : n ≤ 32) : exp_base_2 n = 2 ^ n % 2 ^ 32 := by
  have hall : ∀ k : Fin 33, exp_base_2 k.val = 2 ^ k.val % 2 ^ 32 := by decide
  exact hall ⟨n, by omega⟩

theorem ones_two_pow_sub_one {n : Nat} (h : n ≤ 32) : ones (2 ^ n - 1) = n := by
  have hall : ∀ k : Fin 33, ones (2 ^ k.val - 1) = k.val := by decide
  exact hall ⟨n, by omega⟩

theorem ldz_eq {x : Nat} (h : x < 2 ^ 32) : ldz x = 32 - x.size := by
  have h1 : ∀ i, x.testBit i = true ↔ ∃ j < 1, x.testBit (i + j) = true := fun i =>
    ⟨fun hi => ⟨0, by omega, hi⟩, fun hi => by
      obtain ⟨j, hj, hx⟩ := hi
      obtain rfl : j = 0 := by omega
      exact hx⟩
  have h2 := smear_step h1
  have h4 := smear_step h2
  have h8 := smear_step h4
  have h16 := smear_step h8
  have h32 := smear_step h16
  have hsmear := smear_eq (n := 32) h h32
  have hsize : x.size ≤ 32 := Nat.size_le.mpr h
  unfold ldz
  dsimp only at hsmear ⊢
  rw [hsmear, ones_two_pow_sub_one hsize]

theorem LOG2_CEIL_eq {d : Nat} (hd : 0 < d) (h : d < 2 ^ 32) : LOG2_CEIL d = (d - 1).size := by
  have hsub : (d + (2 ^ 32 - 1)) % 2 ^ 32 = d - 1 := by omega
  have hsize : (d - 1).size ≤ 32 := Nat.size_le.mpr (by omega)
  unfold LOG2_CEIL
  rw [hsub, ldz_eq (by omega)]
  omega

theorem LOG2_CEIL_bounds {d : Nat} (hd : 0 < d) (h : d < 2 ^ 32) :
    LOG2_CEIL d ≤ 32 ∧ d ≤ 2 ^ LOG2_CEIL d ∧ (LOG2_CEIL d ≠ 0 → 2 ^ (LOG2_CEIL d - 1) < d) := by
  rw [LOG2_CEIL_eq hd h]
  have hlt : d - 1 < 2 ^ (d - 1).size := Nat.lt_size_self _
  refine ⟨Nat.size_le.mpr (by omega), by omega, fun hne => ?_⟩
  have hle : 2 ^ ((d - 1).size - 1) ≤ d - 1 := Nat.lt_size.mp (by omega)
  omega

/-- The constants divide without a sign: with `t1` the upper half of `mprime * n`, the quotient of `n` is
`(((n - t1) >> sh1) + t1) >> sh2`, and no step overflows. -/
theorem ComputeUDivConstants32_spec {d : Nat} (hd : 0 < d) (h : d < 2 ^ 32) :
    ∃ mprime sh1 sh2, ComputeUDivConstants32 d = some (mprime, sh1, sh2) ∧ mprime < 2 ^ 32 ∧ sh1 < 32 ∧ sh2 < 32 ∧
      ∀ n < 2 ^ 32, n * mprime / 2 ^ 32 ≤ n ∧
        (n - n * mprime / 2 ^ 32) / 2 ^ sh1 + n * mprime / 2 ^ 32 < 2 ^ 32 ∧
        ((n - n * mprime / 2 ^ 32) / 2 ^ sh1 + n * mprime / 2 ^ 32) / 2 ^ sh2 = n / d := by
  obtain ⟨hl, hle, hlt⟩ := LOG2_CEIL_bounds hd h
  have hexp : exp_base_2 (LOG2_CEIL d) = 2 ^ LOG2_CEIL d % 2 ^ 32 := exp_base_2_eq hl
  unfold ComputeUDivConstants32
  rw [if_neg (by omega)]
  dsimp only
  rw [hexp]
  generalize LOG2_CEIL d = l at *
  have hdouble : l ≠ 0 → 2 ^ l = 2 ^ (l - 1) + 2 ^ (l - 1) := fun hne => by
    conv_lhs => rw [show l = l - 1 + 1 by omega]
    ring
  have hpow : 2 ^ l ≤ 2 ^ 32 := Nat.pow_le_pow_right (by omega) hl
  -- less than the divisor, so that the quotient fits
  have hmid : (2 ^ l % 2 ^ 32 + (2 ^ 32 - d)) % 2 ^ 32 = 2 ^ l - d := by
    rcases Nat.eq_or_lt_of_le hpow with htop | hsmall
    · rw [htop]
      omega
    · omega
  have hmidlt : 2 ^ l - d + 1 ≤ d := by
    rcases Nat.eq_zero_or_pos l with rfl | hpos
    · omega
    · have hlower : 2 ^ (l - 1) < d := hlt (by omega)
      have hsum := hdouble (by omega)
      omega
  have hmlt : 2 ^ 32 * (2 ^ l - d) / d + 1 < 2 ^ 32 := by
    have hq : 2 ^ 32 * (2 ^ l - d) / d < 2 ^ 32 - 1 := by
      rw [Nat.div_lt_iff_lt_mul hd]
      have hmul : 2 ^ 32 * (2 ^ l - d) + 2 ^ 32 ≤ 2 ^ 32 * d := by
        rw [← Nat.mul_succ]
        exact Nat.mul_le_mul_left _ hmidlt
      omega
    omega
  rw [hmid, Nat.mod_eq_of_lt hmlt]
  -- with the lost bit, the multiplier is the reciprocal of the divisor
  have hm : 2 ^ 32 * (2 ^ l - d) / d + 1 + 2 ^ 32 = 2 ^ 32 * 2 ^ l / d + 1 := by
    have hsplit : 2 ^ 32 * 2 ^ l = 2 ^ 32 * (2 ^ l - d) + 2 ^ 32 * d := by
      rw [← Nat.mul_add, Nat.sub_add_cancel hle]
    rw [hsplit, Nat.add_mul_div_right _ _ hd]
    omega
  generalize hmprime : 2 ^ 32 * (2 ^ l - d) / d + 1 = mprime at *
  refine ⟨mprime, min l 1, l - 1, rfl, hmlt, by omega, by omega, fun n hn => ?_⟩
  have ht1 : n * mprime / 2 ^ 32 ≤ n := by
    refine Nat.div_le_of_le_mul ?_
    rw [Nat.mul_comm (2 ^ 32)]
    exact Nat.mul_le_mul_left n hmlt.le
  have hsum : n * mprime / 2 ^ 32 + n = n * (2 ^ 32 * 2 ^ l / d + 1) / 2 ^ 32 := by
    rw [← hm, Nat.mul_add, Nat.add_mul_div_right _ _ (by omega)]
  have hquot : n * (2 ^ 32 * 2 ^ l / d + 1) / (2 ^ 32 * 2 ^ l) = n / d := by
    refine mul_reciprocal_div hd ?_
    calc n * d ≤ n * 2 ^ l := Nat.mul_le_mul_left n hle
      _ < 2 ^ 32 * 2 ^ l := Nat.mul_lt_mul_of_pos_right hn (by positivity)
  rw [← Nat.div_div_eq_div_mul, ← hsum] at hquot
  generalize n * mprime / 2 ^ 32 = t1 at *
  refine ⟨ht1, ?_, ?_⟩
  · have hshift : (n - t1) / 2 ^ min l 1 ≤ n - t1 := Nat.div_le_self _ _
    omega
  · rcases Nat.eq_zero_or_pos l with rfl | hpos
    · obtain rfl : d = 1 := by omega
      simp only [Nat.zero_min, Nat.zero_sub, pow_zero, Nat.div_one]
      omega
    · have hhalf : (n - t1) / 2 + t1 = (t1 + n) / 2 := by omega
      rw [Nat.min_eq_right hpos, pow_one, hhalf, Nat.div_div_eq_div_mul, ← hquot]
      congr 1
      have hsum := hdouble (by omega)
      omega

/-- The constants divide with a sign: the quotient of `n` is `n + MULSH(mprime, n)`, shifted to the right with its sign,
one more for a negative `n`, and negated for a negative divisor. -/
theorem ComputeSDivConstants32_spec {d : Int} (hd : d ≠ 0) (hd1 : d ≠ 1) (hd2 : d ≠ -1) (h : -2 ^ 31 ≤ d)
    (h' : d < 2 ^ 31) :
    ∃ mprime : Int, ∃ shpost : Nat, ComputeSDivConstants32 d = some (mprime, if d < 0 then -1 else 0, shpost) ∧
      -2 ^ 31 ≤ mprime ∧ mprime ≤ 0 ∧ shpost < 31 ∧
      ∀ n : Int, -2 ^ 31 ≤ n → n < 2 ^ 31 →
        -2 ^ 31 ≤ n + n * mprime / 2 ^ 32 ∧ n + n * mprime / 2 ^ 32 < 2 ^ 31 ∧
        (n + n * mprime / 2 ^ 32) / 2 ^ shpost + (if n < 0 then 1 else 0) = n.tdiv d.natAbs := by
  have hD : 2 ≤ d.natAbs := by omega
  have hDle : d.natAbs ≤ 2 ^ 31 := by omega
  obtain ⟨-, hle, hlt⟩ := LOG2_CEIL_bounds (d := d.natAbs) (by omega) (by omega)
  unfold ComputeSDivConstants32
  rw [if_neg hd]
  dsimp only
  generalize hl : (if d.natAbs = 2 ^ 31 then 31 else max 1 (LOG2_CEIL d.natAbs)) = l
  generalize d.natAbs = D at *
  -- the logarithm of the divisor rounded up, also at the greatest divisor
  have hbounds : 1 ≤ l ∧ l ≤ 31 ∧ D ≤ 2 ^ l ∧ 2 ^ (l - 1) < D := by
    by_cases htop : D = 2 ^ 31
    · rw [if_pos htop] at hl
      subst hl htop
      exact ⟨by omega, by omega, le_refl _, by decide⟩
    · rw [if_neg htop] at hl
      have hne : LOG2_CEIL D ≠ 0 := fun h0 => by
        rw [h0, pow_zero] at hle
        omega
      rw [Nat.max_eq_right (by omega)] at hl
      subst hl
      have hlower : 2 ^ (LOG2_CEIL D - 1) < D := hlt hne
      have hpow : 2 ^ (LOG2_CEIL D - 1) < 2 ^ 31 := by omega
      have hless : LOG2_CEIL D - 1 < 31 := (Nat.pow_lt_pow_iff_right (by omega : 1 < 2)).mp hpow
      exact ⟨by omega, by omega, hle, hlower⟩
  obtain ⟨hl1, hl31, hDl, hlD⟩ := hbounds
  have hexp : exp_base_2 (l - 1) = 2 ^ (l - 1) := by
    rw [exp_base_2_eq (by omega)]
    exact Nat.mod_eq_of_lt (Nat.pow_lt_pow_right (by omega) (by omega))
  have hdouble : 2 ^ l = 2 ^ (l - 1) + 2 ^ (l - 1) := by
    conv_lhs => rw [show l = l - 1 + 1 by omega]
    ring
  rw [hexp]
  have hmlt : 2 ^ 32 * 2 ^ (l - 1) / D < 2 ^ 32 := by
    rw [Nat.div_lt_iff_lt_mul (by omega)]
    exact Nat.mul_lt_mul_of_pos_left hlD (by omega)
  have hmge : 2 ^ 31 ≤ 2 ^ 32 * 2 ^ (l - 1) / D := by
    rw [Nat.le_div_iff_mul_le (by omega)]
    omega
  have hquot := fun n : Int => ediv_reciprocal (D := D) (P := 2 ^ 32 * 2 ^ (l - 1)) (by omega) (n := n)
  generalize 2 ^ 32 * 2 ^ (l - 1) / D = K at *
  have hbmod : ((K + 1 : Nat) - 2 ^ 32 : Int).bmod (2 ^ 32) = (K + 1 : Nat) - 2 ^ 32 :=
    Int.bmod_eq_of_le (by omega) (by omega)
  rw [hbmod]
  refine ⟨_, l - 1, rfl, by omega, by omega, by omega, fun n hn hn' => ?_⟩
  have hmul : n + n * ((K + 1 : Nat) - 2 ^ 32) / 2 ^ 32 = n * (K + 1 : Nat) / 2 ^ 32 := by
    have hsplit : n * ((K + 1 : Nat) - 2 ^ 32) = n * (K + 1 : Nat) + -n * 2 ^ 32 := by ring
    rw [hsplit, Int.add_mul_ediv_right _ _ (by omega)]
    ring
  rw [hmul]
  have hsmall : n.natAbs * D ≤ 2 ^ 32 * 2 ^ (l - 1) := by
    have hnabs : n.natAbs ≤ 2 ^ 31 := by omega
    calc n.natAbs * D ≤ 2 ^ 31 * 2 ^ l := Nat.mul_le_mul hnabs hDl
      _ = 2 ^ 32 * 2 ^ (l - 1) := by omega
  have hsmall' : 0 ≤ n → n.natAbs * D < 2 ^ 32 * 2 ^ (l - 1) := fun hpos => by
    have hnabs : n.natAbs < 2 ^ 31 := by omega
    calc n.natAbs * D < 2 ^ 31 * D := Nat.mul_lt_mul_of_pos_right hnabs (by omega)
      _ ≤ 2 ^ 31 * 2 ^ l := Nat.mul_le_mul_left _ hDl
      _ = 2 ^ 32 * 2 ^ (l - 1) := by omega
  have hKpos : (0 : Int) < (K + 1 : Nat) := by omega
  have hKle : ((K + 1 : Nat) : Int) ≤ 2 ^ 32 := by omega
  refine ⟨?_, ?_, ?_⟩
  · rw [Int.le_ediv_iff_mul_le (by omega)]
    calc (-2 ^ 31 * 2 ^ 32 : Int) ≤ -2 ^ 31 * (K + 1 : Nat) := Int.mul_le_mul_of_nonpos_left (by omega) hKle
      _ ≤ n * (K + 1 : Nat) := Int.mul_le_mul_of_nonneg_right hn hKpos.le
  · rw [Int.ediv_lt_iff_lt_mul (by omega)]
    calc n * (K + 1 : Nat) < 2 ^ 31 * (K + 1 : Nat) := Int.mul_lt_mul_of_pos_right hn' hKpos
      _ ≤ 2 ^ 31 * 2 ^ 32 := Int.mul_le_mul_of_nonneg_left hKle (by omega)
  · rw [← hquot n hsmall hsmall', Int.ediv_ediv_of_nonneg (by omega)]
    push_cast
    rfl

end CgsKlee
