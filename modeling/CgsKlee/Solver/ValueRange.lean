import Mathlib.Tactic.Ring
import CgsKlee.Lib.APInt
import CgsKlee.Lib.BitBounds
import CgsKlee.Solver.ConstantDivision

/-!
# Ranges of values

`ValueRange` of `FastCexSolver.cpp`: an interval of words, and what the operations of the expression language make of
intervals.  Words are natural numbers below `2 ^ 64`; `none` is a failed assertion, or an operation without a defined
result.

An operation is right if it keeps what it is about: where the operands contain two values, the result contains what the
operation makes of them.
-/

namespace CgsKlee

open BitBounds WordArithmetic

/-- `temp = (a | m) & -m`, for `m` the bit `k`. -/
def moveUp (a k : Nat) : Nat := (a ||| 2 ^ k) &&& (2 ^ 64 - 2 ^ k)

/-- `minOR`, from the bit below `k` down.  `~a & c & m` is the bit of `c` that `a` does not have. -/
def minOR (a b c d : Nat) : Nat → Nat
  | 0 => a ||| c
  | k + 1 =>
    if (!a.testBit k && c.testBit k) = true then
      if moveUp a k ≤ b then moveUp a k ||| c else minOR a b c d k
    else if (a.testBit k && !c.testBit k) = true then
      if moveUp c k ≤ d then a ||| moveUp c k else minOR a b c d k
    else minOR a b c d k

/-- `temp = (b - m) | (m - 1)`. -/
def moveDown (b k : Nat) : Nat := (b - 2 ^ k) ||| (2 ^ k - 1)

def maxOR (a b c d : Nat) : Nat → Nat
  | 0 => b ||| d
  | k + 1 =>
    if (b.testBit k && d.testBit k) = true then
      if moveDown b k ≥ a then moveDown b k ||| d
      else if moveDown d k ≥ c then b ||| moveDown d k
      else maxOR a b c d k
    else maxOR a b c d k

def minAND (a b c d : Nat) : Nat → Nat
  | 0 => a &&& c
  | k + 1 =>
    if (!a.testBit k && !c.testBit k) = true then
      if moveUp a k ≤ b then moveUp a k &&& c
      else if moveUp c k ≤ d then a &&& moveUp c k
      else minAND a b c d k
    else minAND a b c d k

/-- `temp = (b & ~m) | (m - 1)`. -/
def moveBelow (b k : Nat) : Nat := (b &&& (2 ^ 64 - 1 - 2 ^ k)) ||| (2 ^ k - 1)

def maxAND (a b c d : Nat) : Nat → Nat
  | 0 => b &&& d
  | k + 1 =>
    if (b.testBit k && !d.testBit k) = true then
      if moveBelow b k ≥ a then moveBelow b k &&& d else maxAND a b c d k
    else if (!b.testBit k && d.testBit k) = true then
      if moveBelow d k ≥ c then b &&& moveBelow d k else maxAND a b c d k
    else maxAND a b c d k

section Moves

variable {a b c d k : Nat}

theorem moveUp_eq (h : a < 2 ^ 64) (hk : k < 64) (ha : a.testBit k = false) : moveUp a k = raise a k := by
  have hmask : 2 ^ 64 - 2 ^ k = 2 ^ 64 - ((2 ^ k - 1) + 1) := by
    have := Nat.two_pow_pos k
    omega
  have hlt : 2 ^ k - 1 < 2 ^ 64 := by
    have := Nat.pow_lt_pow_right (show 1 < 2 by omega) hk
    omega
  apply Nat.eq_of_testBit_eq
  intro i
  unfold moveUp
  rw [testBit_raise_eq ha, hmask, Nat.testBit_and, Nat.testBit_or, Nat.testBit_two_pow_sub_succ hlt,
    Nat.testBit_two_pow_sub_one, Nat.testBit_two_pow]
  by_cases hi : i < 64
  · by_cases hik : i < k
    · simp [hik, Nat.not_le.mpr hik]
    · simp [hi, hik, Nat.not_lt.mp hik]
  · have hai : a.testBit i = false :=
      Nat.testBit_lt_two_pow (h.trans_le (Nat.pow_le_pow_right (by omega) (Nat.not_lt.mp hi)))
    simp [hi, hai, show k ≠ i by omega]

theorem moveDown_eq (hb : b.testBit k = true) : moveDown b k = lower b k := by
  have hle : 2 ^ k * 1 ≤ b := by
    rw [Nat.mul_one]
    exact Nat.ge_two_pow_of_testBit hb
  have hpos := Nat.two_pow_pos k
  have hdiv : moveDown b k / 2 ^ k = lower b k / 2 ^ k := by
    unfold moveDown
    rw [Nat.or_div_two_pow, lower_div hb, Nat.div_eq_of_lt (show 2 ^ k - 1 < 2 ^ k by omega), Nat.or_zero]
    simpa using Nat.sub_mul_div b (2 ^ k) 1
  have hmod : moveDown b k % 2 ^ k = lower b k % 2 ^ k := by
    apply Nat.eq_of_testBit_eq
    intro i
    rw [lower_mod hb]
    unfold moveDown
    simp only [Nat.testBit_mod_two_pow, Nat.testBit_or, Nat.testBit_two_pow_sub_one]
    by_cases hi : i < k <;> simp [hi]
  rw [← Nat.div_add_mod (moveDown b k) (2 ^ k), ← Nat.div_add_mod (lower b k) (2 ^ k), hdiv, hmod]

theorem moveBelow_eq (h : b < 2 ^ 64) (hk : k < 64) (hb : b.testBit k = true) : moveBelow b k = lower b k := by
  have hlt : 2 ^ k < 2 ^ 64 := Nat.pow_lt_pow_right (by omega) hk
  have hmask : 2 ^ 64 - 1 - 2 ^ k = 2 ^ 64 - (2 ^ k + 1) := by omega
  apply Nat.eq_of_testBit_eq
  intro i
  unfold moveBelow
  rw [testBit_lower_eq hb, hmask, Nat.testBit_or, Nat.testBit_and, Nat.testBit_two_pow_sub_succ hlt,
    Nat.testBit_two_pow_sub_one, Nat.testBit_two_pow]
  by_cases hi : i < 64
  · by_cases hik : i < k <;> simp [hi, hik]
  · have hbi : b.testBit i = false :=
      Nat.testBit_lt_two_pow (h.trans_le (Nat.pow_le_pow_right (by omega) (Nat.not_lt.mp hi)))
    simp [hbi]

theorem minOR_eq (ha : a < 2 ^ 64) (hc : c < 2 ^ 64) (hk : k ≤ 64) : minOR a b c d k = leastOr a b c d k := by
  induction k with
  | zero => rfl
  | succ k ih =>
    unfold minOR leastOr
    rw [ih (by omega)]
    split_ifs <;> simp_all [moveUp_eq]

theorem maxOR_eq (hk : k ≤ 64) : maxOR a b c d k = greatestOr a b c d k := by
  induction k with
  | zero => rfl
  | succ k ih =>
    unfold maxOR greatestOr
    rw [ih (by omega)]
    split_ifs <;> simp_all [moveDown_eq]

theorem minAND_eq (ha : a < 2 ^ 64) (hc : c < 2 ^ 64) (hk : k ≤ 64) :
    minAND a b c d k = leastAnd a b c d k := by
  induction k with
  | zero => rfl
  | succ k ih =>
    unfold minAND leastAnd
    rw [ih (by omega)]
    split_ifs <;> simp_all [moveUp_eq]

theorem maxAND_eq (hb : b < 2 ^ 64) (hd : d < 2 ^ 64) (hk : k ≤ 64) :
    maxAND a b c d k = greatestAnd a b c d k := by
  induction k with
  | zero => rfl
  | succ k ih =>
    unfold maxAND greatestAnd
    rw [ih (by omega)]
    split_ifs <;> simp_all [moveBelow_eq]

/-- The loops find the least and the greatest values that the operations take on two intervals of words. -/
theorem bitwise_bounds_exact (hab : a ≤ b) (hb : b < 2 ^ 64) (hcd : c ≤ d) (hd : d < 2 ^ 64) :
    IsLeast (Set.image2 (· ||| ·) (Set.Icc a b) (Set.Icc c d)) (minOR a b c d 64) ∧
      IsGreatest (Set.image2 (· ||| ·) (Set.Icc a b) (Set.Icc c d)) (maxOR a b c d 64) ∧
      IsLeast (Set.image2 (· &&& ·) (Set.Icc a b) (Set.Icc c d)) (minAND a b c d 64) ∧
      IsGreatest (Set.image2 (· &&& ·) (Set.Icc a b) (Set.Icc c d)) (maxAND a b c d 64) := by
  have hword : ∀ {x y : Nat}, x ≤ y → y < 2 ^ 64 → x / 2 ^ 64 = 0 := fun hle hlt =>
    Nat.div_eq_of_lt (hle.trans_lt hlt)
  rw [minOR_eq (hab.trans_lt hb) (hcd.trans_lt hd) le_rfl, maxOR_eq le_rfl,
    minAND_eq (hab.trans_lt hb) (hcd.trans_lt hd) le_rfl, maxAND_eq hb hd le_rfl]
  refine ⟨⟨?_, ?_⟩, ⟨?_, ?_⟩, ⟨?_, ?_⟩, ⟨?_, ?_⟩⟩
  · obtain ⟨x, y, hax, hxb, hcy, hyd, h⟩ := exists_leastOr hab hcd 64
    exact ⟨x, ⟨hax, hxb⟩, y, ⟨hcy, hyd⟩, h.symm⟩
  · rintro _ ⟨x, ⟨hax, hxb⟩, y, ⟨hcy, hyd⟩, rfl⟩
    exact leastOr_le hax hxb hcy hyd 64 ((hword hxb hb).trans (hword hab hb).symm)
      ((hword hyd hd).trans (hword hcd hd).symm)
  · obtain ⟨x, y, hax, hxb, hcy, hyd, h⟩ := exists_greatestOr hab hcd 64
    exact ⟨x, ⟨hax, hxb⟩, y, ⟨hcy, hyd⟩, h.symm⟩
  · rintro _ ⟨x, ⟨hax, hxb⟩, y, ⟨hcy, hyd⟩, rfl⟩
    exact le_greatestOr hax hxb hcy hyd 64 ((hword hxb hb).trans (hword le_rfl hb).symm)
      ((hword hyd hd).trans (hword le_rfl hd).symm)
  · obtain ⟨x, y, hax, hxb, hcy, hyd, h⟩ := exists_leastAnd hab hcd 64
    exact ⟨x, ⟨hax, hxb⟩, y, ⟨hcy, hyd⟩, h.symm⟩
  · rintro _ ⟨x, ⟨hax, hxb⟩, y, ⟨hcy, hyd⟩, rfl⟩
    exact leastAnd_le hax hxb hcy hyd 64 ((hword hxb hb).trans (hword hab hb).symm)
      ((hword hyd hd).trans (hword hcd hd).symm)
  · obtain ⟨x, y, hax, hxb, hcy, hyd, h⟩ := exists_greatestAnd hab hcd 64
    exact ⟨x, ⟨hax, hxb⟩, y, ⟨hcy, hyd⟩, h.symm⟩
  · rintro _ ⟨x, ⟨hax, hxb⟩, y, ⟨hcy, hyd⟩, rfl⟩
    exact le_greatestAnd hax hxb hcy hyd 64 ((hword hxb hb).trans (hword le_rfl hb).symm)
      ((hword hyd hd).trans (hword le_rfl hd).symm)

theorem bitwise_bounds_exact_small :
    (minOR 5 9 2 6 64 = 5 ∧ maxOR 5 9 2 6 64 = 15 ∧ minAND 5 9 2 6 64 = 0 ∧ maxAND 5 9 2 6 64 = 6) ∧
      IsLeast (Set.image2 (· ||| ·) (Set.Icc 5 9) (Set.Icc 2 6)) (minOR 5 9 2 6 64) ∧
      IsGreatest (Set.image2 (· ||| ·) (Set.Icc 5 9) (Set.Icc 2 6)) (maxOR 5 9 2 6 64) ∧
      IsLeast (Set.image2 (· &&& ·) (Set.Icc 5 9) (Set.Icc 2 6)) (minAND 5 9 2 6 64) ∧
      IsGreatest (Set.image2 (· &&& ·) (Set.Icc 5 9) (Set.Icc 2 6)) (maxAND 5 9 2 6 64) :=
  ⟨by decide, bitwise_bounds_exact (by decide) (by decide) (by decide) (by decide)⟩

end Moves

/-- `ints::sext`, of a word of `inWidth` bits. -/
def sext (l outWidth inWidth : Nat) : Nat :=
  let numInvalidBits := 64 - inWidth
  Bits64.truncateToNBits ((BitVec.ofNat 64 (l <<< numInvalidBits)).sshiftRight numInvalidBits).toNat outWidth

def toInt64 (x : Nat) : Int := (BitVec.ofNat 64 x).toInt

/-- The word as a number of `w` bits in two's complement. -/
def signedValue (w x : Nat) : Int := (BitVec.ofNat w x).toInt

theorem signedValue_eq {w x : Nat} (h : x < 2 ^ w) :
    signedValue w x = if 2 * x < 2 ^ w then (x : Int) else (x : Int) - (2 ^ w : Nat) := by
  unfold signedValue
  rw [BitVec.toInt_eq_toNat_cond, BitVec.toNat_ofNat, Nat.mod_eq_of_lt h]

theorem toInt64_of_lt {x : Nat} (h : 2 * x < 2 ^ 64) : toInt64 x = x := by
  have hx : toInt64 x = signedValue 64 x := rfl
  rw [hx, signedValue_eq (by omega), if_pos h]

theorem toInt64_sext {w l : Nat} (h : l < 2 ^ w) (hw : w ≤ 64) : toInt64 (sext l 64 w) = signedValue w l := by
  obtain ⟨n, hn⟩ : ∃ n, 64 - w = n := ⟨_, rfl⟩
  have hpow : 2 ^ w * 2 ^ n = 2 ^ 64 := by
    rw [← Nat.pow_add]
    congr 1
    omega
  have hpos := Nat.two_pow_pos n
  have hlt : l * 2 ^ n < 2 ^ 64 := by
    rw [← hpow]
    exact Nat.mul_lt_mul_of_pos_right h hpos
  have hshift : (BitVec.ofNat 64 (l * 2 ^ n)).toInt = signedValue w l * (2 ^ n : Nat) := by
    have hword : (BitVec.ofNat 64 (l * 2 ^ n)).toInt = signedValue 64 (l * 2 ^ n) := rfl
    rw [hword, signedValue_eq hlt, signedValue_eq h, ← hpow]
    have hiff : 2 * (l * 2 ^ n) < 2 ^ w * 2 ^ n ↔ 2 * l < 2 ^ w := by
      rw [← Nat.mul_assoc]
      exact Nat.mul_lt_mul_right hpos
    by_cases hneg : 2 * l < 2 ^ w
    · rw [if_pos (hiff.mpr hneg), if_pos hneg, Nat.cast_mul]
    · rw [if_neg (fun hlt => hneg (hiff.mp hlt)), if_neg hneg, Nat.cast_mul, Nat.cast_mul, Int.sub_mul]
  unfold toInt64 sext
  dsimp only
  rw [hn, Nat.shiftLeft_eq, Bits64.truncateToNBits_eq le_rfl, Nat.mod_eq_of_lt (BitVec.isLt _)]
  rw [BitVec.ofNat_toNat, BitVec.setWidth_eq, BitVec.toInt_sshiftRight, Int.shiftRight_eq_div_pow, hshift]
  exact Int.mul_ediv_cancel _ (by exact_mod_cast hpos.ne')

structure ValueRange where
  mMin : Nat := 1
  mMax : Nat := 0
deriving DecidableEq, Repr

namespace ValueRange

def ofConstant (c : APInt) : ValueRange := ⟨min c.toNat (2 ^ 64 - 1), min c.toNat (2 ^ 64 - 1)⟩

def ofValue (value : Nat) : ValueRange := ⟨value, value⟩

def isEmpty (r : ValueRange) : Bool := decide (r.mMin > r.mMax)

def isFixed (r : ValueRange) : Bool := r.mMin == r.mMax

def setIntersection (r b : ValueRange) : ValueRange := ⟨max r.mMin b.mMin, min r.mMax b.mMax⟩

def setUnion (r b : ValueRange) : ValueRange := ⟨min r.mMin b.mMin, max r.mMax b.mMax⟩

def setDifference (r b : ValueRange) : ValueRange :=
  if b.isEmpty ∨ b.mMin > r.mMax ∨ b.mMax < r.mMin then r
  else if b.mMin ≤ r.mMin ∧ b.mMax ≥ r.mMax then ⟨1, 0⟩
  else if b.mMin ≤ r.mMin then ⟨b.mMax + 1, r.mMax⟩
  else ⟨r.mMin, b.mMin - 1⟩

def intersects (r b : ValueRange) : Bool := !(r.setIntersection b).isEmpty

def contains (r : ValueRange) (value : Nat) : Bool := r.intersects (ofValue value)

/-- `isFullRange`, of a number of bits that is at most 64. -/
def isFullRange (r : ValueRange) (bits : Nat) : Bool :=
  r.mMin == 0 && some r.mMax == Bits64.maxValueOfNBits bits

def binaryAnd (r b : ValueRange) : Option ValueRange :=
  -- assert: !isEmpty() && !b.isEmpty()
  if !r.isEmpty && !b.isEmpty then
    some (if r.isFixed && b.isFixed then ofValue (r.mMin &&& b.mMin)
      else ⟨minAND r.mMin r.mMax b.mMin b.mMax 64, maxAND r.mMin r.mMax b.mMin b.mMax 64⟩)
  else none

def binaryOr (r b : ValueRange) : Option ValueRange :=
  -- assert: !isEmpty() && !b.isEmpty()
  if !r.isEmpty && !b.isEmpty then
    some (if r.isFixed && b.isFixed then ofValue (r.mMin ||| b.mMin)
      else ⟨minOR r.mMin r.mMax b.mMin b.mMax 64, maxOR r.mMin r.mMax b.mMin b.mMax 64⟩)
  else none

/-- The loop of `binaryXor`, which clears the lowest bit until one bit is left.  It does not end for zero. -/
def highestBit (t : Nat) : Nat → Option Nat
  | 0 => none
  | fuel + 1 => if Bits64.isPowerOfTwo t then some t else highestBit (Bits64.withoutRightmostBit t) fuel

/-- A word has at most 64 bits to clear. -/
def binaryXor (r b : ValueRange) : Option ValueRange :=
  if r.isFixed && b.isFixed then some (ofValue (r.mMin ^^^ b.mMin))
  else (highestBit (r.mMax ||| b.mMax) 64).map fun t => ⟨0, (t <<< 1 + (2 ^ 64 - 1)) % 2 ^ 64⟩

def binaryShiftLeft (r : ValueRange) (bits : Nat) : ValueRange :=
  ⟨(r.mMin <<< bits) % 2 ^ 64, (r.mMax <<< bits) % 2 ^ 64⟩

def binaryShiftRight (r : ValueRange) (bits : Nat) : ValueRange := ⟨r.mMin >>> bits, r.mMax >>> bits⟩

def concat (r b : ValueRange) (bits : Nat) : Option ValueRange := (r.binaryShiftLeft bits).binaryOr b

def extract (r : ValueRange) (lowBit maxBit : Nat) : Option ValueRange := do
  (r.binaryShiftRight lowBit).binaryAnd (ofValue (← Bits64.maxValueOfNBits (maxBit - lowBit)))

def full (width : Nat) : Option ValueRange := (Bits64.maxValueOfNBits width).map (⟨0, ·⟩)

/-- `add`, `sub`, `mul`, `udiv`, `sdiv`, `urem` and `srem`, which say nothing about the result. -/
def arithmetic (_r _b : ValueRange) (width : Nat) : Option ValueRange := full width

def mustBe (r : ValueRange) (b : Nat) : Bool := r.mMin == r.mMax && r.mMin == b

def mustEqual (r b : ValueRange) : Bool := r.isFixed && b.isFixed && r.mMin == b.mMin

def mayBe (r : ValueRange) (b : Nat) : Bool := decide (r.mMin ≤ b) && decide (r.mMax ≥ b)

def mayEqual (r b : ValueRange) : Bool := r.intersects b

/-- `min()`.  assert: !isEmpty() -/
def min? (r : ValueRange) : Option Nat := if !r.isEmpty then some r.mMin else none

/-- `max()`.  assert: !isEmpty() -/
def max? (r : ValueRange) : Option Nat := if !r.isEmpty then some r.mMax else none

/-- The assertion of `minSigned` and `maxSigned`.  A shift by all 64 bits, and one by less than none, is undefined. -/
def withinBits (r : ValueRange) (bits : Nat) : Bool :=
  decide (0 < bits) && decide (bits < 64) && r.mMin >>> bits == 0 && r.mMax >>> bits == 0

def minSigned (r : ValueRange) (bits : Nat) : Option Int :=
  if r.withinBits bits then
    let smallest := 1 <<< (bits - 1)
    some (toInt64 (if r.mMax ≥ smallest then sext smallest 64 bits else r.mMin))
  else none

def maxSigned (r : ValueRange) (bits : Nat) : Option Int :=
  if r.withinBits bits then
    let smallest := 1 <<< (bits - 1)
    some (toInt64 (if r.mMin < smallest ∧ r.mMax ≥ smallest then smallest - 1 else sext r.mMax 64 bits))
  else none

structure Covers (r : ValueRange) (w v : Nat) : Prop where
  min_le : r.mMin ≤ v
  le_max : v ≤ r.mMax
  max_lt : r.mMax < 2 ^ w

variable {r b r' : ValueRange} {w x y v : Nat}

theorem contains_iff : r.contains v = true ↔ r.mMin ≤ v ∧ v ≤ r.mMax := by
  simp only [contains, intersects, setIntersection, isEmpty, ofValue, gt_iff_lt, Bool.not_eq_true',
    decide_eq_false_iff_not, Nat.not_lt, le_min_iff, max_le_iff]
  omega

namespace Covers

theorem contains (h : r.Covers w v) : r.contains v = true := contains_iff.mpr ⟨h.min_le, h.le_max⟩

theorem isEmpty_eq (h : r.Covers w v) : r.isEmpty = false := by
  have hle := h.min_le.trans h.le_max
  simpa [isEmpty] using hle

theorem max_lt_word (h : r.Covers w v) (hw : w ≤ 64) : r.mMax < 2 ^ 64 :=
  h.max_lt.trans_le (Nat.pow_le_pow_right (by omega) hw)

theorem div_word (h : r.Covers w v) (hw : w ≤ 64) : v / 2 ^ 64 = r.mMin / 2 ^ 64 ∧ v / 2 ^ 64 = r.mMax / 2 ^ 64 := by
  have hlt := h.max_lt_word hw
  have hmin := h.min_le
  have hmax := h.le_max
  rw [Nat.div_eq_of_lt hlt, Nat.div_eq_of_lt (hmax.trans_lt hlt), Nat.div_eq_of_lt (by omega)]
  exact ⟨rfl, rfl⟩

theorem eq_of_isFixed (h : r.Covers w v) (hfix : r.isFixed = true) : v = r.mMin := by
  have heq : r.mMin = r.mMax := by simpa [isFixed] using hfix
  have hmin := h.min_le
  have hmax := h.le_max
  omega

theorem ofValue (h : v < 2 ^ w) : (ofValue v).Covers w v := ⟨le_rfl, le_rfl, h⟩

theorem full (hw : w ≤ 64) : ∃ r, full w = some r ∧ ∀ v < 2 ^ w, r.Covers w v := by
  refine ⟨⟨0, 2 ^ w - 1⟩, ?_, ?_⟩
  · unfold ValueRange.full
    rw [Bits64.maxValueOfNBits_eq hw]
    rfl
  · intro v hv
    exact ⟨Nat.zero_le v, Nat.le_sub_one_of_lt hv, Nat.sub_lt (Nat.two_pow_pos w) Nat.one_pos⟩

theorem setUnion_left (h : r.Covers w v) (hb : b.mMax < 2 ^ w) : (r.setUnion b).Covers w v :=
  ⟨(min_le_left _ _).trans h.min_le, h.le_max.trans (le_max_left _ _), Nat.max_lt.mpr ⟨h.max_lt, hb⟩⟩

theorem setUnion_right (hr : r.mMax < 2 ^ w) (h : b.Covers w v) : (r.setUnion b).Covers w v :=
  ⟨(min_le_right _ _).trans h.min_le, h.le_max.trans (le_max_right _ _), Nat.max_lt.mpr ⟨hr, h.max_lt⟩⟩

theorem bitwise {op : Nat → Nat → Nat} {least greatest : Nat} (hr : r.Covers w x) (hb : b.Covers w y)
    (hop : ∀ {p q}, p < 2 ^ w → q < 2 ^ w → op p q < 2 ^ w) (hmin : least ≤ op x y) (hmax : op x y ≤ greatest)
    (hgreatest : ∃ p q, p ≤ r.mMax ∧ q ≤ b.mMax ∧ greatest = op p q) :
    ∃ r', (if !r.isEmpty && !b.isEmpty then
        some (if r.isFixed && b.isFixed then ValueRange.ofValue (op r.mMin b.mMin) else ⟨least, greatest⟩) else none) = some r' ∧
      r'.Covers w (op x y) := by
  rw [hr.isEmpty_eq, hb.isEmpty_eq, Bool.not_false, Bool.and_self, if_pos rfl]
  refine ⟨_, rfl, ?_⟩
  split
  · rename_i hfix
    simp only [Bool.and_eq_true] at hfix
    rw [← hr.eq_of_isFixed hfix.1, ← hb.eq_of_isFixed hfix.2]
    exact Covers.ofValue (hop (hr.le_max.trans_lt hr.max_lt) (hb.le_max.trans_lt hb.max_lt))
  · refine ⟨hmin, hmax, ?_⟩
    obtain ⟨p, q, hp, hq, rfl⟩ := hgreatest
    exact hop (hp.trans_lt hr.max_lt) (hq.trans_lt hb.max_lt)

theorem binaryOr (hr : r.Covers w x) (hb : b.Covers w y) (hw : w ≤ 64) :
    ∃ r', r.binaryOr b = some r' ∧ r'.Covers w (x ||| y) := by
  have hrle := hr.min_le.trans hr.le_max
  have hble := hb.min_le.trans hb.le_max
  have hrdiv := hr.div_word hw
  have hbdiv := hb.div_word hw
  unfold ValueRange.binaryOr
  rw [minOR_eq (hrle.trans_lt (hr.max_lt_word hw)) (hble.trans_lt (hb.max_lt_word hw)) le_rfl, maxOR_eq le_rfl]
  obtain ⟨p, q, -, hp, -, hq, heq⟩ := exists_greatestOr hrle hble 64
  exact bitwise hr hb Nat.or_lt_two_pow (leastOr_le hr.min_le hr.le_max hb.min_le hb.le_max 64 hrdiv.1 hbdiv.1)
    (le_greatestOr hr.min_le hr.le_max hb.min_le hb.le_max 64 hrdiv.2 hbdiv.2) ⟨p, q, hp, hq, heq⟩

theorem binaryAnd (hr : r.Covers w x) (hb : b.Covers w y) (hw : w ≤ 64) :
    ∃ r', r.binaryAnd b = some r' ∧ r'.Covers w (x &&& y) := by
  have hrmax := hr.max_lt_word hw
  have hbmax := hb.max_lt_word hw
  have hrle := hr.min_le.trans hr.le_max
  have hble := hb.min_le.trans hb.le_max
  have hrdiv := hr.div_word hw
  have hbdiv := hb.div_word hw
  unfold ValueRange.binaryAnd
  rw [minAND_eq (hrle.trans_lt hrmax) (hble.trans_lt hbmax) le_rfl, maxAND_eq hrmax hbmax le_rfl]
  obtain ⟨p, q, -, hp, -, hq, heq⟩ := exists_greatestAnd hrle hble 64
  exact bitwise hr hb (fun _ hlt => Nat.and_lt_two_pow _ hlt)
    (leastAnd_le hr.min_le hr.le_max hb.min_le hb.le_max 64 hrdiv.1 hbdiv.1)
    (le_greatestAnd hr.min_le hr.le_max hb.min_le hb.le_max 64 hrdiv.2 hbdiv.2) ⟨p, q, hp, hq, heq⟩

theorem highestBit_spec {k : Nat} : ∀ {fuel t : Nat}, 2 ^ k ≤ t → t < 2 ^ (k + 1) → k < 64 → 2 ^ (64 - fuel) ∣ t →
    fuel ≤ 64 → highestBit t fuel = some (2 ^ k)
  | 0, t, hle, hlt, hk, hdvd, _ => by
    have hpow : 2 ^ (k + 1) ≤ 2 ^ 64 := Nat.pow_le_pow_right (by omega) (by omega)
    have hzero := Nat.eq_zero_of_dvd_of_lt hdvd (hlt.trans_le hpow)
    have hpos := Nat.two_pow_pos k
    omega
  | fuel + 1, t, hle, hlt, hk, hdvd, hfuel => by
    have hpos := Nat.two_pow_pos k
    have hword : t < 2 ^ 64 := hlt.trans_le (Nat.pow_le_pow_right (by omega) (by omega))
    unfold highestBit
    split
    · rename_i hpow
      obtain ⟨l, -, rfl, -⟩ := Bits64.exists_of_isPowerOfTwo hpow hword
      have hkl : k ≤ l := (Nat.pow_le_pow_iff_right (by omega)).mp hle
      have hlk : l < k + 1 := (Nat.pow_lt_pow_iff_right (by omega)).mp hlt
      rw [show l = k by omega]
    · rename_i hpow
      obtain ⟨l, q, rfl⟩ := exists_lowest_bit (show t ≠ 0 by omega)
      have hq : q ≠ 0 := by
        rintro rfl
        have hne : 2 ^ l * (2 * 0 + 1) ≠ 0 := by positivity
        have hclear := Bits64.withoutRightmostBit_eq l 0
        unfold Bits64.withoutRightmostBit at hclear
        apply hpow
        unfold Bits64.isPowerOfTwo
        rw [if_neg hne, hclear]
        rfl
      have hlk : l < k := by
        have hlt' : 2 ^ (l + 1) < 2 ^ (k + 1) := by
          refine lt_of_le_of_lt ?_ hlt
          rw [Nat.pow_succ]
          exact Nat.mul_le_mul_left _ (by omega)
        have := (Nat.pow_lt_pow_iff_right (show 1 < 2 by omega)).mp hlt'
        omega
      have hsub : 64 - (fuel + 1) ≤ l := by
        have hcop : Nat.Coprime (2 ^ (64 - (fuel + 1))) (2 * q + 1) := by
          apply Nat.Coprime.pow_left
          simp
        exact (Nat.pow_dvd_pow_iff_le_right (by omega)).mp (hcop.dvd_of_dvd_mul_right hdvd)
      rw [Bits64.withoutRightmostBit_eq]
      apply highestBit_spec
      · obtain ⟨j, rfl⟩ : ∃ j, k = l + (j + 1) := ⟨k - l - 1, by omega⟩
        rw [Nat.pow_add] at hle ⊢
        have hle' := Nat.le_of_mul_le_mul_left hle (Nat.two_pow_pos l)
        apply Nat.mul_le_mul_left
        rw [Nat.pow_succ] at hle' ⊢
        omega
      · exact lt_of_le_of_lt (Nat.mul_le_mul_left _ (by omega)) hlt
      · exact hk
      · rw [show 2 ^ l * (2 * q) = 2 ^ (l + 1) * q by rw [Nat.pow_succ]; ring]
        exact Dvd.dvd.mul_right (Nat.pow_dvd_pow 2 (by omega)) q
      · omega

theorem binaryXor (hr : r.Covers w x) (hb : b.Covers w y) (hw : w ≤ 64) :
    ∃ r', r.binaryXor b = some r' ∧ r'.Covers w (x ^^^ y) := by
  have hx := hr.le_max.trans_lt hr.max_lt
  have hy := hb.le_max.trans_lt hb.max_lt
  unfold ValueRange.binaryXor
  split
  · rename_i hfix
    simp only [Bool.and_eq_true] at hfix
    rw [← hr.eq_of_isFixed hfix.1, ← hb.eq_of_isFixed hfix.2]
    exact ⟨_, rfl, Covers.ofValue (Nat.xor_lt_two_pow hx hy)⟩
  · rename_i hfix
    have hne : r.mMax ||| b.mMax ≠ 0 := by
      intro hzero
      obtain ⟨hrz, hbz⟩ := Nat.or_eq_zero_iff.mp hzero
      have hrle := hr.min_le.trans hr.le_max
      have hble := hb.min_le.trans hb.le_max
      apply hfix
      simp [isFixed, hrz, hbz, show r.mMin = 0 by omega, show b.mMin = 0 by omega]
    have hor : r.mMax ||| b.mMax < 2 ^ w := Nat.or_lt_two_pow hr.max_lt hb.max_lt
    have hle := Nat.log2_self_le hne
    have hlt : r.mMax ||| b.mMax < 2 ^ ((r.mMax ||| b.mMax).log2 + 1) := Nat.lt_log2_self
    generalize hk : (r.mMax ||| b.mMax).log2 = k at hle hlt
    have hkw : k < w := (Nat.pow_lt_pow_iff_right (show 1 < 2 by omega)).mp (hle.trans_lt hor)
    have hpow : 2 ^ (k + 1) ≤ 2 ^ w := Nat.pow_le_pow_right (by omega) hkw
    have hword : 2 ^ w ≤ 2 ^ 64 := Nat.pow_le_pow_right (by omega) hw
    have hpos := Nat.two_pow_pos (k + 1)
    have hxk : x < 2 ^ (k + 1) := (hr.le_max.trans Nat.left_le_or).trans_lt hlt
    have hyk : y < 2 ^ (k + 1) := (hb.le_max.trans Nat.right_le_or).trans_lt hlt
    have hxor := Nat.xor_lt_two_pow hxk hyk
    have hmod : ((2 ^ k) <<< 1 + (2 ^ 64 - 1)) % 2 ^ 64 = 2 ^ (k + 1) - 1 := by
      rw [Nat.shiftLeft_eq, ← Nat.pow_succ]
      omega
    rw [highestBit_spec hle hlt (hkw.trans_le hw) (by simp) le_rfl]
    refine ⟨_, rfl, ?_⟩
    dsimp only
    rw [hmod]
    constructor
    · exact Nat.zero_le _
    · dsimp only
      omega
    · dsimp only
      omega

theorem concat (hr : r.Covers w x) (hb : b.Covers 8 y) (hw : w + 8 ≤ 64) :
    ∃ r', r.concat b 8 = some r' ∧ r'.Covers (w + 8) (x <<< 8 ||| y) := by
  have hmin := hr.min_le
  have hmax := hr.le_max
  have hlt := hr.max_lt
  have hword : 2 ^ (w + 8) ≤ 2 ^ 64 := Nat.pow_le_pow_right (by omega) hw
  have hbyte : 2 ^ 8 ≤ 2 ^ (w + 8) := Nat.pow_le_pow_right (by omega) (by omega)
  rw [Nat.pow_add] at hword hbyte
  have hshift : (r.binaryShiftLeft 8).Covers (w + 8) (x <<< 8) := by
    simp only [binaryShiftLeft, Nat.shiftLeft_eq]
    rw [Nat.mod_eq_of_lt (by omega), Nat.mod_eq_of_lt (by omega)]
    refine ⟨Nat.mul_le_mul_right _ hmin, Nat.mul_le_mul_right _ hmax, ?_⟩
    rw [Nat.pow_add]
    exact Nat.mul_lt_mul_of_pos_right hlt (by omega)
  have hlow : b.Covers (w + 8) y := ⟨hb.min_le, hb.le_max, by rw [Nat.pow_add]; exact hb.max_lt.trans_le hbyte⟩
  exact hshift.binaryOr hlow hw

theorem eq_of_mustEqual (hr : r.Covers w x) (hb : b.Covers w y) (h : r.mustEqual b = true) : x = y := by
  simp only [mustEqual, Bool.and_eq_true, beq_iff_eq] at h
  rw [hr.eq_of_isFixed h.1.1, hb.eq_of_isFixed h.1.2, h.2]

theorem ne_of_mayEqual (hr : r.Covers w x) (hb : b.Covers w y) (h : r.mayEqual b = false) : x ≠ y := by
  rintro rfl
  have hr1 := hr.min_le
  have hr2 := hr.le_max
  have hb1 := hb.min_le
  have hb2 := hb.le_max
  simp only [mayEqual, intersects, setIntersection, isEmpty, Bool.not_eq_false', decide_eq_true_eq, gt_iff_lt] at h
  omega

theorem eq_of_mustBe (hr : r.Covers w x) (h : r.mustBe y = true) : x = y := by
  simp only [mustBe, Bool.and_eq_true, beq_iff_eq] at h
  have hr1 := hr.min_le
  have hr2 := hr.le_max
  omega

theorem min?_eq (hr : r.Covers w x) : r.min? = some r.mMin := by
  unfold min?
  rw [hr.isEmpty_eq]
  rfl

theorem max?_eq (hr : r.Covers w x) : r.max? = some r.mMax := by
  unfold max?
  rw [hr.isEmpty_eq]
  rfl

theorem withinBits_eq (hr : r.Covers w x) (hpos : 0 < w) (hw : w < 64) : r.withinBits w = true := by
  have hmin : r.mMin < 2 ^ w := (hr.min_le.trans hr.le_max).trans_lt hr.max_lt
  have hmax := hr.max_lt
  simp [withinBits, hpos, hw, Nat.shiftRight_eq_div_pow, Nat.div_eq_of_lt hmin, Nat.div_eq_of_lt hmax]

theorem signed (hr : r.Covers w x) (hpos : 0 < w) (hw : w < 64) : ∃ low high,
    r.minSigned w = some low ∧ r.maxSigned w = some high ∧ low ≤ signedValue w x ∧ signedValue w x ≤ high := by
  have hmin := hr.min_le
  have hmax := hr.le_max
  have hlt := hr.max_lt
  obtain ⟨n, rfl⟩ : ∃ n, w = n + 1 := ⟨w - 1, by omega⟩
  have hpow : 2 ^ n * 2 ≤ 2 ^ 63 := by
    rw [← Nat.pow_succ]
    exact Nat.pow_le_pow_right (by omega) (by omega)
  have hposn := Nat.two_pow_pos n
  rw [Nat.pow_succ] at hlt
  have hsmall : (1 <<< (n + 1 - 1) : Nat) = 2 ^ n := by rw [Nat.shiftLeft_eq, Nat.one_mul, Nat.add_sub_cancel]
  have hsigned : ∀ y, y < 2 ^ n * 2 →
      signedValue (n + 1) y = if y < 2 ^ n then (y : Int) else (y : Int) - 2 * (2 ^ n : Nat) := by
    intro y hy
    rw [signedValue_eq (by rwa [Nat.pow_succ]), Nat.pow_succ]
    push_cast
    split_ifs <;> omega
  have hsext : ∀ y, y < 2 ^ n * 2 → toInt64 (sext y 64 (n + 1)) = signedValue (n + 1) y := by
    intro y hy
    exact toInt64_sext (by rwa [Nat.pow_succ]) (by omega)
  unfold minSigned maxSigned
  rw [hr.withinBits_eq hpos hw, if_pos rfl, if_pos rfl, hsmall]
  refine ⟨_, _, rfl, rfl, ?_, ?_⟩
  · split_ifs with hge
    · rw [hsext _ (by omega), hsigned _ (by omega), hsigned _ (by omega)]
      split_ifs <;> omega
    · rw [toInt64_of_lt (by omega), hsigned _ (by omega)]
      split_ifs <;> omega
  · split_ifs with hge
    · rw [toInt64_of_lt (by omega), hsigned _ (by omega)]
      split_ifs <;> omega
    · rw [hsext _ (by omega), hsigned _ (by omega), hsigned _ (by omega)]
      split_ifs <;> omega

end Covers

end ValueRange

end CgsKlee
