import Mathlib.Data.Nat.Bitwise
import Mathlib.Tactic.Ring

/-!
# Bounds of bitwise operations on intervals

The least and the greatest `x ||| y` and `x &&& y` for `x` in `[a, b]` and `y` in `[c, d]`, found from the highest bit
down.  At each bit one end of an interval may be moved inwards, to the next number that differs from it at this bit:
`raise` sets the bit and clears all bits below it, `lower` clears the bit and sets all bits below it.  The invariant of
the four loops is about the numbers that agree with the ends in all bits that were seen.
-/

namespace BitBounds

section Bits

variable {k x y a b : Nat}

theorem div_two_pow (x k : Nat) : x / 2 ^ k = 2 * (x / 2 ^ (k + 1)) + (x.testBit k).toNat := by
  have hbit : (x.testBit k).toNat = x / 2 ^ k % 2 := Nat.toNat_testBit x k
  rw [hbit, Nat.pow_succ, ← Nat.div_div_eq_div_mul]
  omega

theorem div_eq_of_testBit (h : x / 2 ^ (k + 1) = a / 2 ^ (k + 1)) (hbit : x.testBit k = a.testBit k) :
    x / 2 ^ k = a / 2 ^ k := by
  rw [div_two_pow x, div_two_pow a, h, hbit]

theorem div_succ_eq (h : x / 2 ^ k = a / 2 ^ k) : x / 2 ^ (k + 1) = a / 2 ^ (k + 1) := by
  rw [Nat.pow_succ, ← Nat.div_div_eq_div_mul, ← Nat.div_div_eq_div_mul, h]

theorem testBit_eq_of_div (h : x / 2 ^ k = a / 2 ^ k) : x.testBit k = a.testBit k := by
  rw [Nat.testBit_eq_decide_div_mod_eq, Nat.testBit_eq_decide_div_mod_eq, h]

theorem lt_of_testBit (h : x / 2 ^ (k + 1) = a / 2 ^ (k + 1)) (hx : x.testBit k = false) (ha : a.testBit k = true) :
    x < a := by
  have hxk := div_two_pow x k
  have hak := div_two_pow a k
  rw [hx] at hxk
  rw [ha] at hak
  simp only [Bool.toNat_false, Bool.toNat_true] at hxk hak
  by_contra hge
  have hle : a / 2 ^ k ≤ x / 2 ^ k := Nat.div_le_div_right (Nat.not_lt.mp hge)
  omega

theorem le_of_testBit {r : Nat} (hr : r / 2 ^ k = a / 2 ^ k) (h : x / 2 ^ (k + 1) = a / 2 ^ (k + 1))
    (hx : x.testBit k = false) (ha : a.testBit k = true) : x ≤ r :=
  le_of_lt (lt_of_testBit (h.trans (div_succ_eq hr).symm) hx ((testBit_eq_of_div hr).trans ha))

theorem ge_of_testBit {r : Nat} (hr : r / 2 ^ k = a / 2 ^ k) (h : x / 2 ^ (k + 1) = a / 2 ^ (k + 1))
    (hx : x.testBit k = true) (ha : a.testBit k = false) : r ≤ x :=
  le_of_lt (lt_of_testBit ((div_succ_eq hr).trans h.symm) ((testBit_eq_of_div hr).trans ha) hx)

theorem testBit_of_le (h : x / 2 ^ (k + 1) = a / 2 ^ (k + 1)) (hle : a ≤ x) (ha : a.testBit k = true) :
    x.testBit k = true := by
  by_contra hx
  exact absurd (lt_of_testBit h (Bool.not_eq_true _ ▸ hx) ha) (Nat.not_lt.mpr hle)

theorem testBit_of_ge (h : x / 2 ^ (k + 1) = a / 2 ^ (k + 1)) (hle : x ≤ a) (ha : a.testBit k = false) :
    x.testBit k = false := by
  by_contra hx
  exact absurd (lt_of_testBit h.symm ha (Bool.not_eq_false _ ▸ hx)) (Nat.not_lt.mpr hle)

theorem le_of_mod_le (h : x / 2 ^ k = y / 2 ^ k) (hmod : x % 2 ^ k ≤ y % 2 ^ k) : x ≤ y := by
  rw [← Nat.div_add_mod x (2 ^ k), ← Nat.div_add_mod y (2 ^ k), h]
  omega

theorem mod_le_of_le (h : x / 2 ^ k = y / 2 ^ k) (hle : x ≤ y) : x % 2 ^ k ≤ y % 2 ^ k := by
  have hx := Nat.div_add_mod x (2 ^ k)
  have hy := Nat.div_add_mod y (2 ^ k)
  rw [h] at hx
  omega

theorem or_div_eq {x' y' : Nat} (hx : x / 2 ^ k = x' / 2 ^ k) (hy : y / 2 ^ k = y' / 2 ^ k) :
    (x ||| y) / 2 ^ k = (x' ||| y') / 2 ^ k := by
  rw [Nat.or_div_two_pow, Nat.or_div_two_pow, hx, hy]

theorem and_div_eq {x' y' : Nat} (hx : x / 2 ^ k = x' / 2 ^ k) (hy : y / 2 ^ k = y' / 2 ^ k) :
    (x &&& y) / 2 ^ k = (x' &&& y') / 2 ^ k := by
  rw [Nat.and_div_two_pow, Nat.and_div_two_pow, hx, hy]

end Bits

/-- The next number with the bit `k`, for one without it. -/
def raise (a k : Nat) : Nat := (a / 2 ^ k + 1) * 2 ^ k

/-- The last number without the bit `k`, for one with it. -/
def lower (b k : Nat) : Nat := b / 2 ^ k * 2 ^ k - 1

section Move

variable {k x a b : Nat}

theorem lt_raise (a k : Nat) : a < raise a k := by
  have hmod := Nat.div_add_mod a (2 ^ k)
  have hlt := Nat.mod_lt a (Nat.two_pow_pos k)
  unfold raise
  rw [Nat.add_mul, Nat.one_mul, Nat.mul_comm]
  omega

theorem raise_div (a k : Nat) : raise a k / 2 ^ k = a / 2 ^ k + 1 := Nat.mul_div_cancel _ (Nat.two_pow_pos k)

theorem raise_mod (a k : Nat) : raise a k % 2 ^ k = 0 := Nat.mul_mod_left _ _

theorem raise_div_succ (ha : a.testBit k = false) : raise a k / 2 ^ (k + 1) = a / 2 ^ (k + 1) := by
  have hak := div_two_pow a k
  rw [ha, Bool.toNat_false] at hak
  rw [Nat.pow_succ, ← Nat.div_div_eq_div_mul, ← Nat.div_div_eq_div_mul, raise_div]
  omega

theorem testBit_raise (ha : a.testBit k = false) : (raise a k).testBit k = true := by
  have hak := div_two_pow a k
  have hr := div_two_pow (raise a k) k
  rw [ha, Bool.toNat_false] at hak
  rw [raise_div, raise_div_succ ha] at hr
  cases h : (raise a k).testBit k with
  | true => rfl
  | false =>
    rw [h, Bool.toNat_false] at hr
    omega

theorem testBit_raise_eq (ha : a.testBit k = false) (i : Nat) :
    (raise a k).testBit i = (decide (k ≤ i) && (a.testBit i || decide (k = i))) := by
  rcases lt_trichotomy i k with hlt | rfl | hgt
  · have hmod := Nat.testBit_mod_two_pow (raise a k) k i
    rw [raise_mod, Nat.zero_testBit] at hmod
    simpa [hlt, Nat.not_le.mpr hlt] using hmod.symm
  · simp [testBit_raise ha]
  · obtain ⟨j, rfl⟩ : ∃ j, i = j + (k + 1) := ⟨i - (k + 1), by omega⟩
    rw [← Nat.testBit_div_two_pow, raise_div_succ ha, Nat.testBit_div_two_pow]
    simp [show k ≤ j + (k + 1) by omega, show k ≠ j + (k + 1) by omega]

theorem raise_le (ha : a.testBit k = false) (h : x / 2 ^ (k + 1) = a / 2 ^ (k + 1)) (hx : x.testBit k = true) :
    raise a k ≤ x := by
  have hdiv : raise a k / 2 ^ k = x / 2 ^ k := by
    apply div_eq_of_testBit
    · rw [raise_div_succ ha, h]
    · rw [testBit_raise ha, hx]
  apply le_of_mod_le hdiv
  rw [raise_mod]
  exact Nat.zero_le _

theorem lower_le (b k : Nat) : lower b k ≤ b := (Nat.sub_le _ _).trans (Nat.div_mul_le_self _ _)

theorem lower_eq (hb : b.testBit k = true) : lower b k = (b / 2 ^ k - 1) * 2 ^ k + (2 ^ k - 1) := by
  have hbk := div_two_pow b k
  have hpos := Nat.two_pow_pos k
  rw [hb, Bool.toNat_true] at hbk
  obtain ⟨q, hq⟩ : ∃ q, b / 2 ^ k = q + 1 := ⟨2 * (b / 2 ^ (k + 1)), hbk⟩
  unfold lower
  rw [hq, Nat.add_sub_cancel, Nat.add_mul, Nat.one_mul]
  omega

theorem lower_div (hb : b.testBit k = true) : lower b k / 2 ^ k = b / 2 ^ k - 1 := by
  have hpos := Nat.two_pow_pos k
  rw [lower_eq hb, Nat.add_comm, Nat.add_mul_div_right _ _ hpos, Nat.div_eq_of_lt (by omega), Nat.zero_add]

theorem lower_mod (hb : b.testBit k = true) : lower b k % 2 ^ k = 2 ^ k - 1 := by
  have hpos := Nat.two_pow_pos k
  rw [lower_eq hb, Nat.add_comm, Nat.add_mul_mod_self_right]
  exact Nat.mod_eq_of_lt (by omega)

theorem lower_div_succ (hb : b.testBit k = true) : lower b k / 2 ^ (k + 1) = b / 2 ^ (k + 1) := by
  have hbk := div_two_pow b k
  rw [hb, Bool.toNat_true] at hbk
  rw [Nat.pow_succ, ← Nat.div_div_eq_div_mul, ← Nat.div_div_eq_div_mul, lower_div hb]
  omega

theorem testBit_lower (hb : b.testBit k = true) : (lower b k).testBit k = false := by
  have hbk := div_two_pow b k
  have hl := div_two_pow (lower b k) k
  rw [hb, Bool.toNat_true] at hbk
  rw [lower_div hb, lower_div_succ hb] at hl
  cases h : (lower b k).testBit k with
  | false => rfl
  | true =>
    rw [h, Bool.toNat_true] at hl
    omega

theorem testBit_lower_eq (hb : b.testBit k = true) (i : Nat) :
    (lower b k).testBit i = (decide (i < k) || (b.testBit i && decide (k ≠ i))) := by
  rcases lt_trichotomy i k with hlt | rfl | hgt
  · have hmod := Nat.testBit_mod_two_pow (lower b k) k i
    rw [lower_mod hb, Nat.testBit_two_pow_sub_one] at hmod
    simpa [hlt] using hmod.symm
  · simp [testBit_lower hb]
  · obtain ⟨j, rfl⟩ : ∃ j, i = j + (k + 1) := ⟨i - (k + 1), by omega⟩
    rw [← Nat.testBit_div_two_pow, lower_div_succ hb, Nat.testBit_div_two_pow]
    simp [show ¬j + (k + 1) < k by omega, show k ≠ j + (k + 1) by omega]

theorem le_lower (hb : b.testBit k = true) (h : x / 2 ^ (k + 1) = b / 2 ^ (k + 1)) (hx : x.testBit k = false) :
    x ≤ lower b k := by
  have hpos := Nat.two_pow_pos k
  have hlt := Nat.mod_lt x hpos
  have hdiv : x / 2 ^ k = lower b k / 2 ^ k := by
    apply div_eq_of_testBit
    · rw [lower_div_succ hb, h]
    · rw [testBit_lower hb, hx]
  apply le_of_mod_le hdiv
  rw [lower_mod hb]
  omega

end Move

def leastOr (a b c d : Nat) : Nat → Nat
  | 0 => a ||| c
  | k + 1 =>
    if (!a.testBit k && c.testBit k) = true then
      if raise a k ≤ b then raise a k ||| c else leastOr a b c d k
    else if (a.testBit k && !c.testBit k) = true then
      if raise c k ≤ d then a ||| raise c k else leastOr a b c d k
    else leastOr a b c d k

def greatestOr (a b c d : Nat) : Nat → Nat
  | 0 => b ||| d
  | k + 1 =>
    if (b.testBit k && d.testBit k) = true then
      if a ≤ lower b k then lower b k ||| d
      else if c ≤ lower d k then b ||| lower d k
      else greatestOr a b c d k
    else greatestOr a b c d k

def leastAnd (a b c d : Nat) : Nat → Nat
  | 0 => a &&& c
  | k + 1 =>
    if (!a.testBit k && !c.testBit k) = true then
      if raise a k ≤ b then raise a k &&& c
      else if raise c k ≤ d then a &&& raise c k
      else leastAnd a b c d k
    else leastAnd a b c d k

def greatestAnd (a b c d : Nat) : Nat → Nat
  | 0 => b &&& d
  | k + 1 =>
    if (b.testBit k && !d.testBit k) = true then
      if a ≤ lower b k then lower b k &&& d else greatestAnd a b c d k
    else if (!b.testBit k && d.testBit k) = true then
      if c ≤ lower d k then b &&& lower d k else greatestAnd a b c d k
    else greatestAnd a b c d k

section Searches

variable {a b c d x y : Nat}

theorem leastOr_div (k : Nat) : leastOr a b c d k / 2 ^ k = (a ||| c) / 2 ^ k := by
  induction k with
  | zero => rfl
  | succ k ih =>
    unfold leastOr
    split_ifs with hac hle hca hle
    · simp only [Bool.and_eq_true, Bool.not_eq_true'] at hac
      exact or_div_eq (raise_div_succ hac.1) rfl
    · exact div_succ_eq ih
    · simp only [Bool.and_eq_true, Bool.not_eq_true'] at hca
      exact or_div_eq rfl (raise_div_succ hca.2)
    · exact div_succ_eq ih
    · exact div_succ_eq ih

theorem greatestOr_div (k : Nat) : greatestOr a b c d k / 2 ^ k = (b ||| d) / 2 ^ k := by
  induction k with
  | zero => rfl
  | succ k ih =>
    unfold greatestOr
    split_ifs with hbd hle hle'
    · simp only [Bool.and_eq_true] at hbd
      exact or_div_eq (lower_div_succ hbd.1) rfl
    · simp only [Bool.and_eq_true] at hbd
      exact or_div_eq rfl (lower_div_succ hbd.2)
    · exact div_succ_eq ih
    · exact div_succ_eq ih

theorem leastAnd_div (k : Nat) : leastAnd a b c d k / 2 ^ k = (a &&& c) / 2 ^ k := by
  induction k with
  | zero => rfl
  | succ k ih =>
    unfold leastAnd
    split_ifs with hac hle hle'
    · simp only [Bool.and_eq_true, Bool.not_eq_true'] at hac
      exact and_div_eq (raise_div_succ hac.1) rfl
    · simp only [Bool.and_eq_true, Bool.not_eq_true'] at hac
      exact and_div_eq rfl (raise_div_succ hac.2)
    · exact div_succ_eq ih
    · exact div_succ_eq ih

theorem greatestAnd_div (k : Nat) : greatestAnd a b c d k / 2 ^ k = (b &&& d) / 2 ^ k := by
  induction k with
  | zero => rfl
  | succ k ih =>
    unfold greatestAnd
    split_ifs with hbd hle hdb hle
    · simp only [Bool.and_eq_true, Bool.not_eq_true'] at hbd
      exact and_div_eq (lower_div_succ hbd.1) rfl
    · exact div_succ_eq ih
    · simp only [Bool.and_eq_true, Bool.not_eq_true'] at hdb
      exact and_div_eq rfl (lower_div_succ hdb.2)
    · exact div_succ_eq ih
    · exact div_succ_eq ih

theorem exists_greatestOr (hab : a ≤ b) (hcd : c ≤ d) (k : Nat) :
    ∃ x y, a ≤ x ∧ x ≤ b ∧ c ≤ y ∧ y ≤ d ∧ greatestOr a b c d k = x ||| y := by
  induction k with
  | zero => exact ⟨b, d, hab, le_rfl, hcd, le_rfl, rfl⟩
  | succ k ih =>
    unfold greatestOr
    split_ifs with hbd hle hle'
    · exact ⟨lower b k, d, hle, lower_le b k, hcd, le_rfl, rfl⟩
    · exact ⟨b, lower d k, hab, le_rfl, hle', lower_le d k, rfl⟩
    · exact ih
    · exact ih

theorem exists_greatestAnd (hab : a ≤ b) (hcd : c ≤ d) (k : Nat) :
    ∃ x y, a ≤ x ∧ x ≤ b ∧ c ≤ y ∧ y ≤ d ∧ greatestAnd a b c d k = x &&& y := by
  induction k with
  | zero => exact ⟨b, d, hab, le_rfl, hcd, le_rfl, rfl⟩
  | succ k ih =>
    unfold greatestAnd
    split_ifs with hbd hle hdb hle
    · exact ⟨lower b k, d, hle, lower_le b k, hcd, le_rfl, rfl⟩
    · exact ih
    · exact ⟨b, lower d k, hab, le_rfl, hle, lower_le d k, rfl⟩
    · exact ih
    · exact ih

theorem exists_leastOr (hab : a ≤ b) (hcd : c ≤ d) (k : Nat) :
    ∃ x y, a ≤ x ∧ x ≤ b ∧ c ≤ y ∧ y ≤ d ∧ leastOr a b c d k = x ||| y := by
  induction k with
  | zero => exact ⟨a, c, le_rfl, hab, le_rfl, hcd, rfl⟩
  | succ k ih =>
    unfold leastOr
    split_ifs with hac hle hca hle
    · exact ⟨raise a k, c, (lt_raise a k).le, hle, le_rfl, hcd, rfl⟩
    · exact ih
    · exact ⟨a, raise c k, le_rfl, hab, (lt_raise c k).le, hle, rfl⟩
    · exact ih
    · exact ih

theorem exists_leastAnd (hab : a ≤ b) (hcd : c ≤ d) (k : Nat) :
    ∃ x y, a ≤ x ∧ x ≤ b ∧ c ≤ y ∧ y ≤ d ∧ leastAnd a b c d k = x &&& y := by
  induction k with
  | zero => exact ⟨a, c, le_rfl, hab, le_rfl, hcd, rfl⟩
  | succ k ih =>
    unfold leastAnd
    split_ifs with hac hle hle'
    · exact ⟨raise a k, c, (lt_raise a k).le, hle, le_rfl, hcd, rfl⟩
    · exact ⟨a, raise c k, le_rfl, hab, (lt_raise c k).le, hle', rfl⟩
    · exact ih
    · exact ih

theorem testBit_of_lt_raise {k : Nat} (ha : a.testBit k = false) (h : x / 2 ^ (k + 1) = a / 2 ^ (k + 1)) (hx : x ≤ b)
    (hlt : ¬raise a k ≤ b) : x.testBit k = a.testBit k := by
  rw [ha]
  by_contra hbit
  exact hlt ((raise_le ha h ((Bool.not_eq_false _).mp hbit)).trans hx)

theorem testBit_of_lower_lt {k : Nat} (hb : b.testBit k = true) (h : x / 2 ^ (k + 1) = b / 2 ^ (k + 1)) (hx : a ≤ x)
    (hlt : ¬a ≤ lower b k) : x.testBit k = b.testBit k := by
  rw [hb]
  by_contra hbit
  exact hlt (hx.trans (le_lower hb h ((Bool.not_eq_true _).mp hbit)))

theorem raise_or_le {k : Nat} (ha : a.testBit k = false) (hc : c.testBit k = true)
    (hx : x / 2 ^ (k + 1) = a / 2 ^ (k + 1)) (hy : y / 2 ^ (k + 1) = c / 2 ^ (k + 1)) (hcy : c ≤ y) :
    raise a k ||| c ≤ x ||| y := by
  have hybit : y.testBit k = true := testBit_of_le hy hcy hc
  have hdiv : (raise a k ||| c) / 2 ^ k = (x ||| y) / 2 ^ k := by
    apply div_eq_of_testBit
    · exact or_div_eq ((raise_div_succ ha).trans hx.symm) hy.symm
    · rw [Nat.testBit_or, Nat.testBit_or, hc, hybit, Bool.or_true, Bool.or_true]
  apply le_of_mod_le hdiv
  rw [Nat.or_mod_two_pow, Nat.or_mod_two_pow, raise_mod, Nat.zero_or]
  exact (mod_le_of_le (div_eq_of_testBit hy.symm (hc.trans hybit.symm)) hcy).trans Nat.right_le_or

theorem leastOr_le (hax : a ≤ x) (hxb : x ≤ b) (hcy : c ≤ y) (hyd : y ≤ d) (k : Nat)
    (hx : x / 2 ^ k = a / 2 ^ k) (hy : y / 2 ^ k = c / 2 ^ k) : leastOr a b c d k ≤ x ||| y := by
  induction k with
  | zero =>
    simp only [Nat.pow_zero, Nat.div_one] at hx hy
    rw [hx, hy]
    exact le_rfl
  | succ k ih =>
    unfold leastOr
    cases ha : a.testBit k <;> cases hc : c.testBit k <;> simp only [Bool.not_false, Bool.not_true, Bool.and_self,
      Bool.and_true, Bool.and_false, Bool.false_eq_true, if_true, if_false]
    · by_cases hxy : (x ||| y).testBit k = true
      · -- the result does not have the bit
        apply ge_of_testBit (leastOr_div k) (or_div_eq hx hy) hxy
        rw [Nat.testBit_or, ha, hc, Bool.or_false]
      · simp only [Nat.testBit_or, Bool.or_eq_true, not_or, Bool.not_eq_true] at hxy
        exact ih (div_eq_of_testBit hx (hxy.1.trans ha.symm)) (div_eq_of_testBit hy (hxy.2.trans hc.symm))
    · split_ifs with hle
      · exact raise_or_le ha hc hx hy hcy
      · have hxbit := testBit_of_lt_raise ha hx hxb hle
        have hybit := (testBit_of_le hy hcy hc).trans hc.symm
        exact ih (div_eq_of_testBit hx hxbit) (div_eq_of_testBit hy hybit)
    · split_ifs with hle
      · rw [Nat.or_comm a, Nat.or_comm x]
        exact raise_or_le hc ha hy hx hax
      · have hybit := testBit_of_lt_raise hc hy hyd hle
        have hxbit := (testBit_of_le hx hax ha).trans ha.symm
        exact ih (div_eq_of_testBit hx hxbit) (div_eq_of_testBit hy hybit)
    · have hxbit := (testBit_of_le hx hax ha).trans ha.symm
      have hybit := (testBit_of_le hy hcy hc).trans hc.symm
      exact ih (div_eq_of_testBit hx hxbit) (div_eq_of_testBit hy hybit)

theorem or_le_lower {k : Nat} (hb : b.testBit k = true) (hd : d.testBit k = true)
    (hx : x / 2 ^ (k + 1) = b / 2 ^ (k + 1)) (hy : y / 2 ^ (k + 1) = d / 2 ^ (k + 1)) :
    x ||| y ≤ lower b k ||| d := by
  have hsucc : (x ||| y) / 2 ^ (k + 1) = (lower b k ||| d) / 2 ^ (k + 1) :=
    or_div_eq (hx.trans (lower_div_succ hb).symm) hy
  have hbit : (lower b k ||| d).testBit k = true := by rw [Nat.testBit_or, hd, Bool.or_true]
  cases hxy : (x ||| y).testBit k with
  | false => exact le_of_lt (lt_of_testBit hsucc hxy hbit)
  | true =>
    have hlt := Nat.mod_lt (x ||| y) (Nat.two_pow_pos k)
    have hle : 2 ^ k - 1 ≤ (lower b k ||| d) % 2 ^ k := by
      rw [Nat.or_mod_two_pow, lower_mod hb]
      exact Nat.left_le_or
    apply le_of_mod_le (div_eq_of_testBit hsucc (hxy.trans hbit.symm))
    omega

theorem le_greatestOr (hax : a ≤ x) (hxb : x ≤ b) (hcy : c ≤ y) (hyd : y ≤ d) (k : Nat)
    (hx : x / 2 ^ k = b / 2 ^ k) (hy : y / 2 ^ k = d / 2 ^ k) : x ||| y ≤ greatestOr a b c d k := by
  induction k with
  | zero =>
    simp only [Nat.pow_zero, Nat.div_one] at hx hy
    rw [hx, hy]
    exact le_rfl
  | succ k ih =>
    unfold greatestOr
    cases hb : b.testBit k <;> cases hd : d.testBit k <;> simp only [Bool.and_self, Bool.and_true, Bool.and_false,
      Bool.false_eq_true, if_true, if_false]
    · have hxbit := (testBit_of_ge hx hxb hb).trans hb.symm
      have hybit := (testBit_of_ge hy hyd hd).trans hd.symm
      exact ih (div_eq_of_testBit hx hxbit) (div_eq_of_testBit hy hybit)
    · have hxbit := testBit_of_ge hx hxb hb
      cases hybit : y.testBit k with
      | true => exact ih (div_eq_of_testBit hx (hxbit.trans hb.symm)) (div_eq_of_testBit hy (hybit.trans hd.symm))
      | false =>
        apply le_of_testBit (greatestOr_div k) (or_div_eq hx hy) <;> simp [hxbit, hybit, hd]
    · have hybit := testBit_of_ge hy hyd hd
      cases hxbit : x.testBit k with
      | true => exact ih (div_eq_of_testBit hx (hxbit.trans hb.symm)) (div_eq_of_testBit hy (hybit.trans hd.symm))
      | false =>
        apply le_of_testBit (greatestOr_div k) (or_div_eq hx hy) <;> simp [hxbit, hybit, hb]
    · split_ifs with hle hle'
      · exact or_le_lower hb hd hx hy
      · rw [Nat.or_comm b, Nat.or_comm x]
        exact or_le_lower hd hb hy hx
      · have hxbit := testBit_of_lower_lt hb hx hax hle
        have hybit := testBit_of_lower_lt hd hy hcy hle'
        exact ih (div_eq_of_testBit hx hxbit) (div_eq_of_testBit hy hybit)

theorem raise_and_le {k : Nat} (ha : a.testBit k = false) (hc : c.testBit k = false)
    (hx : x / 2 ^ (k + 1) = a / 2 ^ (k + 1)) (hy : y / 2 ^ (k + 1) = c / 2 ^ (k + 1)) :
    raise a k &&& c ≤ x &&& y := by
  have hsucc : (raise a k &&& c) / 2 ^ (k + 1) = (x &&& y) / 2 ^ (k + 1) :=
    and_div_eq ((raise_div_succ ha).trans hx.symm) hy.symm
  have hbit : (raise a k &&& c).testBit k = false := by rw [Nat.testBit_and, hc, Bool.and_false]
  cases hxy : (x &&& y).testBit k with
  | true => exact le_of_lt (lt_of_testBit hsucc hbit hxy)
  | false =>
    apply le_of_mod_le (div_eq_of_testBit hsucc (hbit.trans hxy.symm))
    rw [Nat.and_mod_two_pow, raise_mod, Nat.zero_and]
    exact Nat.zero_le _

theorem leastAnd_le (hax : a ≤ x) (hxb : x ≤ b) (hcy : c ≤ y) (hyd : y ≤ d) (k : Nat)
    (hx : x / 2 ^ k = a / 2 ^ k) (hy : y / 2 ^ k = c / 2 ^ k) : leastAnd a b c d k ≤ x &&& y := by
  induction k with
  | zero =>
    simp only [Nat.pow_zero, Nat.div_one] at hx hy
    rw [hx, hy]
    exact le_rfl
  | succ k ih =>
    unfold leastAnd
    cases ha : a.testBit k <;> cases hc : c.testBit k <;> simp only [Bool.not_false, Bool.not_true, Bool.and_self,
      Bool.and_true, Bool.and_false, Bool.false_eq_true, if_true, if_false]
    · split_ifs with hle hle'
      · exact raise_and_le ha hc hx hy
      · rw [Nat.and_comm a, Nat.and_comm x]
        exact raise_and_le hc ha hy hx
      · have hxbit := testBit_of_lt_raise ha hx hxb hle
        have hybit := testBit_of_lt_raise hc hy hyd hle'
        exact ih (div_eq_of_testBit hx hxbit) (div_eq_of_testBit hy hybit)
    · have hybit := testBit_of_le hy hcy hc
      cases hxbit : x.testBit k with
      | false => exact ih (div_eq_of_testBit hx (hxbit.trans ha.symm)) (div_eq_of_testBit hy (hybit.trans hc.symm))
      | true =>
        apply ge_of_testBit (leastAnd_div k) (and_div_eq hx hy) <;> simp [hxbit, hybit, ha]
    · have hxbit := testBit_of_le hx hax ha
      cases hybit : y.testBit k with
      | false => exact ih (div_eq_of_testBit hx (hxbit.trans ha.symm)) (div_eq_of_testBit hy (hybit.trans hc.symm))
      | true =>
        apply ge_of_testBit (leastAnd_div k) (and_div_eq hx hy) <;> simp [hxbit, hybit, hc]
    · have hxbit := (testBit_of_le hx hax ha).trans ha.symm
      have hybit := (testBit_of_le hy hcy hc).trans hc.symm
      exact ih (div_eq_of_testBit hx hxbit) (div_eq_of_testBit hy hybit)

theorem and_le_lower {k : Nat} (hb : b.testBit k = true) (hd : d.testBit k = false)
    (hx : x / 2 ^ (k + 1) = b / 2 ^ (k + 1)) (hy : y / 2 ^ (k + 1) = d / 2 ^ (k + 1)) (hyd : y ≤ d) :
    x &&& y ≤ lower b k &&& d := by
  have hybit : y.testBit k = false := testBit_of_ge hy hyd hd
  have hdiv : (x &&& y) / 2 ^ k = (lower b k &&& d) / 2 ^ k := by
    apply div_eq_of_testBit
    · exact and_div_eq (hx.trans (lower_div_succ hb).symm) hy
    · rw [Nat.testBit_and, Nat.testBit_and, hd, hybit, Bool.and_false, Bool.and_false]
  have hlow : y % 2 ^ k ≤ d % 2 ^ k := mod_le_of_le (div_eq_of_testBit hy (hybit.trans hd.symm)) hyd
  have hones : (2 ^ k - 1) &&& d % 2 ^ k = d % 2 ^ k := by
    rw [Nat.and_comm, Nat.and_two_pow_sub_one_eq_mod, Nat.mod_mod]
  apply le_of_mod_le hdiv
  rw [Nat.and_mod_two_pow, Nat.and_mod_two_pow, lower_mod hb, hones]
  exact Nat.and_le_right.trans hlow

theorem le_greatestAnd (hax : a ≤ x) (hxb : x ≤ b) (hcy : c ≤ y) (hyd : y ≤ d) (k : Nat)
    (hx : x / 2 ^ k = b / 2 ^ k) (hy : y / 2 ^ k = d / 2 ^ k) : x &&& y ≤ greatestAnd a b c d k := by
  induction k with
  | zero =>
    simp only [Nat.pow_zero, Nat.div_one] at hx hy
    rw [hx, hy]
    exact le_rfl
  | succ k ih =>
    unfold greatestAnd
    cases hb : b.testBit k <;> cases hd : d.testBit k <;> simp only [Bool.not_false, Bool.not_true, Bool.and_self,
      Bool.and_true, Bool.and_false, Bool.false_eq_true, if_true, if_false]
    · have hxbit := (testBit_of_ge hx hxb hb).trans hb.symm
      have hybit := (testBit_of_ge hy hyd hd).trans hd.symm
      exact ih (div_eq_of_testBit hx hxbit) (div_eq_of_testBit hy hybit)
    · split_ifs with hle
      · rw [Nat.and_comm b, Nat.and_comm x]
        exact and_le_lower hd hb hy hx hxb
      · have hybit := testBit_of_lower_lt hd hy hcy hle
        have hxbit := (testBit_of_ge hx hxb hb).trans hb.symm
        exact ih (div_eq_of_testBit hx hxbit) (div_eq_of_testBit hy hybit)
    · split_ifs with hle
      · exact and_le_lower hb hd hx hy hyd
      · have hxbit := testBit_of_lower_lt hb hx hax hle
        have hybit := (testBit_of_ge hy hyd hd).trans hd.symm
        exact ih (div_eq_of_testBit hx hxbit) (div_eq_of_testBit hy hybit)
    · by_cases hxy : (x &&& y).testBit k = true
      · simp only [Nat.testBit_and, Bool.and_eq_true] at hxy
        exact ih (div_eq_of_testBit hx (hxy.1.trans hb.symm)) (div_eq_of_testBit hy (hxy.2.trans hd.symm))
      · apply le_of_testBit (greatestAnd_div k) (and_div_eq hx hy) ((Bool.not_eq_true _).mp hxy)
        rw [Nat.testBit_and, hb, hd, Bool.and_true]

end Searches

end BitBounds
