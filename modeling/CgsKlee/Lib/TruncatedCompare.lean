import Mathlib.Data.Int.Order.Basic
import Mathlib.Tactic.NormNum

/-!
# Comparing numbers by their low 32 bits

A number `n < 2 ^ w` is kept as the signed 32-bit number with the same low bits, `low n`.  This file says exactly
when a comparison of `low n` with `low k` decides, for every `n`, the comparison of `n` with `k` as unsigned or as
two's complement numbers of width `w` (`unsigned_agree_iff`, `signed_agree_iff`).  The comparison on the low bits
may also be made with its two sides exchanged (`sw`).

The negative results give explicit numbers on which the comparisons differ.  For `w ≥ 33` the low bits are periodic
with period `2 ^ 32`, so no comparison of the low bits can tell `n` from `n + 2 ^ 32`.
-/

namespace TruncatedCompare

def low (n : Nat) : Int := (BitVec.ofNat 32 n).toInt

/-- The two's complement number of width `w` with the bits of `n`. -/
def sgn (w n : Nat) : Int := if 2 * n < 2 ^ w then (n : Int) else (n : Int) - (2 ^ w : Nat)

/-- `a < b`, or `a ≤ b` if `le`; the sides are exchanged if `sw`. -/
def Cmp (le sw : Bool) (a b : Int) : Prop :=
  match le, sw with
  | false, false => a < b
  | true, false => a ≤ b
  | false, true => b < a
  | true, true => b ≤ a

theorem low_spec (n : Nat) : -2147483648 ≤ low n ∧ low n < 2147483648 ∧ ∃ q : Int, low n = n - 4294967296 * q := by
  have h1 := BitVec.le_toInt (BitVec.ofNat 32 n)
  have h2 := BitVec.toInt_lt (x := BitVec.ofNat 32 n)
  refine ⟨by simpa [low] using h1, by simpa [low] using h2, ?_⟩
  have h3 : low n = (n : Int).bmod 4294967296 := BitVec.toInt_ofNat' n
  rw [h3, Int.bmod_def]
  split
  · exact ⟨(n : Int) / 4294967296, by omega⟩
  · exact ⟨(n : Int) / 4294967296 + 1, by omega⟩

private theorem low_of_lt {n : Nat} (h : n < 2147483648) : low n = n := by
  obtain ⟨h1, h2, q, h3⟩ := low_spec n
  omega

private theorem low_of_ge {n : Nat} (h : 2147483648 ≤ n) (h' : n < 4294967296) : low n = n - 4294967296 := by
  obtain ⟨h1, h2, q, h3⟩ := low_spec n
  omega

theorem low_inj_of_lt {n k : Nat} (hn : n < 4294967296) (hk : k < 4294967296) (h : low n = low k) : n = k := by
  obtain ⟨-, -, q, h3⟩ := low_spec n
  obtain ⟨-, -, q', h4⟩ := low_spec k
  omega

theorem low_add_period (n t : Nat) : low (n + 4294967296 * t) = low n := by
  obtain ⟨h1, h2, q, h3⟩ := low_spec n
  obtain ⟨h1', h2', q', h3'⟩ := low_spec (n + 4294967296 * t)
  push_cast at h3'
  omega

private theorem two_pow_le {w m : Nat} (h : w ≤ m) : 2 ^ w ≤ 2 ^ m := Nat.pow_le_pow_right (by omega) h

private theorem two_le_pow {w : Nat} (hw : 0 < w) : 2 ≤ 2 ^ w := two_pow_le (w := 1) hw

private theorem pow_eq_period_mul {w : Nat} (h : 33 ≤ w) : ∃ t, 2 ^ w = 4294967296 * t ∧ 2 ≤ t :=
  ⟨2 ^ (w - 32), by rw [show (4294967296 : Nat) = 2 ^ 32 by norm_num, ← Nat.pow_add]; congr 1; omega,
    two_le_pow (by omega)⟩

private theorem not_agree_of_period {t k : Nat} (ht : 2 ≤ t) (hk : k < 4294967296 * t) (le sw : Bool) :
    ¬ ∀ n < 4294967296 * t, (Cmp le sw (low n) (low k) ↔ Cmp le false n k) := by
  intro h
  obtain ⟨c, r, hkr, hr⟩ : ∃ c r, k = r + 4294967296 * c ∧ r < 4294967296 :=
    ⟨k / 4294967296, k % 4294967296, by omega, by omega⟩
  have hlk : low k = low r := by rw [hkr, low_add_period]
  -- `r` and `r` moved up by whole periods have the low bits of `k`
  have e1 := h r (by omega)
  have e2 := h (r + 4294967296 * (t - 1)) (by omega)
  rw [low_add_period] at e2
  have l1 : low (2147483648 + 4294967296 * 1) = -2147483648 := by rw [low_add_period, low_of_ge] <;> omega
  have l2 : low (2147483647 + 4294967296 * 1) = 2147483647 := by rw [low_add_period, low_of_lt] <;> omega
  have l3 : low 2147483648 = -2147483648 := by rw [low_of_ge] <;> omega
  have l4 : low 2147483647 = 2147483647 := by rw [low_of_lt] <;> omega
  have l0 : low 0 = 0 := by rw [low_of_lt] <;> omega
  have e3 := h (2147483648 + 4294967296 * 1) (by omega)
  have e4 := h (2147483647 + 4294967296 * 1) (by omega)
  have e5 := h 2147483648 (by omega)
  have e6 := h 2147483647 (by omega)
  have e0 := h 0 (by omega)
  rw [l1] at e3; rw [l2] at e4; rw [l3] at e5; rw [l4] at e6; rw [l0] at e0
  obtain ⟨b1, b2, q, b3⟩ := low_spec r
  cases le <;> cases sw <;> simp only [Cmp, hlk] at e0 e1 e2 e3 e4 e5 e6
  · omega
  · omega
  · -- `≤`: the low bits of `k` are the largest ones, and the next number has the smallest ones
    have hk1 : k = 2147483647 + 4294967296 * (t - 1) := by omega
    have e7 := h (2147483648 + 4294967296 * (t - 1)) (by omega)
    rw [low_add_period, l3] at e7
    simp only [Cmp, hlk] at e7
    omega
  · have hk1 : k = 2147483648 + 4294967296 * (t - 1) := by omega
    have e7 := h (2147483649 + 4294967296 * (t - 1)) (by omega)
    rw [low_add_period, low_of_ge (by omega) (by omega)] at e7
    simp only [Cmp, hlk] at e7
    omega

/-- Comparing the low bits decides the unsigned comparison with `k` iff the width is at most 31 and the sides are
not exchanged. -/
theorem unsigned_agree_iff {w k : Nat} (hw : 0 < w) (hk : k < 2 ^ w) (le sw : Bool) :
    (∀ n < 2 ^ w, (Cmp le sw (low n) (low k) ↔ Cmp le false n k)) ↔ w ≤ 31 ∧ sw = false := by
  constructor
  · intro h
    rcases Nat.lt_trichotomy w 32 with h32 | rfl | h32
    · refine ⟨by omega, ?_⟩
      have hN : 2 ^ w ≤ 2147483648 := two_pow_le (m := 31) (by omega)
      have h2 := two_le_pow hw
      have e0 := h 0 (by omega)
      have e1 := h 1 (by omega)
      rw [low_of_lt (by omega), low_of_lt (by omega)] at e0 e1
      cases sw
      · rfl
      · cases le <;> simp only [Cmp] at e0 e1 <;> omega
    · exfalso
      rw [show (2 : Nat) ^ 32 = 4294967296 by norm_num] at h hk
      have a0 := h 0 (by omega)
      have a1 := h 1 (by omega)
      have a2 := h 2147483647 (by omega)
      have a3 := h 2147483648 (by omega)
      have a4 := h 2147483649 (by omega)
      have a5 := h 4294967295 (by omega)
      rw [low_of_lt (n := 0) (by omega)] at a0
      rw [low_of_lt (n := 1) (by omega)] at a1
      rw [low_of_lt (n := 2147483647) (by omega)] at a2
      rw [low_of_ge (n := 2147483648) (by omega) (by omega)] at a3
      rw [low_of_ge (n := 2147483649) (by omega) (by omega)] at a4
      rw [low_of_ge (n := 4294967295) (by omega) (by omega)] at a5
      obtain ⟨b1, b2, q, b3⟩ := low_spec k
      cases le <;> cases sw <;> simp only [Cmp] at a0 a1 a2 a3 a4 a5 <;> omega
    · exfalso
      obtain ⟨t, hN, ht⟩ := pow_eq_period_mul h32
      rw [hN] at h hk
      exact not_agree_of_period ht hk le sw h
  · rintro ⟨h31, rfl⟩ n hn
    have hN : 2 ^ w ≤ 2147483648 := two_pow_le (m := 31) h31
    rw [low_of_lt (by omega), low_of_lt (by omega)]

/-- Below 32 bits the low bits are the number itself, which the signed order compares in another way, unless there is
one bit only and the sides are exchanged. -/
private theorem signed_agree_narrow {w k : Nat} (hw : 0 < w) (h32 : w < 32) (hk : k < 2 ^ w) (le sw : Bool)
    (h : ∀ n < 2 ^ w, (Cmp le sw (low n) (low k) ↔ Cmp le false (sgn w n) (sgn w k))) : w = 1 ∧ sw = true := by
  have hN : 2 ^ w ≤ 2147483648 := two_pow_le (m := 31) (by omega)
  have hM : 2 ^ w = 2 * 2 ^ (w - 1) := by
    rw [← Nat.pow_succ']; congr 1; omega
  have hpos : 0 < 2 ^ (w - 1) := Nat.pow_pos (by omega)
  have hlow : ∀ n < 2 ^ w, low n = n := fun n hn => low_of_lt (by omega)
  have hs : ∀ n < 2 ^ (w - 1), sgn w n = n := fun n hn => if_pos (by omega)
  have hs' : ∀ n ≥ 2 ^ (w - 1), sgn w n = n - (2 ^ w : Nat) := fun n hn => if_neg (by omega)
  have hat : ∀ n : Nat, n < 2 ^ w → (Cmp le sw n k ↔ Cmp le false (sgn w n) (sgn w k)) := by
    intro n hn
    rw [← hlow n hn, ← hlow k hk]
    exact h n hn
  by_contra hne
  have hbig : sw = true → 2 ≤ 2 ^ (w - 1) := by
    intro hsw
    have h1 : w ≠ 1 := fun h1 => hne ⟨h1, hsw⟩
    exact two_le_pow (by omega)
  rw [hM] at hat hk hs'
  generalize 2 ^ (w - 1) = M at hat hk hs hs' hpos hbig
  -- the ends of the two halves of the range, and the neighbour of `k`
  have b0 := hat 0 (by omega)
  have bM := hat M (by omega)
  rw [hs 0 hpos] at b0
  rw [hs' M le_rfl] at bM
  have hsk : k < M ∧ sgn w k = k ∨ M ≤ k ∧ sgn w k = k - (2 * M : Nat) := by
    rcases Nat.lt_or_ge k M with hlt | hge
    · exact Or.inl ⟨hlt, hs k hlt⟩
    · exact Or.inr ⟨hge, hs' k hge⟩
  cases le <;> cases sw <;> simp only [Cmp] at b0 bM hat
  · omega
  · have hM2 := hbig rfl
    by_cases hkt : k + 1 < M
    · have bk := hat (k + 1) (by omega)
      rw [hs (k + 1) hkt] at bk
      omega
    · have bk := hat (M + 1) (by omega)
      rw [hs' (M + 1) (by omega)] at bk
      omega
  · omega
  · have hM2 := hbig rfl
    have bM' := hat (M - 1) (by omega)
    have bt := hat (2 * M - 1) (by omega)
    rw [hs (M - 1) (by omega)] at bM'
    rw [hs' (2 * M - 1) (by omega)] at bt
    omega

/-- A number moved by half of the range. -/
private def halfTurn (w n : Nat) : Nat := if n < 2 ^ (w - 1) then n + 2 ^ (w - 1) else n - 2 ^ (w - 1)

/-- Above 32 bits the low bits do not see the half turn, and it turns the signed order into the unsigned one. -/
private theorem halfTurn_spec {w n : Nat} (h32 : 32 < w) (hn : n < 2 ^ w) :
    halfTurn w n < 2 ^ w ∧ low (halfTurn w n) = low n ∧ sgn w (halfTurn w n) = n - (2 ^ (w - 1) : Nat) ∧
      sgn w n = halfTurn w n - (2 ^ (w - 1) : Nat) := by
  have hM : 2 ^ w = 2 * 2 ^ (w - 1) := by
    rw [← Nat.pow_succ']; congr 1; omega
  have hc : 2 ^ (w - 1) = 4294967296 * 2 ^ (w - 33) := by
    rw [show (4294967296 : Nat) = 2 ^ 32 by norm_num, ← Nat.pow_add]; congr 1; omega
  unfold halfTurn
  by_cases h1 : n < 2 ^ (w - 1)
  · rw [if_pos h1]
    refine ⟨by omega, by rw [hc, low_add_period], ?_, ?_⟩
    · unfold sgn
      rw [if_neg (by omega)]
      omega
    · unfold sgn
      rw [if_pos (by omega)]
      omega
  · rw [if_neg h1]
    refine ⟨by omega, ?_, ?_, ?_⟩
    · conv => rhs; rw [show n = (n - 2 ^ (w - 1)) + 4294967296 * 2 ^ (w - 33) by omega]
      rw [low_add_period]
    · unfold sgn
      rw [if_pos (by omega)]
      omega
    · unfold sgn
      rw [if_neg (by omega)]
      omega

private theorem not_signed_agree_wide {w k : Nat} (h32 : 32 < w) (hk : k < 2 ^ w) (le sw : Bool) :
    ¬∀ n < 2 ^ w, (Cmp le sw (low n) (low k) ↔ Cmp le false (sgn w n) (sgn w k)) := by
  intro h
  obtain ⟨t, hN, ht⟩ := pow_eq_period_mul h32
  obtain ⟨hk', hkl, -, hks⟩ := halfTurn_spec h32 hk
  rw [hN] at hk'
  refine not_agree_of_period ht hk' le sw fun n hn => ?_
  obtain ⟨hn', hl, hs, -⟩ := halfTurn_spec h32 (n := n) (by omega)
  have e := h _ hn'
  rw [hl, ← hkl, hs, hks] at e
  rw [e]
  cases le <;> simp only [Cmp] <;> omega

/-- Comparing the low bits decides the signed comparison with `k` iff the width is 32, or, with the sides
exchanged, iff the width is 1, where the signed order is the reverse of the unsigned one. -/
theorem signed_agree_iff {w k : Nat} (hw : 0 < w) (hk : k < 2 ^ w) (le sw : Bool) :
    (∀ n < 2 ^ w, (Cmp le sw (low n) (low k) ↔ Cmp le false (sgn w n) (sgn w k))) ↔
      (w = 32 ∧ sw = false) ∨ (w = 1 ∧ sw = true) := by
  constructor
  · intro h
    rcases Nat.lt_trichotomy w 32 with h32 | rfl | h32
    · right
      exact signed_agree_narrow hw h32 hk le sw h
    · left
      refine ⟨rfl, ?_⟩
      unfold sgn at h
      norm_num at h hk
      have a0 := h 0 (by omega)
      have a1 := h 1 (by omega)
      rw [low_of_lt (n := 0) (by omega)] at a0
      rw [low_of_lt (n := 1) (by omega)] at a1
      obtain ⟨b1, b2, q, b3⟩ := low_spec k
      cases sw
      · rfl
      · exfalso
        cases le <;> simp only [Cmp] at a0 a1 <;> omega
    · exact (not_signed_agree_wide h32 hk le sw h).elim
  · rintro (⟨rfl, rfl⟩ | ⟨rfl, rfl⟩) n hn
    · have key : ∀ n < 2 ^ 32, low n = sgn 32 n := by
        intro n hn
        unfold sgn
        split
        · rw [low_of_lt (by omega)]
        · rw [low_of_ge (by omega) (by omega)]; norm_num
      rw [key n hn, key k hk]
    · rw [low_of_lt (by omega), low_of_lt (by omega)]
      unfold sgn
      cases le <;> simp only [Cmp] <;> norm_num at hn hk ⊢ <;> omega

end TruncatedCompare
