import Mathlib.Data.BitVec
import Mathlib.Order.Bounds.Basic
import Mathlib.Tactic.Common

/-!
# Binary search over words

A loop that halves an interval of unsigned words until one word is left, `search`.  The test may fail, and then the
search does.  The midpoint is `lo + (hi - lo) / 2`, which never wraps around, and neither does the word after it.  If
the test tells for each word whether a property holds that is closed upwards and that holds at the end of the interval,
the search finds the least word with the property (`search_isLeast`).
-/

namespace BinarySearch

variable {w : Nat}

def midpoint (lo hi : BitVec w) : BitVec w := lo + (hi - lo) / 2

theorem toNat_midpoint {lo hi : BitVec w} (h : lo < hi) :
    (midpoint lo hi).toNat = lo.toNat + (hi.toNat - lo.toNat) / 2 := by
  have hlt : lo.toNat < hi.toNat := h
  have hhi := hi.isLt
  have hsub : (hi - lo).toNat = hi.toNat - lo.toNat := BitVec.toNat_sub_of_le (BitVec.le_of_lt h)
  have hhalf : ((hi - lo) / 2).toNat = (hi.toNat - lo.toNat) / 2 := by
    rw [BitVec.toNat_udiv, hsub]
    obtain rfl | rfl | hw : w = 0 ∨ w = 1 ∨ 2 ≤ w := by omega
    · omega
    · -- the only interval is from zero to one, and the divisor two is zero
      have hone : hi.toNat - lo.toNat = 1 := by omega
      rw [hone]
      rfl
    · have hfour : 2 ^ 2 ≤ 2 ^ w := Nat.pow_le_pow_right (by decide) hw
      have htwo : (2 : BitVec w).toNat = 2 :=
        (BitVec.toNat_ofNat 2 w).trans (Nat.mod_eq_of_lt (by omega))
      rw [htwo]
  unfold midpoint
  rw [BitVec.toNat_add, hhalf]
  exact Nat.mod_eq_of_lt (by omega)

theorem le_midpoint {lo hi : BitVec w} (h : lo < hi) : lo.toNat ≤ (midpoint lo hi).toNat := by
  rw [toNat_midpoint h]
  omega

theorem midpoint_lt {lo hi : BitVec w} (h : lo < hi) : (midpoint lo hi).toNat < hi.toNat := by
  have hlt : lo.toNat < hi.toNat := h
  rw [toNat_midpoint h]
  omega

theorem toNat_midpoint_add_one {lo hi : BitVec w} (h : lo < hi) :
    (midpoint lo hi + 1).toNat = (midpoint lo hi).toNat + 1 := by
  have hlt := midpoint_lt h
  have hhi := hi.isLt
  have hone : (1 : BitVec w).toNat = 1 :=
    (BitVec.toNat_ofNat 1 w).trans (Nat.mod_eq_of_lt (by omega))
  rw [BitVec.toNat_add, hone]
  exact Nat.mod_eq_of_lt (by omega)

/-- The loop: a word that passes the test is the end of the next interval, and the word after one that does not is its
start. -/
def search (test : BitVec w → Option Bool) (lo hi : BitVec w) : Option (BitVec w) :=
  if lo < hi then
    match test (midpoint lo hi) with
    | none => none
    | some true => search test lo (midpoint lo hi)
    | some false => search test (midpoint lo hi + 1) hi
  else some lo
termination_by hi.toNat - lo.toNat
decreasing_by
  · have hlt : lo < hi := ‹_›
    have hmid := midpoint_lt hlt
    have hlo := le_midpoint hlt
    omega
  · have hlt : lo < hi := ‹_›
    have hmid := midpoint_lt hlt
    have hlo := le_midpoint hlt
    have hnext := toNat_midpoint_add_one hlt
    omega

variable {test : BitVec w → Option Bool} {P : Nat → Prop} {lo hi : BitVec w}

/-- The test is defined on the interval and tells whether the property holds. -/
def Decides (test : BitVec w → Option Bool) (P : Nat → Prop) (lo hi : BitVec w) : Prop :=
  ∀ x : BitVec w, lo.toNat ≤ x.toNat → x.toNat < hi.toNat → ∃ b, test x = some b ∧ (b = true ↔ P x.toNat)

theorem Decides.mono {lo' hi' : BitVec w} (h : Decides test P lo hi) (hlo : lo.toNat ≤ lo'.toNat)
    (hhi : hi'.toNat ≤ hi.toNat) : Decides test P lo' hi' :=
  fun x hx hx' => h x (hlo.trans hx) (hx'.trans_le hhi)

theorem search_isLeast (hP : ∀ {a b}, P a → a ≤ b → P b) (htest : Decides test P lo hi) (hle : lo.toNat ≤ hi.toNat)
    (hhi : P hi.toNat) :
    ∃ r, search test lo hi = some r ∧ r.toNat ≤ hi.toNat ∧ IsLeast {x | lo.toNat ≤ x ∧ P x} r.toNat := by
  -- the induction is on the length of the interval; the property holds at its end and fails before its start
  induction hn : hi.toNat - lo.toNat using Nat.strong_induction_on generalizing lo hi with
  | _ n ih =>
    unfold search
    split
    · rename_i hlt
      have hmid := midpoint_lt hlt
      have hlo := le_midpoint hlt
      have hnext := toNat_midpoint_add_one hlt
      obtain ⟨b, hb, hiff⟩ := htest (midpoint lo hi) hlo hmid
      rw [hb]
      cases b with
      | true =>
        obtain ⟨r, hr, hrle, hleast⟩ := ih _ (by omega) (htest.mono le_rfl hmid.le) hlo (hiff.mp rfl) rfl
        exact ⟨r, hr, hrle.trans hmid.le, hleast⟩
      | false =>
        have hno : ¬P (midpoint lo hi).toNat := fun h => absurd (hiff.mpr h) (by decide)
        obtain ⟨r, hr, hrle, ⟨hmem, hPr⟩, hmin⟩ :=
          ih (hi.toNat - (midpoint lo hi + 1).toNat) (by omega) (htest.mono (by omega) le_rfl) (by omega) hhi rfl
        refine ⟨r, hr, hrle, ⟨by omega, hPr⟩, fun x hx => ?_⟩
        rcases Nat.lt_or_ge (midpoint lo hi).toNat x with hgt | hge
        · exact hmin ⟨by omega, hx.2⟩
        · exact absurd (hP hx.2 hge) hno
    · rename_i hge
      have heq : lo.toNat = hi.toNat := by
        have hnot : ¬lo.toNat < hi.toNat := hge
        omega
      exact ⟨lo, rfl, hle, ⟨le_rfl, heq ▸ hhi⟩, fun x hx => hx.1⟩

variable {s : Set Nat} {a r : Nat}

theorem isLeast_of_exists_le (ha : a ∈ lowerBounds s) (h : IsLeast {x | a ≤ x ∧ ∃ v ∈ s, v ≤ x} r) : IsLeast s r := by
  obtain ⟨⟨-, v, hv, hle⟩, hmin⟩ := h
  have hlower : r ∈ lowerBounds s := fun y hy => hmin ⟨ha hy, y, hy, le_rfl⟩
  have heq : v = r := le_antisymm hle (hlower hv)
  exact ⟨heq ▸ hv, hlower⟩

theorem isGreatest_of_forall_le (ha : a ∈ s) (h : IsLeast {x | a ≤ x ∧ ∀ v ∈ s, v ≤ x} r) : IsGreatest s r := by
  obtain ⟨⟨-, hupper⟩, hmin⟩ := h
  refine ⟨by_contra fun hno => ?_, hupper⟩
  -- otherwise all elements are up to the number before
  have hlt : ∀ v ∈ s, v < r := fun v hv => lt_of_le_of_ne (hupper v hv) (by rintro rfl; exact hno hv)
  have hpos := hlt a ha
  have hprev : r ≤ r - 1 := hmin ⟨by omega, fun v hv => by have := hlt v hv; omega⟩
  omega

end BinarySearch
