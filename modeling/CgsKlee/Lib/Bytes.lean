import Mathlib.Data.List.Basic
import Mathlib.Tactic.Ring

/-!
# Numbers and records in files of bytes

A number of `n` bytes is `le n v`, least significant byte first, and `toNat` reads it back modulo `256 ^ n`.

A reader takes the bytes in front of it and returns a value with the bytes that follow, or `none`.  Reading a
counted run of records (`readMany`) that were written one after another gives the records, as soon as one record
reads back (`readMany_flatMap`); the rule also says when the run is refused.
-/

namespace Bytes

def le : Nat → Nat → List UInt8
  | 0, _ => []
  | n + 1, v => UInt8.ofNat v :: le n (v / 256)

def toNat : List UInt8 → Nat
  | [] => 0
  | b :: l => b.toNat + 256 * toNat l

@[simp] theorem length_le (n v : Nat) : (le n v).length = n := by
  induction n generalizing v with
  | zero => rfl
  | succ n ih => simp [le, ih]

theorem toNat_le (n v : Nat) : toNat (le n v) = v % 256 ^ n := by
  induction n generalizing v with
  | zero => simp [le, toNat, Nat.mod_one]
  | succ n ih =>
    have hb : (UInt8.ofNat v).toNat = v % 256 := by simp
    rw [le, toNat, ih, hb, pow_succ', Nat.mod_mul]

theorem toNat_le_of_lt {n v : Nat} (h : v < 256 ^ n) : toNat (le n v) = v := by
  rw [toNat_le, Nat.mod_eq_of_lt h]

theorem toNat_inj : ∀ {l l' : List UInt8}, l.length = l'.length → toNat l = toNat l' → l = l'
  | [], [], _, _ => rfl
  | b :: l, b' :: l', hlen, h => by
    have hb := b.toNat_lt
    have hb' := b'.toNat_lt
    unfold toNat at h
    have hhead : b.toNat = b'.toNat := by omega
    have htail : toNat l = toNat l' := by omega
    rw [UInt8.toNat_inj.mp hhead, toNat_inj (Nat.succ.inj hlen) htail]

variable {α β : Type}

def readMany (read : List UInt8 → Option (β × List UInt8)) : Nat → List UInt8 → Option (List β × List UInt8)
  | 0, f => some ([], f)
  | n + 1, f => do
    let (b, f) ← read f
    let (bs, f) ← readMany read n f
    return (b :: bs, f)

/-- A run of records that were written one after another.  A record `a` is accepted iff `ok a`, and is then read
as `value a`. -/
theorem readMany_flatMap {read : List UInt8 → Option (β × List UInt8)} {write : α → List UInt8} {ok : α → Bool}
    {value : α → β} {l : List α}
    (h : ∀ a ∈ l, ∀ rest, read (write a ++ rest) = if ok a then some (value a, rest) else none)
    (rest : List UInt8) :
    readMany read l.length (l.flatMap write ++ rest) =
      if l.all ok then some (l.map value, rest) else none := by
  induction l with
  | nil => rfl
  | cons a l ih =>
    have ha := h a (by simp) (l.flatMap write ++ rest)
    have hl := ih (fun b hb => h b (by simp [hb]))
    simp only [List.length_cons, readMany, List.flatMap_cons, List.append_assoc, ha]
    by_cases hok : ok a
    · by_cases hall : l.all ok
      · simp [hok, hl, hall]
      · simp [hok, hl, hall]
    · simp [hok]

end Bytes
