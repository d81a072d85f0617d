import Mathlib.Algebra.Group.Nat.Defs
import Mathlib.Data.List.Pairwise

/-!
# Concrete memory

A memory is a list of objects, each a block of bytes at a fixed address.  A load or store of some width accesses the
object that contains the whole range; there is none if the access is out of bounds.  Words are kept in little or big
endian order, and a word of one bit fills a byte.
-/

namespace FlatMemory

/-- The position of the byte of weight `256 ^ i` in a word of `n` bytes. -/
def byteIndex (littleEndian : Bool) (n i : Nat) : Nat := if littleEndian then i else n - i - 1

theorem byteIndex_lt (littleEndian : Bool) {n i : Nat} (h : i < n) : byteIndex littleEndian n i < n := by
  unfold byteIndex
  split <;> omega

/-- The number with the bytes `byte 0, …, byte (n - 1)`, the least significant one first. -/
def wordOf (byte : Nat → Nat) : Nat → Nat
  | 0 => 0
  | n + 1 => byte n * 2 ^ (8 * n) + wordOf byte n

theorem wordOf_congr {f g : Nat → Nat} {n : Nat} (h : ∀ i < n, f i = g i) : wordOf f n = wordOf g n := by
  induction n with
  | zero => rfl
  | succ n ih => rw [wordOf, wordOf, h n (Nat.lt_succ_self n), ih fun i hi => h i (by omega)]

def byteOf (value i : Nat) : Nat := value / 2 ^ (8 * i) % 256

/-- The bytes after the lowest `k` bytes of a number have been written at the first `k` positions. -/
def writeWord (bytes : List Nat) (position : Nat → Nat) (value : Nat) : Nat → List Nat
  | 0 => bytes
  | k + 1 => (writeWord bytes position value k).set (position k) (byteOf value k)

def bytesForWidth (width : Nat) : Nat := (width + 7) / 8

def ByteSized (width : Nat) : Prop := width = 1 ∨ ∃ n, 0 < n ∧ width = 8 * n

def load (littleEndian : Bool) (bytes : List Nat) (offset width : Nat) : Nat :=
  if width = 1 then bytes.getD offset 0 % 2
  else wordOf (fun i => bytes.getD (offset + byteIndex littleEndian (width / 8) i) 0) (width / 8)

def store (littleEndian : Bool) (bytes : List Nat) (offset width value : Nat) : List Nat :=
  if width = 1 then bytes.set offset value
  else writeWord bytes (fun i => offset + byteIndex littleEndian (width / 8) i) value (width / 8)

/-- A block of bytes at an address. -/
structure Object where
  address : Nat
  readOnly : Bool
  bytes : List Nat
deriving DecidableEq, Repr

def Object.Contains (o : Object) (address n : Nat) : Prop :=
  o.address ≤ address ∧ address + n ≤ o.address + o.bytes.length

instance (o : Object) (address n : Nat) : Decidable (o.Contains address n) :=
  inferInstanceAs (Decidable (_ ∧ _))

inductive Access
  | load (width : Nat)
  | store (width value : Nat)
deriving DecidableEq, Repr

def Access.width : Access → Nat
  | .load width | .store width _ => width

inductive Result
  | outOfBound
  | readOnly
  | loaded (value : Nat)
  | stored (objects : List Object)
deriving DecidableEq, Repr

def Object.access (littleEndian : Bool) (objects : List Object) (o : Object) (address : Nat) : Access → Result
  | .load width => .loaded (load littleEndian o.bytes (address - o.address) width)
  | .store width value =>
    if o.readOnly then .readOnly
    else .stored (objects.map fun p =>
      if p.address = o.address then
        { o with bytes := store littleEndian o.bytes (address - o.address) width value }
      else p)

def access (littleEndian : Bool) (objects : List Object) (address : Nat) (a : Access) : Result :=
  match objects.find? fun o => o.Contains address (bytesForWidth a.width) with
  | none => .outOfBound
  | some o => o.access littleEndian objects address a

def Disjoint (objects : List Object) : Prop :=
  objects.Pairwise fun a b => a.address + max a.bytes.length 1 ≤ b.address ∨
    b.address + max b.bytes.length 1 ≤ a.address

theorem access_of_contains {littleEndian : Bool} {objects : List Object} (hd : Disjoint objects) {o : Object}
    (ho : o ∈ objects) {address : Nat} {a : Access} (hpos : 0 < bytesForWidth a.width)
    (hc : o.Contains address (bytesForWidth a.width)) :
    access littleEndian objects address a = o.access littleEndian objects address a := by
  have hunique : ∀ p ∈ objects, p.Contains address (bytesForWidth a.width) → p = o := by
    intro p hp hpc
    by_contra hne
    have hsym : Std.Symm fun a b : Object => a.address + max a.bytes.length 1 ≤ b.address ∨
        b.address + max b.bytes.length 1 ≤ a.address := ⟨fun _ _ h => h.symm⟩
    have h := List.Pairwise.forall hd hp ho hne
    unfold Object.Contains at hc hpc
    omega
  unfold access
  cases hf : objects.find? fun o => o.Contains address (bytesForWidth a.width) with
  | none =>
    have hno := List.find?_eq_none.1 hf o ho
    simp [hc] at hno
  | some p =>
    have hp : p.Contains address (bytesForWidth a.width) := by simpa using List.find?_some hf
    rw [hunique p (List.mem_of_find?_eq_some hf) hp]

theorem access_eq_outOfBound_iff {littleEndian : Bool} {objects : List Object} {address : Nat} {a : Access} :
    access littleEndian objects address a = .outOfBound ↔
      ∀ o ∈ objects, ¬o.Contains address (bytesForWidth a.width) := by
  unfold access
  constructor
  · intro h
    split at h
    · rename_i hf
      intro o ho
      simpa using List.find?_eq_none.1 hf o ho
    · unfold Object.access at h
      split at h
      · cases h
      · split at h <;> cases h
  · intro h
    rw [List.find?_eq_none.2 fun o ho => by simpa using h o ho]

theorem access_eq_readOnly_iff {littleEndian : Bool} {objects : List Object} (hd : Disjoint objects) {address : Nat}
    {a : Access} (hpos : 0 < bytesForWidth a.width) :
    access littleEndian objects address a = .readOnly ↔
      (∃ width value, a = .store width value) ∧
        ∃ o ∈ objects, o.Contains address (bytesForWidth a.width) ∧ o.readOnly = true := by
  constructor
  · intro h
    unfold access at h
    split at h
    · cases h
    · rename_i o hf
      unfold Object.access at h
      split at h
      · cases h
      · rename_i width value
        split at h
        · rename_i hro
          have hc : o.Contains address (bytesForWidth (Access.store width value).width) := by
            simpa using List.find?_some hf
          exact ⟨⟨width, value, rfl⟩, o, List.mem_of_find?_eq_some hf, hc, hro⟩
        · cases h
  · rintro ⟨⟨width, value, rfl⟩, o, ho, hc, hro⟩
    rw [access_of_contains hd ho hpos hc]
    exact if_pos hro

end FlatMemory
