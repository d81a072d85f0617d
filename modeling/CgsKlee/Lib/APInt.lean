import Mathlib.Data.BitVec

/-!
# Bit vectors that carry their width

An `APInt` is a number of bits together with a bit vector of that width, so that vectors of different widths live in
one type.  An operation on two vectors has the width of the first; the second is brought to that width, which does
nothing if the widths agree.
-/

structure APInt where
  width : Nat
  value : BitVec width
deriving DecidableEq, Repr

namespace APInt

def ofNat (w n : Nat) : APInt := ⟨w, BitVec.ofNat w n⟩

def ofBool (b : Bool) : APInt := ⟨1, BitVec.ofBool b⟩

def toNat (a : APInt) : Nat := a.value.toNat

/-- The vector in `w` bits, without a sign. -/
def zextOrTrunc (a : APInt) (w : Nat) : APInt := ⟨w, a.value.setWidth w⟩

/-- The vector in `w` bits, with its sign. -/
def sextOrTrunc (a : APInt) (w : Nat) : APInt := ⟨w, a.value.signExtend w⟩

def complement (a : APInt) : APInt := ⟨a.width, ~~~a.value⟩

def append (a b : APInt) : APInt := ⟨a.width + b.width, a.value ++ b.value⟩

def extract (a : APInt) (offset w : Nat) : APInt := ⟨w, a.value.extractLsb' offset w⟩

def map₂ (f : {w : Nat} → BitVec w → BitVec w → BitVec w) (a b : APInt) : APInt :=
  ⟨a.width, f a.value (b.value.setWidth a.width)⟩

def rel₂ (f : {w : Nat} → BitVec w → BitVec w → Bool) (a b : APInt) : APInt :=
  ofBool (f a.value (b.value.setWidth a.width))

section Basic

variable (a b : APInt) (f : {w : Nat} → BitVec w → BitVec w → BitVec w)
  (g : {w : Nat} → BitVec w → BitVec w → Bool)

@[simp] theorem width_ofNat (w n : Nat) : (ofNat w n).width = w := rfl

@[simp] theorem width_ofBool (c : Bool) : (ofBool c).width = 1 := rfl

@[simp] theorem width_zextOrTrunc (w : Nat) : (a.zextOrTrunc w).width = w := rfl

@[simp] theorem width_sextOrTrunc (w : Nat) : (a.sextOrTrunc w).width = w := rfl

@[simp] theorem width_complement : a.complement.width = a.width := rfl

@[simp] theorem width_append : (a.append b).width = a.width + b.width := rfl

@[simp] theorem width_extract (o w : Nat) : (a.extract o w).width = w := rfl

@[simp] theorem width_map₂ : (map₂ f a b).width = a.width := rfl

@[simp] theorem width_rel₂ : (rel₂ g a b).width = 1 := rfl

theorem zextOrTrunc_self : a.zextOrTrunc a.width = a := by simp [zextOrTrunc]

theorem sextOrTrunc_self : a.sextOrTrunc a.width = a := by simp [sextOrTrunc]

theorem toNat_lt : a.toNat < 2 ^ a.width := a.value.isLt

@[simp] theorem map₂_mk {w : Nat} (x y : BitVec w) : map₂ f ⟨w, x⟩ ⟨w, y⟩ = ⟨w, f x y⟩ := by simp [map₂]

@[simp] theorem rel₂_mk {w : Nat} (x y : BitVec w) : rel₂ g ⟨w, x⟩ ⟨w, y⟩ = ofBool (g x y) := by simp [rel₂]

variable {a b}

theorem exists_values {w : Nat} (ha : a.width = w) (hb : b.width = w) :
    ∃ x y : BitVec w, a = ⟨w, x⟩ ∧ b = ⟨w, y⟩ := by
  obtain ⟨wa, x⟩ := a
  obtain ⟨wb, y⟩ := b
  subst ha
  obtain rfl := hb
  exact ⟨x, y, rfl, rfl⟩

theorem exists_value {w : Nat} (ha : a.width = w) : ∃ x : BitVec w, a = ⟨w, x⟩ := by
  obtain ⟨wa, x⟩ := a
  subst ha
  exact ⟨x, rfl⟩

theorem ext_toNat (hw : a.width = b.width) (hv : a.toNat = b.toNat) : a = b := by
  obtain ⟨w, x⟩ := a
  obtain ⟨w', y⟩ := b
  dsimp only at hw
  subst hw
  congr
  exact BitVec.eq_of_toNat_eq hv

theorem ext_getLsbD (hw : a.width = b.width) (hv : ∀ i < a.width, a.value.getLsbD i = b.value.getLsbD i) : a = b := by
  obtain ⟨w, x⟩ := a
  obtain ⟨w', y⟩ := b
  dsimp only at hw
  subst hw
  congr
  exact BitVec.eq_of_getLsbD_eq hv

theorem toNat_eq_iff (hw : a.width = b.width) : a.toNat = b.toNat ↔ a = b :=
  ⟨ext_toNat hw, fun h => by rw [h]⟩

end Basic

section Extract

variable (a b : APInt) {o w : Nat}

theorem extract_all : a.extract 0 a.width = a := by simp [extract]

theorem extract_append_left (h : b.width ≤ o) : (a.append b).extract o w = a.extract (o - b.width) w := by
  refine ext_getLsbD rfl fun i hi => ?_
  simp only [append, extract, BitVec.getLsbD_extractLsb', BitVec.getLsbD_append]
  rw [if_neg (by omega), show o + i - b.width = o - b.width + i by omega]

theorem extract_append_right (h : o + w ≤ b.width) : (a.append b).extract o w = b.extract o w := by
  refine ext_getLsbD rfl fun i hi => ?_
  rw [width_extract] at hi
  simp only [append, extract, BitVec.getLsbD_extractLsb', BitVec.getLsbD_append]
  rw [if_pos (by omega)]

theorem extract_append (h : o < b.width) (h' : b.width < o + w) :
    (a.append b).extract o w = (a.extract 0 (w + o - b.width)).append (b.extract o (b.width - o)) := by
  refine ext_getLsbD (by simp only [width_append, width_extract]; omega) fun i hi => ?_
  rw [width_extract] at hi
  simp only [append, extract, BitVec.getLsbD_extractLsb', BitVec.getLsbD_append]
  by_cases hib : i < b.width - o
  · rw [if_pos (by omega), if_pos hib]
    simp [hib, hi]
  · rw [if_neg (by omega), if_neg hib, show o + i - b.width = 0 + (i - (b.width - o)) by omega]
    simp [show i - (b.width - o) < w + o - b.width by omega, hi]

theorem append_extract {w' : Nat} : (a.extract (o + w) w').append (a.extract o w) = a.extract o (w' + w) := by
  simp only [append, extract]
  congr 1
  exact BitVec.extractLsb'_append_extractLsb'_eq_extractLsb' rfl

theorem append_assoc (a b c : APInt) : (a.append b).append c = a.append (b.append c) := by
  refine ext_getLsbD (by simp only [width_append]; omega) fun i _ => ?_
  simp only [append, BitVec.getLsbD_append]
  by_cases hc : i < c.width
  · rw [if_pos hc, if_pos (by omega), if_pos hc]
  · rw [if_neg hc]
    by_cases hb : i - c.width < b.width
    · rw [if_pos hb, if_pos (by omega), if_neg hc]
    · rw [if_neg hb, if_neg (by omega), Nat.sub_sub, Nat.add_comm]

end Extract

end APInt
