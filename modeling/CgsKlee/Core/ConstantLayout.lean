import CgsKlee.Core.LLVMType

/-!
# Layout of constants

A constant of LLVM becomes one value in `evalConstant`, which concatenates the values of its elements, and the contents
of a global in `initializeGlobalObject`, which writes the elements at their offsets.  Elements of arrays and vectors are
concatenated without padding, and written at the distance of their store size.  Where the two agree the value has the
layout of the global: `constant_layout_iff`.
-/

namespace CgsKlee

namespace ConstantLayout

/-- A constant.  A scalar is a number, a null pointer, the address of a global or a constant expression, with the value
that `evalConstant` gives it; a `ConstantDataSequential` is an array or a vector of scalars. -/
inductive Constant
  | scalar (type : LLVMType) (value : APInt)
  | undef (type : LLVMType)
  | aggregateZero (type : LLVMType)
  | array (elementType : LLVMType) (elements : List Constant)
  | vector (elementType : LLVMType) (elements : List Constant)
  | struct (isPacked : Bool) (fieldTypes : List LLVMType) (fields : List Constant)

def Constant.type : Constant → LLVMType
  | .scalar type _ => type
  | .undef type => type
  | .aggregateZero type => type
  | .array elementType elements => .array elements.length elementType
  | .vector elementType elements => .vector elements.length elementType
  | .struct packed fieldTypes _ => .struct packed fieldTypes

variable (L : DataLayout)

/-- `ConcatExpr::createN` of constants, the first of them highest. -/
def createN : List APInt → Option APInt
  | [] => none
  | [kid] => some kid
  | kid :: kids => (createN kids).map kid.append

/-- The bits from a field to the next one, or to the end of the struct. -/
def slot (packed : Bool) (fieldTypes : List LLVMType) (op : Nat) : Nat :=
  let thisOffset := L.getElementOffset packed fieldTypes op * 8
  let nextOffset :=
    if op + 1 = fieldTypes.length then L.getTypeSizeInBits (.struct packed fieldTypes)
    else L.getElementOffset packed fieldTypes (op + 1) * 8
  nextOffset - thisOffset

/-- The fields of a struct from `op` on with their padding, the last of them first. -/
def structKids (packed : Bool) (fieldTypes : List LLVMType) : Nat → List APInt → List APInt
  | _, [] => []
  | op, kid :: kids =>
    structKids packed fieldTypes (op + 1) kids ++
      if kid.width < slot L packed fieldTypes op then [.ofNat (slot L packed fieldTypes op - kid.width) 0, kid]
      else [kid]

/-- The value of zeros; without a size it has one bit for the filters of a landingpad. -/
def zeroValue (atLandingpad : Bool) (type : LLVMType) : APInt :=
  if L.getTypeSizeInBits type = 0 ∧ atLandingpad then .ofNat 1 0 else .ofNat (L.getTypeSizeInBits type) 0

mutual

/-- `Executor::evalConstant` on a little-endian target. -/
def evalConstant (atLandingpad : Bool) : Constant → Option APInt
  | .scalar _ value => some value
  | .undef type => some (zeroValue L atLandingpad type)
  | .aggregateZero type => some (zeroValue L atLandingpad type)
  | .array _ elements => do
    let kids ← evalConstants atLandingpad elements
    createN kids.reverse
  | .vector _ elements => do
    let kids ← evalConstants atLandingpad elements
    createN kids.reverse
  | .struct packed fieldTypes fields => do
    let kids ← evalConstants atLandingpad fields
    createN (structKids L packed fieldTypes 0 kids)

def evalConstants (atLandingpad : Bool) : List Constant → Option (List APInt)
  | [] => some []
  | c :: cs => do
    let kid ← evalConstant atLandingpad c
    let kids ← evalConstants atLandingpad cs
    some (kid :: kids)

end

abbrev Contents := Nat → BitVec 8

def byteOf (value : APInt) (k : Nat) : BitVec 8 := value.value.extractLsb' (8 * k) 8

def write (offset : Nat) (value : APInt) (os : Contents) : Contents :=
  fun x => if offset ≤ x ∧ x < offset + value.width / 8 then byteOf value (x - offset) else os x

mutual

def initializeGlobalObject (offset : Nat) : Constant → Contents → Contents
  | .vector elementType elements, os => initializeElements (L.getTypeStoreSize elementType) offset elements os
  | .aggregateZero type, os =>
    fun x => if offset ≤ x ∧ x < offset + L.getTypeStoreSize type then 0 else os x
  | .array elementType elements, os => initializeElements (L.getTypeStoreSize elementType) offset elements os
  | .struct packed fieldTypes fields, os => initializeFields packed fieldTypes offset 0 fields os
  | .undef _, os => os
  | .scalar type value, os =>
    -- extend the constant if necessary
    write offset (value.zextOrTrunc (L.getTypeStoreSize type * 8)) os

def initializeElements (elementSize offset : Nat) : List Constant → Contents → Contents
  | [], os => os
  | c :: cs, os => initializeElements elementSize (offset + elementSize) cs (initializeGlobalObject offset c os)

def initializeFields (packed : Bool) (fieldTypes : List LLVMType) (offset i : Nat) :
    List Constant → Contents → Contents
  | [], os => os
  | c :: cs, os =>
    initializeFields packed fieldTypes offset (i + 1) cs
      (initializeGlobalObject (offset + L.getElementOffset packed fieldTypes i) c os)

end

mutual

/-- The constant is well formed: elements and fields have their types, and a scalar has the width of its type. -/
def WellFormed : Constant → Prop
  | .scalar type value => value.width = L.getTypeSizeInBits type
  | .undef _ => True
  | .aggregateZero _ => True
  | .array elementType elements => elements ≠ [] ∧ AllOfType (List.replicate elements.length elementType) elements
  | .vector elementType elements => elements ≠ [] ∧ AllOfType (List.replicate elements.length elementType) elements
  | .struct _ fieldTypes fields => fields ≠ [] ∧ AllOfType fieldTypes fields

def AllOfType : List LLVMType → List Constant → Prop
  | [], [] => True
  | type :: types, c :: cs => c.type = type ∧ WellFormed c ∧ AllOfType types cs
  | _, _ => False

end

mutual

/-- The width of the value: that of the type, or the sum over the elements of a sequence. -/
def width : Constant → Nat
  | .scalar type _ => L.getTypeSizeInBits type
  | .undef type => L.getTypeSizeInBits type
  | .aggregateZero type => L.getTypeSizeInBits type
  | .array _ elements => widths elements
  | .vector _ elements => widths elements
  | .struct packed fieldTypes _ => L.getTypeSizeInBits (.struct packed fieldTypes)

def widths : List Constant → Nat
  | [] => 0
  | c :: cs => width c + widths cs

end

mutual

/-- The elements of every sequence in the constant but the last have the width of their store size, and the zeros for a
landingpad have a size. -/
def Dense (atLandingpad : Bool) : Constant → Prop
  | .scalar _ _ => True
  | .undef type => L.getTypeSizeInBits type = 0 → atLandingpad = false
  | .aggregateZero type => L.getTypeSizeInBits type = 0 → atLandingpad = false
  | .array elementType elements => AllDense atLandingpad (some (L.getTypeStoreSize elementType * 8)) elements
  | .vector elementType elements => AllDense atLandingpad (some (L.getTypeStoreSize elementType * 8)) elements
  | .struct _ _ fields => AllDense atLandingpad none fields

def AllDense (atLandingpad : Bool) (elementWidth : Option Nat) : List Constant → Prop
  | [] => True
  | c :: cs =>
    Dense atLandingpad c ∧ (cs ≠ [] → ∀ w ∈ elementWidth, width L c = w) ∧ AllDense atLandingpad elementWidth cs

end

variable {L} {a b value : APInt} {k n : Nat}

theorem getLsbD_byteOf {i : Nat} (hi : i < 8) : (byteOf value k).getLsbD i = value.value.getLsbD (8 * k + i) := by
  simp [byteOf, hi]

theorem getLsbD_append (i : Nat) : (a.append b).value.getLsbD i =
    if i < b.width then b.value.getLsbD i else a.value.getLsbD (i - b.width) := BitVec.getLsbD_append

theorem byteOf_eq {value' : APInt}
    (h : ∀ i < 8, value.value.getLsbD (8 * k + i) = value'.value.getLsbD (8 * n + i)) :
    byteOf value k = byteOf value' n := by
  refine BitVec.eq_of_getLsbD_eq fun i hi => ?_
  rw [getLsbD_byteOf hi, getLsbD_byteOf hi, h i hi]

theorem byteOf_append_low {size : Nat} (hb : b.width = 8 * size) (hk : k < size) :
    byteOf (a.append b) k = byteOf b k := by
  refine byteOf_eq fun i hi => ?_
  rw [getLsbD_append, if_pos (by omega)]

theorem byteOf_append_high {size : Nat} (hb : b.width = 8 * size) (hk : size ≤ k) :
    byteOf (a.append b) k = byteOf a (k - size) := by
  refine byteOf_eq fun i hi => ?_
  rw [getLsbD_append, if_neg (by omega), show 8 * k + i - b.width = 8 * (k - size) + i by omega]

theorem byteOf_of_width_le (h : value.width ≤ 8 * k) : byteOf value k = 0#8 := by
  refine BitVec.eq_of_getLsbD_eq fun i hi => ?_
  rw [getLsbD_byteOf hi, BitVec.getLsbD_of_ge _ _ (by omega), BitVec.getLsbD_zero]

theorem byteOf_zero (w : Nat) : byteOf (.ofNat w 0) k = 0#8 := by
  refine BitVec.eq_of_getLsbD_eq fun i hi => ?_
  rw [getLsbD_byteOf hi]
  simp [APInt.ofNat]

theorem byteOf_zext {w : Nat} (h : value.width ≤ w) : byteOf (value.zextOrTrunc w) k = byteOf value k := by
  refine byteOf_eq fun i hi => ?_
  simp only [APInt.zextOrTrunc, BitVec.getLsbD_setWidth]
  by_cases hlt : 8 * k + i < w
  · rw [decide_eq_true hlt, Bool.true_and]
  · rw [decide_eq_false hlt, Bool.false_and, BitVec.getLsbD_of_ge _ _ (by omega)]

def pad (w : Nat) (value : APInt) : APInt :=
  if value.width < w then (APInt.ofNat (w - value.width) 0).append value else value

theorem width_pad {w : Nat} (h : value.width ≤ w) : (pad w value).width = w := by
  unfold pad
  split
  · simp only [APInt.width_append, APInt.width_ofNat]
    omega
  · omega

theorem byteOf_pad (w : Nat) : byteOf (pad w value) k = byteOf value k := by
  unfold pad
  split
  · refine byteOf_eq fun i hi => ?_
    rw [getLsbD_append]
    by_cases hlt : 8 * k + i < value.width
    · rw [if_pos hlt]
    · rw [if_neg hlt, BitVec.getLsbD_of_ge _ _ (Nat.le_of_not_lt hlt)]
      simp [APInt.ofNat]
  · rfl

variable {kids : List APInt} {type : LLVMType}

theorem createN_cons (h : kids ≠ []) (kid : APInt) :
    createN (kid :: kids) = (createN kids).map kid.append := by
  cases kids with
  | nil => exact absurd rfl h
  | cons second kids => rfl

theorem createN_concat (h : kids ≠ []) (kid : APInt) :
    createN (kids ++ [kid]) = (createN kids).map (·.append kid) := by
  induction kids with
  | nil => exact absurd rfl h
  | cons first kids ih =>
    by_cases hkids : kids = []
    · subst hkids
      rfl
    · rw [List.cons_append, createN_cons (by simp), ih hkids, createN_cons hkids]
      cases createN kids with
      | none => rfl
      | some v => exact congrArg some (APInt.append_assoc first v kid).symm

theorem createN_append_pad (h : kids ≠ []) (w : Nat) (kid : APInt) :
    createN (kids ++ if kid.width < w then [.ofNat (w - kid.width) 0, kid] else [kid]) =
      (createN kids).map (·.append (pad w kid)) := by
  unfold pad
  split
  · have hsplit : kids ++ [APInt.ofNat (w - kid.width) 0, kid] = kids ++ [APInt.ofNat (w - kid.width) 0] ++ [kid] := by
      simp
    rw [hsplit, createN_concat (by simp), createN_concat h]
    cases createN kids with
    | none => rfl
    | some v => exact congrArg some (APInt.append_assoc v _ kid)
  · exact createN_concat h kid

theorem createN_pad (w : Nat) (kid : APInt) :
    createN ([] ++ if kid.width < w then [.ofNat (w - kid.width) 0, kid] else [kid]) = some (pad w kid) := by
  unfold pad
  split <;> rfl

variable {atLandingpad : Bool}

/-- The value of a constant has its width, and the bytes of the value are those that the initialisation leaves in the
area of the constant, and nothing else, in an object of zeros. -/
structure Agrees (L : DataLayout) (atLandingpad : Bool) (c : Constant) (value : APInt) : Prop where
  eval : evalConstant L atLandingpad c = some value
  width : value.width = width L c
  width_le : value.width ≤ L.getTypeSizeInBits c.type
  frame : ∀ offset os x, (x < offset ∨ offset + L.getTypeStoreSize c.type ≤ x) →
    initializeGlobalObject L offset c os x = os x
  bytes : ∀ offset os, (∀ k < L.getTypeStoreSize c.type, os (offset + k) = 0#8) →
    ∀ k < L.getTypeStoreSize c.type, initializeGlobalObject L offset c os (offset + k) = byteOf value k

theorem agrees_scalar (h : value.width = L.getTypeSizeInBits type) :
    Agrees L atLandingpad (.scalar type value) value where
  eval := rfl
  width := h
  width_le := h.le
  frame offset os x hx := by
    have hbytes : L.getTypeStoreSize type * 8 / 8 = L.getTypeStoreSize type := Nat.mul_div_cancel _ (by decide)
    simp only [Constant.type] at hx
    change write offset _ os x = os x
    rw [write, APInt.width_zextOrTrunc, hbytes, if_neg (by omega)]
  bytes offset os _ k hk := by
    have hbytes : L.getTypeStoreSize type * 8 / 8 = L.getTypeStoreSize type := Nat.mul_div_cancel _ (by decide)
    simp only [Constant.type] at hk
    have hfits := L.size_le_store type
    change write offset _ os (offset + k) = _
    rw [write, APInt.width_zextOrTrunc, hbytes, if_pos (by omega), Nat.add_sub_cancel_left,
      byteOf_zext (by omega)]

theorem zeroValue_eq (h : L.getTypeSizeInBits type = 0 → atLandingpad = false) :
    zeroValue L atLandingpad type = .ofNat (L.getTypeSizeInBits type) 0 := by
  unfold zeroValue
  rw [if_neg]
  rintro ⟨hzero, htrue⟩
  rw [h hzero] at htrue
  cases htrue

theorem agrees_undef (h : L.getTypeSizeInBits type = 0 → atLandingpad = false) :
    Agrees L atLandingpad (.undef type) (.ofNat (L.getTypeSizeInBits type) 0) where
  eval := congrArg some (zeroValue_eq h)
  width := APInt.width_ofNat ..
  width_le := Nat.le_refl _
  frame _ _ _ _ := rfl
  bytes _ _ hos k hk := (hos k hk).trans (byteOf_zero _).symm

theorem agrees_aggregateZero (h : L.getTypeSizeInBits type = 0 → atLandingpad = false) :
    Agrees L atLandingpad (.aggregateZero type) (.ofNat (L.getTypeSizeInBits type) 0) where
  eval := congrArg some (zeroValue_eq h)
  width := APInt.width_ofNat ..
  width_le := Nat.le_refl _
  frame offset os x hx := by
    simp only [Constant.type] at hx
    exact if_neg (by omega)
  bytes offset os _ k hk := by
    simp only [Constant.type] at hk
    rw [byteOf_zero]
    exact if_pos (by omega)

theorem evalConstants_cons {c : Constant} {cs : List Constant} (h : evalConstant L atLandingpad c = some value)
    (hs : evalConstants L atLandingpad cs = some kids) :
    evalConstants L atLandingpad (c :: cs) = some (value :: kids) := by
  rw [evalConstants, h, hs]
  rfl

structure ElementsAgree (L : DataLayout) (atLandingpad : Bool) (size : Nat) (cs : List Constant) (kids : List APInt)
    (value : APInt) : Prop where
  eval : evalConstants L atLandingpad cs = some kids
  nonempty : kids ≠ []
  concat : createN kids.reverse = some value
  width : value.width = widths L cs
  frame : ∀ offset os x, (x < offset ∨ offset + cs.length * size ≤ x) →
    initializeElements L size offset cs os x = os x
  bytes : ∀ offset os, (∀ k < cs.length * size, os (offset + k) = 0#8) →
    ∀ k < cs.length * size, initializeElements L size offset cs os (offset + k) = byteOf value k

theorem elementsAgree_single {c : Constant} {size : Nat} (hsize : L.getTypeStoreSize c.type = size)
    (h : Agrees L atLandingpad c value) : ElementsAgree L atLandingpad size [c] [value] value where
  eval := evalConstants_cons h.eval rfl
  nonempty := List.cons_ne_nil _ _
  concat := rfl
  width := h.width
  frame offset os x hx := by
    rw [List.length_singleton, Nat.one_mul, ← hsize] at hx
    exact h.frame offset os x hx
  bytes offset os hos k hk := by
    rw [List.length_singleton, Nat.one_mul, ← hsize] at hos hk
    exact h.bytes offset os hos k hk

theorem elementsAgree_cons {c : Constant} {cs : List Constant} {rest : APInt} {size : Nat}
    (hsize : L.getTypeStoreSize c.type = size) (hdense : value.width = 8 * size) (h : Agrees L atLandingpad c value)
    (hrest : ElementsAgree L atLandingpad size cs kids rest) :
    ElementsAgree L atLandingpad size (c :: cs) (value :: kids) (rest.append value) where
  eval := evalConstants_cons h.eval hrest.eval
  nonempty := List.cons_ne_nil _ _
  concat := by
    rw [List.reverse_cons, createN_concat (by simpa using hrest.nonempty), hrest.concat]
    rfl
  width := by
    rw [APInt.width_append, hrest.width, h.width]
    exact Nat.add_comm _ _
  frame offset os x hx := by
    rw [List.length_cons, Nat.add_mul, Nat.one_mul] at hx
    exact (hrest.frame _ _ x (by omega)).trans (h.frame offset os x (by omega))
  bytes offset os hos k hk := by
    rw [List.length_cons, Nat.add_mul, Nat.one_mul] at hos hk
    rcases Nat.lt_or_ge k size with hlt | hge
    · have hbyte := h.bytes offset os (fun k hk => hos k (by omega)) k (by omega)
      exact (hrest.frame _ _ _ (by omega)).trans (hbyte.trans (byteOf_append_low hdense hlt).symm)
    · have hzero : ∀ k < cs.length * size, initializeGlobalObject L offset c os (offset + size + k) = 0#8 := by
        intro k hk
        rw [h.frame _ _ _ (by omega), Nat.add_assoc, hos (size + k) (by omega)]
      have hbyte := hrest.bytes (offset + size) _ hzero (k - size) (by omega)
      rw [show offset + size + (k - size) = offset + k by omega] at hbyte
      exact hbyte.trans (byteOf_append_high hdense hge).symm

structure FieldsAgree (L : DataLayout) (atLandingpad : Bool) (packed : Bool) (fieldTypes : List LLVMType) (i : Nat)
    (cs : List Constant) (kids : List APInt) (value : APInt) : Prop where
  eval : evalConstants L atLandingpad cs = some kids
  nonempty : kids ≠ []
  concat : createN (structKids L packed fieldTypes i kids) = some value
  width : L.getElementOffset packed fieldTypes i * 8 + value.width = L.getTypeSizeInBits (.struct packed fieldTypes)
  frame : ∀ offset os x, (x < offset + L.getElementOffset packed fieldTypes i ∨
    offset + L.getTypeStoreSize (.struct packed fieldTypes) ≤ x) →
    initializeFields L packed fieldTypes offset i cs os x = os x
  bytes : ∀ offset os, (∀ x, offset + L.getElementOffset packed fieldTypes i ≤ x →
      x < offset + L.getTypeStoreSize (.struct packed fieldTypes) → os x = 0#8) →
    ∀ x, offset + L.getElementOffset packed fieldTypes i ≤ x →
      x < offset + L.getTypeStoreSize (.struct packed fieldTypes) →
      initializeFields L packed fieldTypes offset i cs os x =
        byteOf value (x - (offset + L.getElementOffset packed fieldTypes i))

section Fields

variable {packed : Bool} {fieldTypes : List LLVMType} {i : Nat} {c : Constant} {cs : List Constant}

theorem offset_add_store_le {type : LLVMType} {offset bits : Nat} (h : offset * 8 + L.getTypeSizeInBits type ≤ bits) :
    offset + L.getTypeStoreSize type ≤ bytesFor bits := by
  unfold DataLayout.getTypeStoreSize bytesFor
  omega

theorem Agrees.bytes_padded (h : Agrees L atLandingpad c value) (start stop : Nat) {os : Contents}
    (hfits : start + L.getTypeStoreSize c.type ≤ stop) (hos : ∀ x, start ≤ x → x < stop → os x = 0#8) (w : Nat) :
    ∀ x, start ≤ x → x < stop → initializeGlobalObject L start c os x = byteOf (pad w value) (x - start) := by
  intro x hle hlt
  rw [byteOf_pad]
  rcases Nat.lt_or_ge (x - start) (L.getTypeStoreSize c.type) with hin | hout
  · have hbyte := h.bytes start os (fun k hk => hos _ (Nat.le_add_right _ _) (by omega)) (x - start) hin
    rwa [Nat.add_sub_cancel' hle] at hbyte
  · have hwidth := h.width_le
    have hstore := L.size_le_store c.type
    rw [h.frame start os x (by omega), hos x hle hlt, byteOf_of_width_le (by omega)]

theorem fieldsAgree_single (hlast : i + 1 = fieldTypes.length) (htype : fieldTypes[i]? = some c.type)
    (h : Agrees L atLandingpad c value) :
    FieldsAgree L atLandingpad packed fieldTypes i [c] [value] (pad (slot L packed fieldTypes i) value) := by
  have hend := L.offset_le packed fieldTypes i c.type htype
  have hstore : L.getElementOffset packed fieldTypes i + L.getTypeStoreSize c.type ≤
      L.getTypeStoreSize (.struct packed fieldTypes) := offset_add_store_le hend
  have hslot : slot L packed fieldTypes i =
      L.getTypeSizeInBits (.struct packed fieldTypes) - L.getElementOffset packed fieldTypes i * 8 := by
    simp only [slot, if_pos hlast]
  have hwidth := h.width_le
  exact {
    eval := evalConstants_cons h.eval rfl
    nonempty := List.cons_ne_nil _ _
    concat := createN_pad _ _
    width := by
      rw [width_pad (by omega)]
      omega
    frame := fun offset os x hx => h.frame _ os x (by omega)
    bytes := fun offset os hos x hle hlt => h.bytes_padded _ _ (by omega) hos _ x hle hlt }

variable {kids : List APInt}

theorem structKids_ne_nil (h : kids ≠ []) : structKids L packed fieldTypes i kids ≠ [] := by
  cases kids with
  | nil => exact absurd rfl h
  | cons kid kids =>
    rw [structKids]
    split <;> simp

theorem fieldsAgree_cons {rest : APInt} (hmore : i + 1 < fieldTypes.length)
    (htype : fieldTypes[i]? = some c.type) (h : Agrees L atLandingpad c value)
    (hrest : FieldsAgree L atLandingpad packed fieldTypes (i + 1) cs kids rest) :
    FieldsAgree L atLandingpad packed fieldTypes i (c :: cs) (value :: kids)
      (rest.append (pad (slot L packed fieldTypes i) value)) := by
  have hnext := L.offset_lt packed fieldTypes i (i + 1) c.type (Nat.lt_succ_self i) hmore htype
  have hstore : L.getElementOffset packed fieldTypes i + L.getTypeStoreSize c.type ≤
      L.getElementOffset packed fieldTypes (i + 1) := by
    have hle := offset_add_store_le hnext
    unfold bytesFor at hle
    omega
  have hslot : slot L packed fieldTypes i =
      8 * (L.getElementOffset packed fieldTypes (i + 1) - L.getElementOffset packed fieldTypes i) := by
    simp only [slot, if_neg (Nat.ne_of_lt hmore)]
    omega
  have hwidth := h.width_le
  have hpad : (pad (slot L packed fieldTypes i) value).width =
      8 * (L.getElementOffset packed fieldTypes (i + 1) - L.getElementOffset packed fieldTypes i) := by
    rw [width_pad (by omega), hslot]
  have htotal := hrest.width
  have hinside : L.getElementOffset packed fieldTypes (i + 1) ≤ L.getTypeStoreSize (.struct packed fieldTypes) := by
    unfold DataLayout.getTypeStoreSize bytesFor
    omega
  exact {
    eval := evalConstants_cons h.eval hrest.eval
    nonempty := List.cons_ne_nil _ _
    concat := by
      rw [structKids, createN_append_pad (structKids_ne_nil hrest.nonempty), hrest.concat]
      rfl
    width := by
      rw [APInt.width_append, hpad]
      omega
    frame := fun offset os x hx =>
      (hrest.frame offset _ x (by omega)).trans (h.frame _ os x (by omega))
    bytes := fun offset os hos x hle hlt => by
      have hfirst : ∀ x, offset + L.getElementOffset packed fieldTypes i ≤ x →
          x < offset + L.getElementOffset packed fieldTypes (i + 1) → os x = 0#8 := fun x hle hlt =>
        hos x hle (by omega)
      have hfield := h.bytes_padded _ _ (by omega) hfirst (slot L packed fieldTypes i)
      rcases Nat.lt_or_ge x (offset + L.getElementOffset packed fieldTypes (i + 1)) with hin | hout
      · rw [byteOf_append_low hpad (by omega)]
        exact (hrest.frame offset _ x (.inl hin)).trans (hfield x hle hin)
      · have hzero : ∀ x, offset + L.getElementOffset packed fieldTypes (i + 1) ≤ x →
            x < offset + L.getTypeStoreSize (.struct packed fieldTypes) →
            initializeGlobalObject L (offset + L.getElementOffset packed fieldTypes i) c os x = 0#8 := by
          intro x hle hlt
          rw [h.frame _ os x (by omega), hos x (by omega) hlt]
        rw [byteOf_append_high hpad (by omega)]
        refine (hrest.bytes offset _ hzero x hout hlt).trans ?_
        congr 1
        omega }

theorem allOfType_length : ∀ {types : List LLVMType} {cs : List Constant}, AllOfType L types cs →
    types.length = cs.length
  | [], [], _ => rfl
  | _ :: _, _ :: _, h => congrArg (· + 1) (allOfType_length h.2.2)
  | [], _ :: _, h => h.elim
  | _ :: _, [], h => h.elim

theorem allOfType_drop {j : Nat} (h : AllOfType L (fieldTypes.drop j) (c :: cs)) :
    fieldTypes[j]? = some c.type ∧ AllOfType L (fieldTypes.drop (j + 1)) cs ∧ j < fieldTypes.length ∧
      (cs = [] ↔ j + 1 = fieldTypes.length) := by
  cases hdrop : fieldTypes.drop j with
  | nil =>
    rw [hdrop] at h
    exact h.elim
  | cons type types =>
    rw [hdrop] at h
    obtain ⟨htype, -, hrest⟩ := h
    have hlength := congrArg List.length hdrop
    rw [List.length_drop, List.length_cons] at hlength
    have hget : fieldTypes[j]? = some type := by
      rw [← List.head?_drop, hdrop]
      rfl
    have htail : fieldTypes.drop (j + 1) = types := by
      rw [← List.tail_drop, hdrop]
      rfl
    have hcount : types.length = cs.length := allOfType_length hrest
    refine ⟨htype ▸ hget, htail ▸ hrest, by omega, ?_⟩
    rw [← List.length_eq_zero_iff]
    omega

/-- The fields of a struct, by induction on them from the last one on. -/
theorem fieldsAgree (cs : List Constant) : ∀ i, cs ≠ [] → AllOfType L (fieldTypes.drop i) cs →
    (∀ c ∈ cs, ∃ value, Agrees L atLandingpad c value) →
    ∃ kids value, FieldsAgree L atLandingpad packed fieldTypes i cs kids value := by
  induction cs with
  | nil => exact fun i h => absurd rfl h
  | cons c cs ih =>
    intro i _ htypes hagree
    obtain ⟨htype, hrest, hlt, hlast⟩ := allOfType_drop htypes
    obtain ⟨value, hvalue⟩ := hagree c List.mem_cons_self
    by_cases hcs : cs = []
    · subst hcs
      exact ⟨_, _, fieldsAgree_single (hlast.mp rfl) htype hvalue⟩
    · obtain ⟨kids, rest, hrest⟩ := ih (i + 1) hcs hrest fun c hc => hagree c (List.mem_cons_of_mem _ hc)
      have hmore : i + 1 < fieldTypes.length := Nat.lt_of_le_of_ne hlt fun heq => hcs (hlast.mpr heq)
      exact ⟨_, _, fieldsAgree_cons hmore htype hvalue hrest⟩

theorem agrees_struct (hzero : L.getElementOffset packed fieldTypes 0 = 0)
    (h : FieldsAgree L atLandingpad packed fieldTypes 0 cs kids value) :
    Agrees L atLandingpad (.struct packed fieldTypes cs) value := by
  obtain ⟨heval, -, hconcat, hwidth, hframe, hbytes⟩ := h
  rw [hzero, Nat.zero_mul, Nat.zero_add] at hwidth
  simp only [hzero, Nat.add_zero] at hframe hbytes
  exact {
    eval := by
      rw [evalConstant, heval]
      exact hconcat
    width := hwidth
    width_le := hwidth.le
    frame := hframe
    bytes := fun offset os hos k hk => by
      have hfield := hbytes offset os (fun x hle hlt => by
        have hk := hos (x - offset) (by simp only [Constant.type]; omega)
        rwa [Nat.add_sub_cancel' hle] at hk) (offset + k) (Nat.le_add_right _ _) (Nat.add_lt_add_left hk _)
      rw [Nat.add_sub_cancel_left] at hfield
      exact hfield }

end Fields

section Sequences

variable {elementType : LLVMType} {cs : List Constant}

/-- The elements of a sequence, by induction on them from the last one on. -/
theorem elementsAgree (cs : List Constant) : cs ≠ [] → AllOfType L (List.replicate cs.length elementType) cs →
    AllDense L atLandingpad (some (L.getTypeStoreSize elementType * 8)) cs →
    (∀ c ∈ cs, ∃ value, Agrees L atLandingpad c value) →
    ∃ kids value, ElementsAgree L atLandingpad (L.getTypeStoreSize elementType) cs kids value := by
  induction cs with
  | nil => exact fun h => absurd rfl h
  | cons c cs ih =>
    rintro - ⟨htype, -, htypes⟩ ⟨-, hdense, hdenses⟩ hagree
    have hsize : L.getTypeStoreSize c.type = L.getTypeStoreSize elementType := congrArg L.getTypeStoreSize htype
    obtain ⟨value, hvalue⟩ := hagree c List.mem_cons_self
    by_cases hcs : cs = []
    · subst hcs
      exact ⟨_, _, elementsAgree_single hsize hvalue⟩
    · obtain ⟨kids, rest, hrest⟩ := ih hcs htypes hdenses fun c hc => hagree c (List.mem_cons_of_mem _ hc)
      have hwidth : value.width = 8 * L.getTypeStoreSize elementType := by
        rw [hvalue.width, hdense hcs _ rfl, Nat.mul_comm]
      exact ⟨_, _, elementsAgree_cons hsize hwidth hvalue hrest⟩

theorem agrees_sequence {c : Constant} {size : Nat} {kids : List APInt}
    (h : ElementsAgree L atLandingpad size cs kids value)
    (heval : evalConstant L atLandingpad c = (evalConstants L atLandingpad cs).bind fun kids => createN kids.reverse)
    (hinit : ∀ offset os, initializeGlobalObject L offset c os = initializeElements L size offset cs os)
    (hwidth : width L c = widths L cs) (hfits : cs.length * size ≤ L.getTypeStoreSize c.type)
    (hbits : value.width ≤ cs.length * size * 8) (hle : value.width ≤ L.getTypeSizeInBits c.type) :
    Agrees L atLandingpad c value where
  eval := by
    rw [heval, h.eval]
    exact h.concat
  width := h.width.trans hwidth.symm
  width_le := hle
  frame offset os x hx := by rw [hinit, h.frame offset os x (by omega)]
  bytes offset os hos k hk := by
    rw [hinit]
    rcases Nat.lt_or_ge k (cs.length * size) with hlt | hge
    · exact h.bytes offset os (fun k hk => hos k (by omega)) k hlt
    · rw [h.frame offset os _ (by omega), hos k hk, byteOf_of_width_le (by omega)]

theorem widths_le (cs : List Constant) : AllOfType L (List.replicate cs.length elementType) cs →
    (∀ c ∈ cs, ∃ value, Agrees L atLandingpad c value) →
    widths L cs ≤ cs.length * L.getTypeSizeInBits elementType := by
  induction cs with
  | nil => exact fun _ _ => Nat.zero_le _
  | cons c cs ih =>
    rintro ⟨htype, -, htypes⟩ hagree
    obtain ⟨value, hvalue⟩ := hagree c List.mem_cons_self
    have hfirst : width L c ≤ L.getTypeSizeInBits elementType := by
      rw [← hvalue.width, ← htype]
      exact hvalue.width_le
    have hrest := ih htypes fun c hc => hagree c (List.mem_cons_of_mem _ hc)
    rw [widths, List.length_cons, Nat.add_mul, Nat.one_mul]
    omega

theorem size_eq_of_dense {c : Constant} (htypes : AllOfType L (List.replicate (c :: cs).length elementType) (c :: cs))
    (hagree : ∃ value, Agrees L atLandingpad c value)
    (hdense : AllDense L atLandingpad (some (L.getTypeStoreSize elementType * 8)) (c :: cs)) (hcs : cs ≠ []) :
    L.getTypeSizeInBits elementType = L.getTypeStoreSize elementType * 8 := by
  obtain ⟨htype, -, -⟩ := htypes
  obtain ⟨-, hfull, -⟩ := hdense
  obtain ⟨value, hvalue⟩ := hagree
  have hwidth := hfull hcs _ rfl
  have hle := hvalue.width_le
  have hstore := L.size_le_store elementType
  rw [hvalue.width, hwidth, htype] at hle
  omega

theorem length_mul_store_le (hL : L.Standard) (htypes : AllOfType L (List.replicate cs.length elementType) cs)
    (hagree : ∀ c ∈ cs, ∃ value, Agrees L atLandingpad c value)
    (hdense : AllDense L atLandingpad (some (L.getTypeStoreSize elementType * 8)) cs) :
    cs.length * L.getTypeStoreSize elementType ≤ L.getTypeStoreSize (.vector cs.length elementType) := by
  have hsize := hL.size_vector cs.length elementType
  cases cs with
  | nil => rw [List.length_nil, Nat.zero_mul]; exact Nat.zero_le _
  | cons c cs =>
    by_cases hcs : cs = []
    · subst hcs
      rw [List.length_singleton, Nat.one_mul] at hsize
      rw [List.length_singleton, Nat.one_mul, DataLayout.getTypeStoreSize, DataLayout.getTypeStoreSize, hsize]
    · have helement := size_eq_of_dense htypes (hagree c List.mem_cons_self) hdense hcs
      rw [helement, ← Nat.mul_assoc] at hsize
      have hstore := L.size_le_store (.vector (c :: cs).length elementType)
      omega

theorem agrees_array (hcs : cs ≠ []) (htypes : AllOfType L (List.replicate cs.length elementType) cs)
    (hdense : AllDense L atLandingpad (some (L.getTypeStoreSize elementType * 8)) cs)
    (hagree : ∀ c ∈ cs, ∃ value, Agrees L atLandingpad c value) :
    ∃ value, Agrees L atLandingpad (.array elementType cs) value := by
  obtain ⟨kids, value, helements⟩ := elementsAgree cs hcs htypes hdense hagree
  have hsize : L.getTypeSizeInBits (.array cs.length elementType) = cs.length * L.getTypeAllocSize elementType * 8 :=
    L.size_array cs.length elementType
  have hstore := L.size_le_store (.array cs.length elementType)
  have hdistance := Nat.mul_le_mul_left cs.length (L.store_le_alloc elementType)
  have helement := Nat.mul_le_mul_left cs.length (L.size_le_store elementType)
  have hwidth := helements.width.trans_le (widths_le cs htypes hagree)
  rw [← Nat.mul_assoc] at helement
  refine ⟨value, agrees_sequence helements rfl (fun _ _ => rfl) rfl ?_ (by omega) ?_⟩
  · change _ ≤ L.getTypeStoreSize (.array cs.length elementType)
    omega
  · change _ ≤ L.getTypeSizeInBits (.array cs.length elementType)
    omega

theorem agrees_vector (hL : L.Standard) (hcs : cs ≠ [])
    (htypes : AllOfType L (List.replicate cs.length elementType) cs)
    (hdense : AllDense L atLandingpad (some (L.getTypeStoreSize elementType * 8)) cs)
    (hagree : ∀ c ∈ cs, ∃ value, Agrees L atLandingpad c value) :
    ∃ value, Agrees L atLandingpad (.vector elementType cs) value := by
  obtain ⟨kids, value, helements⟩ := elementsAgree cs hcs htypes hdense hagree
  have helement := Nat.mul_le_mul_left cs.length (L.size_le_store elementType)
  have hwidth := helements.width.trans_le (widths_le cs htypes hagree)
  rw [← Nat.mul_assoc] at helement
  refine ⟨value, agrees_sequence helements rfl (fun _ _ => rfl) rfl
    (length_mul_store_le hL htypes hagree hdense) (by omega) ?_⟩
  change _ ≤ L.getTypeSizeInBits (.vector cs.length elementType)
  rw [hL.size_vector]
  exact hwidth

end Sequences

mutual

/-- The value and the initialisation agree on a dense constant, by induction on it. -/
theorem agrees (hL : L.Standard) : ∀ c : Constant, WellFormed L c → Dense L atLandingpad c →
    ∃ value, Agrees L atLandingpad c value
  | .scalar _ value, hc, _ => ⟨value, agrees_scalar hc⟩
  | .undef _, _, hd => ⟨_, agrees_undef hd⟩
  | .aggregateZero _, _, hd => ⟨_, agrees_aggregateZero hd⟩
  | .array _ elements, ⟨hne, htypes⟩, hd => agrees_array hne htypes hd (agrees_mem hL elements _ _ htypes hd)
  | .vector _ elements, ⟨hne, htypes⟩, hd => agrees_vector hL hne htypes hd (agrees_mem hL elements _ _ htypes hd)
  | .struct packed fieldTypes fields, ⟨hne, htypes⟩, hd => by
    obtain ⟨kids, value, hfields⟩ : ∃ kids value, FieldsAgree L atLandingpad packed fieldTypes 0 fields kids value :=
      fieldsAgree fields 0 hne htypes (agrees_mem hL fields _ _ htypes hd)
    exact ⟨value, agrees_struct (hL.offset_zero packed fieldTypes) hfields⟩
termination_by structural c => c

theorem agrees_mem (hL : L.Standard) : ∀ (cs : List Constant) (types : List LLVMType) (elementWidth : Option Nat),
    AllOfType L types cs → AllDense L atLandingpad elementWidth cs →
    ∀ c ∈ cs, ∃ value, Agrees L atLandingpad c value
  | c :: cs, _ :: types, elementWidth, ⟨_, hc, htypes⟩, ⟨hd, _, hds⟩, c', hmem => by
    rcases List.mem_cons.mp hmem with heq | hrest
    · exact heq ▸ agrees hL c hc hd
    · exact agrees_mem hL cs types elementWidth htypes hds c' hrest
termination_by structural cs => cs

end

/-- Every object starts with zeros. -/
def zeros : Contents := fun _ => 0#8

/-- The value of a constant has the width of its type, and the value written at an offset gives the bytes that a global
initialised with the constant has there. -/
def HasLayout (L : DataLayout) (atLandingpad : Bool) (c : Constant) : Prop :=
  ∃ value, evalConstant L atLandingpad c = some value ∧ value.width = L.getTypeSizeInBits c.type ∧
    ∀ offset os, ∀ k < L.getTypeStoreSize c.type,
      write offset (value.zextOrTrunc (L.getTypeStoreSize c.type * 8)) os (offset + k) =
        initializeGlobalObject L offset c zeros (offset + k)

/-- A dense constant has the layout of its type exactly if its value has the width of the type. -/
theorem constant_layout_iff (L : DataLayout) (hL : L.Standard) (atLandingpad : Bool) (c : Constant)
    (hc : WellFormed L c) (hd : Dense L atLandingpad c) :
    HasLayout L atLandingpad c ↔ width L c = L.getTypeSizeInBits c.type := by
  obtain ⟨value, h⟩ := agrees hL c hc hd
  constructor
  · rintro ⟨value', heval, hwidth, -⟩
    obtain rfl := Option.some.inj (h.eval.symm.trans heval)
    exact h.width.symm.trans hwidth
  · intro hwidth
    have hbytes : L.getTypeStoreSize c.type * 8 / 8 = L.getTypeStoreSize c.type := Nat.mul_div_cancel _ (by decide)
    have hstore := L.size_le_store c.type
    have hle := h.width_le
    refine ⟨value, h.eval, h.width.trans hwidth, fun offset os k hk => ?_⟩
    rw [h.bytes offset zeros (fun _ _ => rfl) k hk, write, APInt.width_zextOrTrunc, hbytes, if_pos (by omega),
      Nat.add_sub_cancel_left, byteOf_zext (by omega)]

/-- A struct with padding, and an array inside. -/
def padded : Constant :=
  .struct false [.integer 8, .integer 32, .array 2 (.integer 16)]
    [.scalar (.integer 8) (.ofNat 8 7), .scalar (.integer 32) (.ofNat 32 1000),
      .array (.integer 16) [.scalar (.integer 16) (.ofNat 16 300), .scalar (.integer 16) (.ofNat 16 5)]]

theorem hasLayout_padded : HasLayout x86_64 false padded :=
  (constant_layout_iff x86_64 x86_64_standard false padded
    ⟨by simp, rfl, rfl, rfl, rfl, rfl, ⟨by simp, rfl, rfl, rfl, rfl, trivial⟩, trivial⟩
    ⟨trivial, by simp, trivial, by simp, ⟨trivial, by simp; rfl, trivial, by simp, trivial⟩, by simp,
      trivial⟩).mpr rfl

def narrowArray : Constant :=
  .array (.integer 24) [.scalar (.integer 24) (.ofNat 24 1), .scalar (.integer 24) (.ofNat 24 2)]

def bitVector : Constant :=
  .vector (.integer 1) [.scalar (.integer 1) (.ofNat 1 1), .scalar (.integer 1) (.ofNat 1 1)]

/-- The value of the array lacks the padding of the elements; of the two bits the value has both in the first byte, and
the initialisation one. -/
theorem hasLayout_narrow :
    (WellFormed x86_64 narrowArray ∧ 0 < x86_64.getTypeSizeInBits narrowArray.type ∧
      ¬ HasLayout x86_64 false narrowArray) ∧
      WellFormed x86_64 bitVector ∧ 0 < x86_64.getTypeSizeInBits bitVector.type ∧ ¬ HasLayout x86_64 false bitVector := by
  refine ⟨⟨⟨by simp, rfl, rfl, rfl, rfl, trivial⟩, by decide, ?_⟩, ⟨by simp, rfl, rfl, rfl, rfl, trivial⟩,
    by decide, ?_⟩
  · rintro ⟨value, heval, hwidth, -⟩
    have hvalue : evalConstant x86_64 false narrowArray = some ⟨48, 0x2000001#48⟩ := by decide
    obtain rfl := Option.some.inj (hvalue.symm.trans heval)
    exact absurd hwidth (by decide)
  · rintro ⟨value, heval, -, hbytes⟩
    have hvalue : evalConstant x86_64 false bitVector = some ⟨2, 3#2⟩ := by decide
    obtain rfl := Option.some.inj (hvalue.symm.trans heval)
    exact absurd (hbytes 0 zeros 0 (by decide)) (by decide)

end ConstantLayout

end CgsKlee
