import CgsKlee.Lib.APInt
import Mathlib.Order.Basic
import Mathlib.Tactic.Ring

/-!
# Types and their layout

The first-class types of LLVM with what its `DataLayout` says of them: sizes in bits, alignments, and the offsets of
the fields of structs.  A layout keeps the elements of an array apart at the distance of their allocation size, and
the fields of a struct one behind the other.  `x86_64` is the layout of that target.
-/

namespace CgsKlee

inductive FloatKind
  | half | float | double | x86_fp80 | fp128
  deriving DecidableEq, Repr

inductive LLVMType
  | integer (width : Nat)
  | float (kind : FloatKind)
  | pointer (elementType : LLVMType)
  | struct (isPacked : Bool) (fields : List LLVMType)
  | array (numElements : Nat) (elementType : LLVMType)
  | vector (numElements : Nat) (elementType : LLVMType)

/-- The next multiple: `llvm::alignTo` without overflow. -/
def roundUp (n align : Nat) : Nat := (n + align - 1) / align * align

theorem le_roundUp (n : Nat) {align : Nat} (h : 0 < align) : n ≤ roundUp n align := by
  unfold roundUp
  have hdiv := Nat.div_add_mod (n + align - 1) align
  have hmod := Nat.mod_lt (n + align - 1) h
  rw [Nat.mul_comm] at hdiv
  omega

theorem roundUp_zero (align : Nat) : roundUp 0 align = 0 := by
  cases align with
  | zero => rfl
  | succ align => exact (congrArg (· * (align + 1)) (Nat.div_eq_of_lt (by omega))).trans (Nat.zero_mul _)

def bytesFor (bits : Nat) : Nat := (bits + 7) / 8

/-- `llvm::DataLayout`, as far as it is asked, with what its documentation says of the results. -/
structure DataLayout where
  pointerWidth : Nat
  getTypeSizeInBits : LLVMType → Nat
  getABITypeAlignment : LLVMType → Nat
  /-- `StructLayout::getElementOffset`, of the fields of a struct. -/
  getElementOffset : Bool → List LLVMType → Nat → Nat
  pointerWidth_eq : pointerWidth = 32 ∨ pointerWidth = 64
  alignment_pos : ∀ type, 0 < getABITypeAlignment type
  size_array : ∀ n type, getTypeSizeInBits (.array n type) =
    n * roundUp (bytesFor (getTypeSizeInBits type)) (getABITypeAlignment type) * 8
  /-- Fields lie one behind the other. -/
  offset_lt : ∀ packed fields i j field, i < j → j < fields.length → fields[i]? = some field →
    getElementOffset packed fields i * 8 + getTypeSizeInBits field ≤ getElementOffset packed fields j * 8
  /-- They lie inside the struct. -/
  offset_le : ∀ packed fields i field, fields[i]? = some field →
    getElementOffset packed fields i * 8 + getTypeSizeInBits field ≤ getTypeSizeInBits (.struct packed fields)

namespace DataLayout

variable (L : DataLayout)

def getTypeStoreSize (type : LLVMType) : Nat := bytesFor (L.getTypeSizeInBits type)

def getTypeAllocSize (type : LLVMType) : Nat := roundUp (L.getTypeStoreSize type) (L.getABITypeAlignment type)

theorem size_le_store (type : LLVMType) : L.getTypeSizeInBits type ≤ L.getTypeStoreSize type * 8 := by
  unfold getTypeStoreSize bytesFor
  omega

theorem store_le_alloc (type : LLVMType) : L.getTypeStoreSize type ≤ L.getTypeAllocSize type :=
  le_roundUp _ (L.alignment_pos type)

/-- What is documented besides: the first field lies at the beginning, and the elements of a vector are packed. -/
structure Standard : Prop where
  offset_zero : ∀ packed fields, L.getElementOffset packed fields 0 = 0
  size_vector : ∀ n type, L.getTypeSizeInBits (.vector n type) = n * L.getTypeSizeInBits type

end DataLayout

/-- The size of a number in bits and its alignment in bytes. -/
def FloatKind.layout : FloatKind → Nat × Nat
  | .half => (16, 2)
  | .float => (32, 4)
  | .double => (64, 8)
  | .x86_fp80 => (80, 16)
  | .fp128 => (128, 16)

/-- The alignment of an integer: that of the next larger integer with one of its own. -/
def integerAlignment (width : Nat) : Nat :=
  if width ≤ 8 then 1 else if width ≤ 16 then 2 else if width ≤ 32 then 4 else 8

def powerOf2Ceil (n : Nat) : Nat := 2 ^ (if 2 ^ n.log2 = n then n.log2 else n.log2 + 1)

mutual

/-- The size of a type in bits and its alignment in bytes. -/
def LLVMType.layout : LLVMType → Nat × Nat
  | .integer width => (width, integerAlignment width)
  | .float kind => kind.layout
  | .pointer _ => (64, 8)
  | .struct packed fields =>
    let (size, align) := LLVMType.fieldsLayout packed fields 0 1
    (roundUp size align * 8, align)
  | .array n type => (n * roundUp (bytesFor type.layout.1) type.layout.2 * 8, type.layout.2)
  | .vector n type => (n * type.layout.1, powerOf2Ceil (bytesFor (n * type.layout.1)))

/-- The end of the fields from an offset on, and the largest alignment. -/
def LLVMType.fieldsLayout (packed : Bool) : List LLVMType → Nat → Nat → Nat × Nat
  | [], offset, align => (offset, align)
  | field :: fields, offset, align =>
    let fieldAlign := if packed then 1 else field.layout.2
    LLVMType.fieldsLayout packed fields
      (roundUp offset fieldAlign + roundUp (bytesFor field.layout.1) field.layout.2) (max align fieldAlign)

end

def LLVMType.fieldOffset (packed : Bool) : List LLVMType → Nat → Nat → Nat
  | [], offset, _ => offset
  | field :: fields, offset, i =>
    let fieldOffset := roundUp offset (if packed then 1 else field.layout.2)
    match i with
    | 0 => fieldOffset
    | i + 1 => LLVMType.fieldOffset packed fields (fieldOffset + roundUp (bytesFor field.layout.1) field.layout.2) i

theorem powerOf2Ceil_pos (n : Nat) : 0 < powerOf2Ceil n := Nat.two_pow_pos _

theorem integerAlignment_pos (width : Nat) : 0 < integerAlignment width := by
  unfold integerAlignment
  split
  · decide
  · split
    · decide
    · split <;> decide

mutual

theorem LLVMType.layout_pos : ∀ type : LLVMType, 0 < type.layout.2
  | .integer width => integerAlignment_pos width
  | .float kind => by cases kind <;> decide
  | .pointer _ => Nat.succ_pos 7
  | .struct packed fields => LLVMType.fieldsLayout_pos packed fields 0 1 Nat.one_pos
  | .array _ type => type.layout_pos
  | .vector _ _ => powerOf2Ceil_pos _

theorem LLVMType.fieldsLayout_pos (packed : Bool) : ∀ (fields : List LLVMType) (offset align : Nat), 0 < align →
    0 < (LLVMType.fieldsLayout packed fields offset align).2
  | [], _, _, h => h
  | _ :: fields, _, _, h =>
    LLVMType.fieldsLayout_pos packed fields _ _ (Nat.lt_of_lt_of_le h (Nat.le_max_left _ _))

end

theorem LLVMType.fieldAlign_pos (packed : Bool) (field : LLVMType) :
    0 < (if packed then 1 else field.layout.2) := by
  split
  · exact Nat.one_pos
  · exact field.layout_pos

theorem LLVMType.le_fieldOffset (packed : Bool) : ∀ (fields : List LLVMType) (offset i : Nat),
    offset ≤ LLVMType.fieldOffset packed fields offset i
  | [], _, _ => Nat.le_refl _
  | field :: _, offset, 0 => le_roundUp offset (LLVMType.fieldAlign_pos packed field)
  | field :: fields, offset, i + 1 => by
    have hstart := le_roundUp offset (LLVMType.fieldAlign_pos packed field)
    have hrest := LLVMType.le_fieldOffset packed fields
      (roundUp offset (if packed then 1 else field.layout.2) + roundUp (bytesFor field.layout.1) field.layout.2) i
    refine Nat.le_trans ?_ hrest
    omega

theorem LLVMType.le_fieldsLayout (packed : Bool) : ∀ (fields : List LLVMType) (offset align : Nat),
    offset ≤ (LLVMType.fieldsLayout packed fields offset align).1
  | [], _, _ => Nat.le_refl _
  | field :: fields, offset, align => by
    have hstart := le_roundUp offset (LLVMType.fieldAlign_pos packed field)
    refine Nat.le_trans ?_ (LLVMType.le_fieldsLayout packed fields _ _)
    omega

theorem LLVMType.fieldOffset_le (packed : Bool) : ∀ (fields : List LLVMType) (offset align i : Nat) (field : LLVMType),
    fields[i]? = some field → LLVMType.fieldOffset packed fields offset i + bytesFor field.layout.1 ≤
      (LLVMType.fieldsLayout packed fields offset align).1
  | field :: fields, offset, align, 0, _, h => by
    cases h
    have halloc := le_roundUp (bytesFor field.layout.1) field.layout_pos
    exact (Nat.add_le_add_left halloc _).trans (LLVMType.le_fieldsLayout packed fields _ _)
  | _ :: fields, _, _, i + 1, field, h => LLVMType.fieldOffset_le packed fields _ _ i field h

theorem LLVMType.fieldOffset_lt (packed : Bool) : ∀ (fields : List LLVMType) (offset i j : Nat) (field : LLVMType),
    i < j → fields[i]? = some field → LLVMType.fieldOffset packed fields offset i + bytesFor field.layout.1 ≤
      LLVMType.fieldOffset packed fields offset j
  | field :: fields, offset, 0, j + 1, _, _, h => by
    cases h
    have halloc := le_roundUp (bytesFor field.layout.1) field.layout_pos
    exact (Nat.add_le_add_left halloc _).trans (LLVMType.le_fieldOffset packed fields _ j)
  | _ :: fields, _, i + 1, j + 1, field, hij, h =>
    LLVMType.fieldOffset_lt packed fields _ i j field (Nat.lt_of_succ_lt_succ hij) h

theorem bits_le_bytesFor (bits : Nat) : bits ≤ bytesFor bits * 8 := by
  unfold bytesFor
  omega

def x86_64 : DataLayout where
  pointerWidth := 64
  getTypeSizeInBits type := type.layout.1
  getABITypeAlignment type := type.layout.2
  getElementOffset packed fields i := LLVMType.fieldOffset packed fields 0 i
  pointerWidth_eq := .inr rfl
  alignment_pos := LLVMType.layout_pos
  size_array n type := by rw [LLVMType.layout]
  offset_lt packed fields i j field hij _ h := by
    have hbits := bits_le_bytesFor field.layout.1
    have hlt := LLVMType.fieldOffset_lt packed fields 0 i j field hij h
    omega
  offset_le packed fields i field h := by
    have hbits := bits_le_bytesFor field.layout.1
    have hle := LLVMType.fieldOffset_le packed fields 0 1 i field h
    have halign := le_roundUp (LLVMType.fieldsLayout packed fields 0 1).1
      (LLVMType.fieldsLayout_pos packed fields 0 1 Nat.one_pos)
    rw [LLVMType.layout]
    dsimp only
    omega

theorem x86_64_offset_zero (packed : Bool) (fields : List LLVMType) :
    x86_64.getElementOffset packed fields 0 = 0 := by
  cases fields with
  | nil => rfl
  | cons field fields => exact roundUp_zero _

theorem x86_64_standard : x86_64.Standard where
  offset_zero := x86_64_offset_zero
  size_vector _ _ := rfl

example : x86_64.getElementOffset false [.integer 8, .float .double, .integer 24] 2 = 16 := by decide
example : x86_64.getTypeAllocSize (.integer 24) = 4 := by decide

end CgsKlee
