import CgsKlee.Core.LLVMType
import CgsKlee.Expr.Create

/-!
# Addresses of elements

A `getelementptr` walks over a type with a list of indices.  The instruction with constant indices prepares its offset
in `computeOffsets`, by an iterator of this repository, and scales the index of a sequence by the store size of the
element type.  For the constant expression `evalConstantExpr` walks with the iterator of LLVM and scales by the
allocation size.  The two addresses differ by the padding that the indices step over: `addresses_agree_iff`.
-/

namespace CgsKlee

namespace GetElementPtr

variable (L : DataLayout)

def createPointer (n : Nat) : APInt := .ofNat L.pointerWidth n

def add : APInt → APInt → APInt := APInt.map₂ BinaryKind.add.apply

def mul : APInt → APInt → APInt := APInt.map₂ BinaryKind.mul.apply

/-- `generic_gep_type_iterator::operator++`: the type that an index leads to. -/
def nextType : LLVMType → APInt → Option LLVMType
  | .struct _ fields, index => fields[index.toNat % 2 ^ 32]?
  | .array _ elementType, _ => some elementType
  | .vector _ elementType, _ => some elementType
  | .pointer elementType, _ => some elementType
  | _, _ => none

def computeOffsetsSeqTy (elementType : LLVMType) (constantOffset index : APInt) : APInt :=
  let elementSize := L.getTypeStoreSize elementType
  let addend := mul (index.sextOrTrunc L.pointerWidth) (createPointer L elementSize)
  add constantOffset addend

/-- `Executor::computeOffsets` from a type and an offset on; it fails on a type without elements. -/
def computeOffsets : Option LLVMType → List APInt → APInt → Option APInt
  | _, [], constantOffset => some constantOffset
  | none, _ :: _, _ => none
  | some type, index :: indices, constantOffset =>
    match type with
    | .struct packed fields =>
      let addend := L.getElementOffset packed fields (index.toNat % 2 ^ 32)
      computeOffsets (nextType type index) indices (add constantOffset (createPointer L addend))
    | .array _ elementType | .vector _ elementType | .pointer elementType =>
      computeOffsets (nextType type index) indices (computeOffsetsSeqTy L elementType constantOffset index)
    | _ => none

/-- The instruction: the offset is prepared once, and added to the base when it is executed. -/
def executeInstruction (constArrayOpt : Bool) (elementType : LLVMType) (base : Expr) (indices : List APInt) :
    Option Expr := do
  let offset ← computeOffsets L (some (.pointer elementType)) indices (createPointer L 0)
  if offset.toNat ≠ 0 then AddExpr.create constArrayOpt base (.constant (createPointer L offset.toNat)) else some base

inductive Indexed
  | struct (isPacked : Bool) (fields : List LLVMType)
  | sequential (elementType : LLVMType)

def Indexed.getIndexedType : Indexed → APInt → Option LLVMType
  | .struct _ fields, index => fields[index.toNat % 2 ^ 32]?
  | .sequential elementType, _ => some elementType

def Indexed.inside : LLVMType → Option Indexed
  | .struct packed fields => some (.struct packed fields)
  | .array _ elementType => some (.sequential elementType)
  | .vector _ elementType => some (.sequential elementType)
  | _ => none

/-- The walk of `Executor::evalConstantExpr`. -/
def addIndices : Option Indexed → List APInt → APInt → Option APInt
  | _, [], base => some base
  | none, _ :: _, _ => none
  | some type, index :: indices, base =>
    addIndices ((type.getIndexedType index).bind Indexed.inside) indices <|
      if index.toNat = 0 then base
      else
        match type with
        | .struct packed fields =>
          add base (createPointer L (L.getElementOffset packed fields (index.toNat % 2 ^ 32)))
        | .sequential elementType =>
          add base (mul (index.sextOrTrunc L.pointerWidth) (createPointer L (L.getTypeAllocSize elementType)))

def evalConstantExpr (elementType : LLVMType) (base : APInt) (indices : List APInt) : Option APInt :=
  addIndices L (some (.sequential elementType)) indices (base.zextOrTrunc L.pointerWidth)

/-- Indices that the verifier accepts inside a type: a field is named by a constant of 32 bits. -/
def IndexesInto : LLVMType → List APInt → Prop
  | _, [] => True
  | .struct _ fields, index :: indices =>
    index.width = 32 ∧ ∃ field, fields[index.toNat]? = some field ∧ IndexesInto field indices
  | .array _ elementType, _ :: indices => IndexesInto elementType indices
  | .vector _ elementType, _ :: indices => IndexesInto elementType indices
  | _, _ :: _ => False

/-- Indices that it accepts: the first one counts values of the type pointed to. -/
def Verified (elementType : LLVMType) (indices : List APInt) : Prop := IndexesInto elementType indices.tail

/-- The padding behind the elements of a sequence that an index steps over. -/
def skippedPadding (elementType : LLVMType) (index : APInt) : BitVec L.pointerWidth :=
  index.value.signExtend L.pointerWidth *
    BitVec.ofNat L.pointerWidth (L.getTypeAllocSize elementType - L.getTypeStoreSize elementType)

def paddingDistance : Option Indexed → List APInt → BitVec L.pointerWidth
  | _, [] => 0
  | none, _ :: _ => 0
  | some (.struct packed fields), index :: indices =>
    paddingDistance (((Indexed.struct packed fields).getIndexedType index).bind Indexed.inside) indices
  | some (.sequential elementType), index :: indices =>
    skippedPadding L elementType index + paddingDistance (Indexed.inside elementType) indices

variable {L}

@[simp] theorem add_mk {w : Nat} (x y : BitVec w) : add ⟨w, x⟩ ⟨w, y⟩ = ⟨w, x + y⟩ := APInt.map₂_mk _ x y

@[simp] theorem mul_mk {w : Nat} (x y : BitVec w) : mul ⟨w, x⟩ ⟨w, y⟩ = ⟨w, x * y⟩ := APInt.map₂_mk _ x y

theorem scale_alloc (elementType : LLVMType) (index : APInt) :
    index.value.signExtend L.pointerWidth * BitVec.ofNat L.pointerWidth (L.getTypeAllocSize elementType) =
      index.value.signExtend L.pointerWidth * BitVec.ofNat L.pointerWidth (L.getTypeStoreSize elementType) +
        skippedPadding L elementType index := by
  have hsplit : L.getTypeAllocSize elementType = L.getTypeStoreSize elementType +
      (L.getTypeAllocSize elementType - L.getTypeStoreSize elementType) :=
    (Nat.add_sub_cancel' (L.store_le_alloc elementType)).symm
  rw [skippedPadding, ← BitVec.mul_add, ← BitVec.ofNat_add, ← hsplit]

theorem signExtend_of_toNat {index : APInt} (h : index.toNat = 0) (w : Nat) : index.value.signExtend w = 0#w := by
  have hzero : index.value = BitVec.ofNat index.width 0 :=
    BitVec.eq_of_toNat_eq (h.trans ((BitVec.toNat_ofNat 0 index.width).trans (Nat.zero_mod _)).symm)
  rw [hzero, BitVec.signExtend_eq_setWidth_of_msb_false BitVec.msb_zero, BitVec.setWidth_zero]

theorem sequential_step (elementType : LLVMType) (index : APInt) (constantOffset base : BitVec L.pointerWidth) :
    computeOffsetsSeqTy L elementType ⟨_, constantOffset⟩ index =
        ⟨_, constantOffset + index.value.signExtend L.pointerWidth *
          BitVec.ofNat L.pointerWidth (L.getTypeStoreSize elementType)⟩ ∧
      (if index.toNat = 0 then ⟨_, base⟩
        else add ⟨_, base⟩ (mul (index.sextOrTrunc L.pointerWidth) (createPointer L (L.getTypeAllocSize elementType)))) =
        (⟨_, base + (index.value.signExtend L.pointerWidth *
          BitVec.ofNat L.pointerWidth (L.getTypeStoreSize elementType) + skippedPadding L elementType index)⟩ : APInt) := by
  constructor
  · simp only [computeOffsetsSeqTy, createPointer, APInt.ofNat, APInt.sextOrTrunc, mul_mk, add_mk]
  · rw [← scale_alloc]
    split
    next hzero =>
      rw [signExtend_of_toNat hzero, BitVec.zero_mul, BitVec.add_zero]
    next => simp only [createPointer, APInt.ofNat, APInt.sextOrTrunc, mul_mk, add_mk]

theorem struct_step (hzero : ∀ packed fields, L.getElementOffset packed fields 0 = 0) (packed : Bool)
    (fields : List LLVMType) (index : APInt) (base : BitVec L.pointerWidth) :
    (if index.toNat = 0 then ⟨_, base⟩
      else add ⟨_, base⟩ (createPointer L (L.getElementOffset packed fields (index.toNat % 2 ^ 32)))) =
      (⟨_, base + BitVec.ofNat _ (L.getElementOffset packed fields (index.toNat % 2 ^ 32))⟩ : APInt) := by
  split
  next h => rw [h, Nat.zero_mod, hzero, BitVec.add_zero]
  next => rw [createPointer, APInt.ofNat, add_mk]

theorem addIndices_isSome (indices : List APInt) : ∀ type, IndexesInto type indices → ∀ base,
    ∃ address, addIndices L (Indexed.inside type) indices base = some address := by
  induction indices with
  | nil =>
    intro type _ base
    exact ⟨base, rfl⟩
  | cons index indices ih =>
    intro type h base
    cases type with
    | integer | float | pointer => exact h.elim
    | struct packed fields =>
      obtain ⟨hwidth, field, hfield, hrest⟩ := h
      have hindex : index.toNat % 2 ^ 32 = index.toNat := Nat.mod_eq_of_lt (hwidth ▸ index.toNat_lt)
      obtain ⟨address, haddress⟩ := ih field hrest _
      refine ⟨address, ?_⟩
      change addIndices L (fields[index.toNat % 2 ^ 32]?.bind Indexed.inside) indices _ = _
      rw [hindex, hfield]
      exact haddress
    | array n elementType => exact ih elementType h _
    | vector n elementType => exact ih elementType h _

variable {elementType : LLVMType} {indices : List APInt}

theorem evalConstantExpr_isSome (h : Verified elementType indices)
    (base : APInt) : ∃ address, evalConstantExpr L elementType base indices = some address := by
  cases indices with
  | nil => exact ⟨_, rfl⟩
  | cons index indices => exact addIndices_isSome indices elementType h _

/-- From two positions the walks move by the same distance and the padding. -/
def WalksDiffer (L : DataLayout) (type : LLVMType) (position : Option Indexed) (indices : List APInt) : Prop :=
  ∀ constantOffset base : BitVec L.pointerWidth, ∃ distance : BitVec L.pointerWidth,
    computeOffsets L (some type) indices ⟨_, constantOffset⟩ = some ⟨_, constantOffset + distance⟩ ∧
    addIndices L position indices ⟨_, base⟩ = some ⟨_, base + (distance + paddingDistance L position indices)⟩

theorem WalksDiffer.nil (type : LLVMType) (position : Option Indexed) : WalksDiffer L type position [] := by
  intro constantOffset base
  refine ⟨0#L.pointerWidth, ?_, ?_⟩
  · rw [BitVec.add_zero]
    rfl
  · rw [show paddingDistance L position [] = 0#L.pointerWidth from rfl, BitVec.add_zero, BitVec.add_zero]
    rfl

theorem WalksDiffer.sequential {type : LLVMType} {index : APInt}
    (htype : ∀ constantOffset, computeOffsets L (some type) (index :: indices) constantOffset =
      computeOffsets L (some elementType) indices (computeOffsetsSeqTy L elementType constantOffset index))
    (h : WalksDiffer L elementType (Indexed.inside elementType) indices) :
    WalksDiffer L type (some (.sequential elementType)) (index :: indices) := by
  intro constantOffset base
  obtain ⟨hinstruction, hconstant⟩ := sequential_step elementType index constantOffset base
  obtain ⟨distance, hoffsets, hindices⟩ := h _ _
  refine ⟨index.value.signExtend L.pointerWidth *
    BitVec.ofNat L.pointerWidth (L.getTypeStoreSize elementType) + distance, ?_, ?_⟩
  · rw [htype, hinstruction, hoffsets, BitVec.add_assoc]
  · have hstep := (congrArg (addIndices L (Indexed.inside elementType) indices) hconstant).trans hindices
    refine hstep.trans (congrArg (fun x => some (APInt.mk _ x)) ?_)
    change _ = base + (_ + (skippedPadding L elementType index + _))
    ring

theorem WalksDiffer.struct (hzero : ∀ packed fields, L.getElementOffset packed fields 0 = 0) {packed : Bool}
    {fields : List LLVMType} {field : LLVMType} {index : APInt}
    (hfield : fields[index.toNat % 2 ^ 32]? = some field)
    (h : WalksDiffer L field (Indexed.inside field) indices) :
    WalksDiffer L (.struct packed fields) (some (.struct packed fields)) (index :: indices) := by
  intro constantOffset base
  obtain ⟨distance, hoffsets, hindices⟩ := h _ _
  refine ⟨BitVec.ofNat _ (L.getElementOffset packed fields (index.toNat % 2 ^ 32)) + distance, ?_, ?_⟩
  · rw [computeOffsets, nextType, hfield, createPointer, APInt.ofNat, add_mk, hoffsets, BitVec.add_assoc]
  · rw [addIndices, Indexed.getIndexedType, hfield]
    rw [struct_step hzero, Option.bind_some, hindices, paddingDistance, Indexed.getIndexedType, hfield,
      Option.bind_some]
    congr 2
    ring

theorem walks_differ (hzero : ∀ packed fields, L.getElementOffset packed fields 0 = 0) (indices : List APInt) :
    ∀ type, IndexesInto type indices → WalksDiffer L type (Indexed.inside type) indices := by
  induction indices with
  | nil => exact fun type _ => .nil type _
  | cons index indices ih =>
    intro type h
    cases type with
    | integer | float | pointer => exact h.elim
    | struct packed fields =>
      obtain ⟨hwidth, field, hfield, hrest⟩ := h
      have hindex : index.toNat % 2 ^ 32 = index.toNat := Nat.mod_eq_of_lt (hwidth ▸ index.toNat_lt)
      exact .struct hzero (hindex.symm ▸ hfield) (ih field hrest)
    | array n elementType => exact .sequential (fun _ => rfl) (ih elementType h)
    | vector n elementType => exact .sequential (fun _ => rfl) (ih elementType h)

theorem walks_differ_pointer (hzero : ∀ packed fields, L.getElementOffset packed fields 0 = 0) (h : Verified elementType indices) :
    WalksDiffer L (.pointer elementType) (some (.sequential elementType)) indices := by
  cases indices with
  | nil => exact .nil _ _
  | cons index indices => exact .sequential (fun _ => rfl) (walks_differ hzero indices elementType h)

theorem executeInstruction_of_offset {constArrayOpt : Bool}
    {base offset : BitVec L.pointerWidth}
    (h : computeOffsets L (some (.pointer elementType)) indices (createPointer L 0) = some ⟨_, offset⟩) :
    executeInstruction L constArrayOpt elementType (.constant ⟨_, base⟩) indices =
      some (.constant ⟨_, base + offset⟩) := by
  rw [executeInstruction, h, Option.bind_eq_bind, Option.bind_some]
  split
  next =>
    have hwidth : (Expr.constant ⟨L.pointerWidth, base⟩).width =
        (Expr.constant (createPointer L (APInt.mk _ offset).toNat)).width := rfl
    rw [AddExpr.create, if_pos hwidth]
    simp only [createPointer, APInt.ofNat, APInt.toNat, BitVec.ofNat_toNat, BitVec.setWidth_eq, APInt.map₂_mk]
    rfl
  next hoffset =>
    have hzero : offset = 0#L.pointerWidth := BitVec.eq_of_toNat_eq (by simpa [APInt.toNat] using hoffset)
    rw [hzero, BitVec.add_zero]

theorem add_distance_inj {w : Nat} (base distance padding : BitVec w) :
    APInt.mk w (base + distance) = ⟨w, base + (distance + padding)⟩ ↔ padding = 0 := by
  constructor
  · intro h
    have hvalue : base + distance = base + (distance + padding) := by injection h
    rw [← BitVec.add_assoc] at hvalue
    exact left_eq_add.mp hvalue
  · intro h
    rw [h]
    exact congrArg (APInt.mk w) (congrArg (base + ·) (BitVec.add_zero distance).symm)

/-- For a constant base and constant indices that the verifier accepts both addresses exist, and they are equal
exactly if the indices step over no padding in total. -/
theorem addresses_agree_iff (hzero : ∀ packed fields, L.getElementOffset packed fields 0 = 0) (constArrayOpt : Bool)
    (elementType : LLVMType) (base : APInt) (hbase : base.width = L.pointerWidth) (indices : List APInt)
    (hverified : Verified elementType indices) :
    ∃ address address' : APInt,
      executeInstruction L constArrayOpt elementType (.constant base) indices = some (.constant address) ∧
      evalConstantExpr L elementType base indices = some address' ∧
      (address = address' ↔ paddingDistance L (some (.sequential elementType)) indices = 0) := by
  obtain ⟨base, rfl⟩ := APInt.exists_value hbase
  obtain ⟨distance, hoffsets, hindices⟩ := walks_differ_pointer hzero hverified 0#L.pointerWidth base
  rw [BitVec.zero_add] at hoffsets
  refine ⟨_, _, executeInstruction_of_offset hoffsets, ?_, add_distance_inj base distance _⟩
  rw [evalConstantExpr, APInt.zextOrTrunc_self]
  exact hindices

/-- One `long double` behind another. -/
theorem addresses_agree_iff_longDouble : ∃ address address' : APInt,
    executeInstruction x86_64 false (.float .x86_fp80) (.constant (.ofNat 64 4096)) [.ofNat 64 1] =
      some (.constant address) ∧
    evalConstantExpr x86_64 (.float .x86_fp80) (.ofNat 64 4096) [.ofNat 64 1] = some address' ∧
    (address = address' ↔ paddingDistance x86_64 (some (.sequential (.float .x86_fp80))) [.ofNat 64 1] = 0) :=
  addresses_agree_iff x86_64_offset_zero false (.float .x86_fp80) (.ofNat 64 4096) rfl [.ofNat 64 1] trivial

/-- The instruction moves by the ten bytes of a `long double`, the constant expression by sixteen. -/
theorem addresses_of_longDouble : Verified (.float .x86_fp80) [.ofNat 64 1] ∧
    executeInstruction x86_64 false (.float .x86_fp80) (.constant (.ofNat 64 4096)) [.ofNat 64 1] =
      some (.constant (.ofNat 64 4106)) ∧
    evalConstantExpr x86_64 (.float .x86_fp80) (.ofNat 64 4096) [.ofNat 64 1] = some (.ofNat 64 4112) ∧
    APInt.ofNat 64 4106 ≠ .ofNat 64 4112 := by
  refine ⟨trivial, ?_, by decide, by decide⟩
  have hoffset : computeOffsets x86_64 (some (.pointer (.float .x86_fp80))) [.ofNat 64 1] (createPointer x86_64 0) =
      some (.ofNat 64 10) := by decide
  exact executeInstruction_of_offset hoffset

end GetElementPtr

end CgsKlee
