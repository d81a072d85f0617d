import CgsKlee.Core.GetElementPtr
import CgsKlee.Expr.CreateSound

/-!
# Values of aggregates

`insertvalue` and `extractvalue` reach a field of a struct or an array by a path of indices.  The instructions prepare
the byte offset of the field in `computeOffsets` and then cut the value of the aggregate into extracts and put them
together by concatenations.  The two form a lawful accessor for the fields of non-zero width: `accessor_lawful`.  An
extract of no bits is refused by its constructor: `extractValue_of_empty`.
-/

namespace CgsKlee

namespace AggregateValue

/-- The indices of `insertvalue` and `extractvalue`. -/
abbrev Path := List (BitVec 32)

section Paths

variable (L : DataLayout)

def getTypeAtIndex : LLVMType → BitVec 32 → Option LLVMType
  | .struct _ fields, index => fields[index.toNat]?
  | .array n elementType, index => if index.toNat < n then some elementType else none
  | _, _ => none

def getIndexedType : LLVMType → Path → Option LLVMType
  | type, [] => some type
  | type, index :: path => (getTypeAtIndex type index).bind fun field => getIndexedType field path

/-- Where a field lies in an aggregate, in bytes. -/
def indexOffset : LLVMType → BitVec 32 → Nat
  | .struct packed fields, index => L.getElementOffset packed fields index.toNat
  | .array _ elementType, index => index.toNat * L.getTypeStoreSize elementType
  | _, _ => 0

/-- Where the field at the end of a path lies. -/
def pathOffset : LLVMType → Path → Nat
  | _, [] => 0
  | type, index :: path =>
    match getTypeAtIndex type index with
    | some field => indexOffset L type index + pathOffset field path
    | none => 0

/-- `generic_gep_type_iterator::asValue`: the indices as constants. -/
def asValues (path : Path) : List APInt := path.map (⟨32, ·⟩)

end Paths

section Instructions

variable (L : DataLayout)

/-- The offset that `bindInstructionConstants` prepares. -/
def offsetOf (type : LLVMType) (path : Path) : Option Nat :=
  (GetElementPtr.computeOffsets L (some type) (asValues path) (GetElementPtr.createPointer L 0)).map APInt.toNat

def getWidthForLLVMType (type : LLVMType) : Nat := L.getTypeSizeInBits type % 2 ^ 32

/-- `Executor::executeInstruction` (InsertValue). -/
def insertValue (type : LLVMType) (path : Path) (val agg : Expr) : Option Expr := do
  let offset ← offsetOf L type path
  let lOffset := offset * 8 % 2 ^ 32
  let rOffset := (offset * 8 + val.width) % 2 ^ 32
  if 0 < lOffset then
    let l ← ExtractExpr.create agg 0 lOffset
    if rOffset < agg.width then
      let r ← ExtractExpr.create agg rOffset (agg.width - rOffset)
      let vl ← ConcatExpr.create val l
      ConcatExpr.create r vl
    else ConcatExpr.create val l
  else if rOffset < agg.width then
    let r ← ExtractExpr.create agg rOffset (agg.width - rOffset)
    ConcatExpr.create r val
  else some val

/-- `Executor::executeInstruction` (ExtractValue). -/
def extractValue (type : LLVMType) (path : Path) (agg : Expr) : Option Expr := do
  let offset ← offsetOf L type path
  let field ← getIndexedType type path
  ExtractExpr.create agg (offset * 8 % 2 ^ 32) (getWidthForLLVMType L field)

end Instructions

section Offsets

variable {L : DataLayout} {type field field' : LLVMType} {index index' : BitVec 32} {p q : Path}

theorem getIndexedType_cons (h : getIndexedType type (index :: p) = some field) :
    ∃ inner, getTypeAtIndex type index = some inner ∧ getIndexedType inner p = some field :=
  Option.bind_eq_some_iff.mp h

theorem pathOffset_cons {inner : LLVMType} (h : getTypeAtIndex type index = some inner) :
    pathOffset L type (index :: p) = indexOffset L type index + pathOffset L inner p := by
  rw [pathOffset, h]

theorem indexOffset_le (h : getTypeAtIndex type index = some field) :
    indexOffset L type index * 8 + L.getTypeSizeInBits field ≤ L.getTypeSizeInBits type := by
  cases type with
  | integer | float | pointer | vector => cases h
  | struct packed fields => exact L.offset_le packed fields index.toNat field h
  | array n elementType =>
    obtain ⟨hindex, hfield⟩ := Option.ite_none_right_eq_some.mp h
    obtain rfl := Option.some.inj hfield
    have hstore := L.size_le_store elementType
    have hbefore : (index.toNat + 1) * L.getTypeStoreSize elementType ≤ n * L.getTypeAllocSize elementType :=
      Nat.mul_le_mul hindex (L.store_le_alloc elementType)
    have hsize : L.getTypeSizeInBits (.array n elementType) = n * L.getTypeAllocSize elementType * 8 :=
      L.size_array n elementType
    rw [Nat.add_mul, Nat.one_mul] at hbefore
    simp only [indexOffset]
    omega

theorem indexOffset_lt (h : getTypeAtIndex type index = some field) (h' : getTypeAtIndex type index' = some field')
    (hlt : index.toNat < index'.toNat) :
    indexOffset L type index * 8 + L.getTypeSizeInBits field ≤ indexOffset L type index' * 8 := by
  cases type with
  | integer | float | pointer | vector => cases h
  | struct packed fields =>
    have hlength : index'.toNat < fields.length := (List.getElem?_eq_some_iff.mp h').1
    exact L.offset_lt packed fields index.toNat index'.toNat field hlt hlength h
  | array n elementType =>
    obtain ⟨hindex, hfield⟩ := Option.ite_none_right_eq_some.mp h
    obtain rfl := Option.some.inj hfield
    have hstore := L.size_le_store elementType
    have hbefore : (index.toNat + 1) * L.getTypeStoreSize elementType ≤
        index'.toNat * L.getTypeStoreSize elementType := Nat.mul_le_mul_right _ hlt
    rw [Nat.add_mul, Nat.one_mul] at hbefore
    simp only [indexOffset]
    omega

theorem pathOffset_le : ∀ {type : LLVMType}, getIndexedType type p = some field →
    pathOffset L type p * 8 + L.getTypeSizeInBits field ≤ L.getTypeSizeInBits type := by
  induction p with
  | nil =>
    intro type h
    cases h
    simp [pathOffset]
  | cons index p ih =>
    intro type h
    obtain ⟨inner, hindex, hinner⟩ := getIndexedType_cons h
    have houter := indexOffset_le (L := L) hindex
    have hpath := ih hinner
    rw [pathOffset_cons hindex]
    omega

theorem pathOffset_disjoint : ∀ {type : LLVMType} {q : Path}, getIndexedType type p = some field →
    getIndexedType type q = some field' → ¬p <+: q → ¬q <+: p →
    pathOffset L type p * 8 + L.getTypeSizeInBits field ≤ pathOffset L type q * 8 ∨
      pathOffset L type q * 8 + L.getTypeSizeInBits field' ≤ pathOffset L type p * 8 := by
  induction p with
  | nil => exact fun _ _ hpq _ => absurd List.nil_prefix hpq
  | cons index p ih =>
    intro type q hp hq hpq hqp
    cases q with
    | nil => exact absurd List.nil_prefix hqp
    | cons index' q =>
      obtain ⟨inner, hindex, hinner⟩ := getIndexedType_cons hp
      obtain ⟨inner', hindex', hinner'⟩ := getIndexedType_cons hq
      have hpath := pathOffset_le (L := L) hinner
      have hpath' := pathOffset_le (L := L) hinner'
      rw [pathOffset_cons hindex, pathOffset_cons hindex']
      rcases Nat.lt_trichotomy index.toNat index'.toNat with hlt | heq | hlt
      · have happart := indexOffset_lt (L := L) hindex hindex' hlt
        omega
      · -- the paths go on inside one field
        obtain rfl := BitVec.eq_of_toNat_eq heq
        obtain rfl := Option.some.inj (hindex.symm.trans hindex')
        have hrest := ih hinner hinner' (fun h => hpq ((List.prefix_cons_inj index).mpr h))
          (fun h => hqp ((List.prefix_cons_inj index).mpr h))
        omega
      · have happart := indexOffset_lt (L := L) hindex' hindex hlt
        omega

theorem scale_index (h : getTypeAtIndex type index = some field) {n : Nat} {elementType : LLVMType}
    (htype : type = .array n elementType) (hsize : L.getTypeSizeInBits type < 2 ^ 32) :
    index.signExtend L.pointerWidth * BitVec.ofNat L.pointerWidth (L.getTypeStoreSize elementType) =
      BitVec.ofNat L.pointerWidth (indexOffset L type index) := by
  subst htype
  obtain ⟨hindex, hfield⟩ := Option.ite_none_right_eq_some.mp h
  obtain rfl := Option.some.inj hfield
  rcases Nat.eq_zero_or_pos (L.getTypeStoreSize elementType) with hzero | hpos
  · rw [indexOffset, hzero, Nat.mul_zero, BitVec.mul_zero]
  · have halloc := L.store_le_alloc elementType
    have hcount : n * 1 ≤ n * L.getTypeAllocSize elementType := Nat.mul_le_mul_left n (by omega)
    have harray : L.getTypeSizeInBits (.array n elementType) = n * L.getTypeAllocSize elementType * 8 :=
      L.size_array n elementType
    have hsmall : index.toNat < 2 ^ 31 := by omega
    have hmsb : index.msb = false := by
      rw [BitVec.msb_eq_decide]
      exact decide_eq_false (by omega)
    rw [BitVec.signExtend_eq_setWidth_of_msb_false hmsb, ← BitVec.ofNat_toNat, ← BitVec.ofNat_mul]
    rfl

theorem computeOffsets_step (h : getTypeAtIndex type index = some field) (hsize : L.getTypeSizeInBits type < 2 ^ 32)
    (indices : List APInt) (constantOffset : BitVec L.pointerWidth) :
    GetElementPtr.computeOffsets L (some type) (⟨32, index⟩ :: indices) ⟨_, constantOffset⟩ =
      GetElementPtr.computeOffsets L (some field) indices
        ⟨_, constantOffset + BitVec.ofNat _ (indexOffset L type index)⟩ := by
  cases type with
  | integer | float | pointer | vector => cases h
  | struct packed fields =>
    have hindex : APInt.toNat ⟨32, index⟩ % 2 ^ 32 = index.toNat := Nat.mod_eq_of_lt index.isLt
    rw [GetElementPtr.computeOffsets, GetElementPtr.nextType, hindex, GetElementPtr.createPointer, APInt.ofNat,
      GetElementPtr.add_mk]
    exact congrArg (GetElementPtr.computeOffsets L · indices _) h
  | array n elementType =>
    have hscale := scale_index h rfl hsize
    obtain ⟨hindex, hfield⟩ := Option.ite_none_right_eq_some.mp h
    obtain rfl := Option.some.inj hfield
    rw [GetElementPtr.computeOffsets, GetElementPtr.nextType, ← hscale]
    simp only [GetElementPtr.computeOffsetsSeqTy, GetElementPtr.createPointer, APInt.ofNat, APInt.sextOrTrunc,
      GetElementPtr.mul_mk, GetElementPtr.add_mk]

theorem computeOffsets_path : ∀ {type : LLVMType}, getIndexedType type p = some field →
    L.getTypeSizeInBits type < 2 ^ 32 → ∀ constantOffset : BitVec L.pointerWidth,
    GetElementPtr.computeOffsets L (some type) (asValues p) ⟨_, constantOffset⟩ =
      some ⟨_, constantOffset + BitVec.ofNat _ (pathOffset L type p)⟩ := by
  induction p with
  | nil =>
    intro type _ _ constantOffset
    rw [asValues, List.map_nil, GetElementPtr.computeOffsets, pathOffset, BitVec.add_zero]
  | cons index p ih =>
    intro type h hsize constantOffset
    obtain ⟨inner, hindex, hinner⟩ := getIndexedType_cons h
    have hle := indexOffset_le (L := L) hindex
    rw [asValues, List.map_cons, computeOffsets_step hindex hsize, ← asValues, ih hinner (by omega),
      pathOffset_cons hindex, BitVec.ofNat_add, BitVec.add_assoc]

theorem offsetOf_eq (h : getIndexedType type p = some field) (hsize : L.getTypeSizeInBits type < 2 ^ 32) :
    offsetOf L type p = some (pathOffset L type p) := by
  have hle := pathOffset_le (L := L) h
  have hpointer : 2 ^ 32 ≤ 2 ^ L.pointerWidth := by
    rcases L.pointerWidth_eq with hw | hw
    · rw [hw]
    · rw [hw]
      decide
  have hoffset := computeOffsets_path h hsize 0#L.pointerWidth
  rw [BitVec.zero_add] at hoffset
  have hlt : pathOffset L type p < 2 ^ L.pointerWidth := by omega
  rw [offsetOf, GetElementPtr.createPointer, APInt.ofNat, hoffset, Option.map_some, APInt.toNat]
  dsimp only
  rw [BitVec.toNat_ofNat, Nat.mod_eq_of_lt hlt]

end Offsets

section Bits

variable {L : DataLayout} {type field : LLVMType} {p q : Path} {agg val : Expr}

def bit (m : Valuation) (e : Expr) (i : Nat) : Bool := (e.eval m).value.getLsbD i

def SameValue (e e' : Expr) : Prop := e.width = e'.width ∧ ∀ m : Valuation, e.eval m = e'.eval m

/-- A symbolic value of a type.  The width of an expression is an `unsigned`. -/
structure IsValue (L : DataLayout) (type : LLVMType) (e : Expr) : Prop where
  wellTyped : e.WellTyped
  width : e.width = L.getTypeSizeInBits type
  fits : e.width < 2 ^ 32

theorem IsValue.size_lt (h : IsValue L type agg) : L.getTypeSizeInBits type < 2 ^ 32 := h.width ▸ h.fits

theorem sameValue_of_bits {e e' : Expr} (he : e.WellTyped) (he' : e'.WellTyped) (hw : e.width = e'.width)
    (h : ∀ m, ∀ i < e.width, bit m e i = bit m e' i) : SameValue e e' :=
  ⟨hw, fun m => APInt.ext_getLsbD ((e.width_eval m he).trans (hw.trans (e'.width_eval m he').symm)) fun i hi =>
    h m i ((e.width_eval m he) ▸ hi)⟩

theorem bit_of_refines {e e' : Expr} (h : e.Refines false e') (m : Valuation) (i : Nat) : bit m e' i = bit m e i := by
  rw [bit, bit, h.eval m nofun]

theorem bit_extract (m : Valuation) (e : Expr) (off w i : Nat) :
    bit m (.extract e off w) i = (decide (i < w) && bit m e (off + i)) :=
  BitVec.getLsbD_extractLsb' off w (e.eval m).value i

theorem bit_concat (m : Valuation) {l r : Expr} (hr : r.WellTyped) (i : Nat) :
    bit m (.concat l r) i = if i < r.width then bit m r i else bit m l (i - r.width) := by
  rw [← r.width_eval m hr]
  exact BitVec.getLsbD_append

theorem extract_bits (off w : Nat) (he : agg.WellTyped) (hw : 0 < w) (hle : off + w ≤ agg.width) :
    ∃ x, ExtractExpr.create agg off w = some x ∧ x.WellTyped ∧ x.width = w ∧
      ∀ m, ∀ i < w, bit m x i = bit m agg (off + i) := by
  have hbuilds : Builds false (.extract agg off w) (ExtractExpr.create agg off w) := ExtractExpr.create_builds he hw hle
  obtain ⟨x, hx, href⟩ := hbuilds
  refine ⟨x, hx, href.wellTyped, href.width, fun m i hi => ?_⟩
  rw [bit_of_refines href, bit_extract, decide_eq_true hi, Bool.true_and]

theorem concat_bits {l r : Expr} (hl : l.WellTyped) (hr : r.WellTyped) :
    ∃ x, ConcatExpr.create l r = some x ∧ x.WellTyped ∧ x.width = l.width + r.width ∧
      ∀ m i, bit m x i = if i < r.width then bit m r i else bit m l (i - r.width) := by
  have hbuilds : Builds false (.concat l r) (ConcatExpr.create l r) := ConcatExpr.create_builds hl hr
  obtain ⟨x, hx, href⟩ := hbuilds
  refine ⟨x, hx, href.wellTyped, href.width, fun m i => ?_⟩
  rw [bit_of_refines href, bit_concat m hr]

theorem extractValue_spec (hagg : IsValue L type agg) (hp : getIndexedType type p = some field)
    (hfield : 0 < L.getTypeSizeInBits field) :
    ∃ x, extractValue L type p agg = some x ∧ IsValue L field x ∧
      ∀ m, ∀ i < L.getTypeSizeInBits field, bit m x i = bit m agg (pathOffset L type p * 8 + i) := by
  have hsize := hagg.size_lt
  have hle := pathOffset_le (L := L) hp
  have hoff : pathOffset L type p * 8 % 2 ^ 32 = pathOffset L type p * 8 := Nat.mod_eq_of_lt (by omega)
  have hwidth : getWidthForLLVMType L field = L.getTypeSizeInBits field := Nat.mod_eq_of_lt (by omega)
  obtain ⟨x, hx, htyped, hxw, hbits⟩ := extract_bits _ _ hagg.wellTyped hfield (hle.trans_eq hagg.width.symm)
  refine ⟨x, ?_, ⟨htyped, hxw, by omega⟩, hbits⟩
  rw [extractValue, offsetOf_eq hp hsize, hp]
  simp only [Option.bind_eq_bind, Option.bind_some]
  rw [hoff, hwidth, hx]

theorem insertValue_spec (hagg : IsValue L type agg) (hp : getIndexedType type p = some field)
    (hval : IsValue L field val) :
    ∃ x, insertValue L type p val agg = some x ∧ IsValue L type x ∧
      ∀ m, ∀ i < L.getTypeSizeInBits type, bit m x i =
        if pathOffset L type p * 8 ≤ i ∧ i < pathOffset L type p * 8 + L.getTypeSizeInBits field then
          bit m val (i - pathOffset L type p * 8)
        else bit m agg i := by
  have hsize := hagg.size_lt
  have hle := pathOffset_le (L := L) hp
  have hoff : pathOffset L type p * 8 % 2 ^ 32 = pathOffset L type p * 8 := Nat.mod_eq_of_lt (by omega)
  have hend : (pathOffset L type p * 8 + val.width) % 2 ^ 32 =
      pathOffset L type p * 8 + L.getTypeSizeInBits field := by
    rw [hval.width]
    exact Nat.mod_eq_of_lt (by omega)
  unfold insertValue
  rw [offsetOf_eq hp hsize]
  simp only [Option.bind_eq_bind, Option.bind_some]
  rw [hoff, hend, hagg.width]
  generalize pathOffset L type p * 8 = lo at *
  have hwa := hagg.width
  have hwv := hval.width
  split
  next hlo =>
    -- there are bits below the field
    obtain ⟨l, hl, hlt, hlw, hlbits⟩ := extract_bits 0 lo hagg.wellTyped hlo (by omega)
    obtain ⟨vl, hvl, hvlt, hvlw, hvlbits⟩ := concat_bits hval.wellTyped hlt
    have hlow : ∀ m, ∀ i < lo + L.getTypeSizeInBits field, bit m vl i =
        if lo ≤ i ∧ i < lo + L.getTypeSizeInBits field then bit m val (i - lo) else bit m agg i := by
      intro m i hi
      rw [hvlbits]
      split
      next hbelow => rw [if_neg (by omega), hlbits m i (by omega), Nat.zero_add]
      next habove => rw [if_pos (by omega), hlw]
    rw [hl, Option.bind_some]
    split
    next hhi =>
      obtain ⟨r, hr, hrt, hrw, hrbits⟩ := extract_bits (lo + L.getTypeSizeInBits field)
        (L.getTypeSizeInBits type - (lo + L.getTypeSizeInBits field)) hagg.wellTyped (by omega) (by omega)
      obtain ⟨x, hx, hxt, hxw, hxbits⟩ := concat_bits hrt hvlt
      rw [hr, Option.bind_some, hvl, Option.bind_some]
      refine ⟨x, hx, ⟨hxt, by omega, by omega⟩, fun m i hi => ?_⟩
      rw [hxbits]
      split
      next hbelow => exact hlow m i (by omega)
      next habove => rw [if_neg (by omega), hrbits m _ (by omega), show lo + _ + (i - vl.width) = i by omega]
    next hhi =>
      refine ⟨vl, hvl, ⟨hvlt, by omega, by omega⟩, fun m i hi => ?_⟩
      exact hlow m i (by omega)
  next hlo =>
    split
    next hhi =>
      obtain ⟨r, hr, hrt, hrw, hrbits⟩ := extract_bits (lo + L.getTypeSizeInBits field)
        (L.getTypeSizeInBits type - (lo + L.getTypeSizeInBits field)) hagg.wellTyped (by omega) (by omega)
      obtain ⟨x, hx, hxt, hxw, hxbits⟩ := concat_bits hrt hval.wellTyped
      rw [hr, Option.bind_some]
      refine ⟨x, hx, ⟨hxt, by omega, by omega⟩, fun m i hi => ?_⟩
      rw [hxbits]
      split
      next hbelow => rw [if_pos (by omega), show i - lo = i by omega]
      next habove => rw [if_neg (by omega), hrbits m _ (by omega), show lo + _ + (i - val.width) = i by omega]
    next hhi =>
      refine ⟨val, rfl, ⟨hval.wellTyped, by omega, by omega⟩, fun m i hi => ?_⟩
      rw [if_pos (by omega), show i - lo = i by omega]

theorem IsValue.sameValue {e e' : Expr} (h : IsValue L type e) (h' : IsValue L type e')
    (hbits : ∀ m, ∀ i < L.getTypeSizeInBits type, bit m e i = bit m e' i) : SameValue e e' :=
  sameValue_of_bits h.wellTyped h'.wellTyped (h.width.trans h'.width.symm) fun m i hi => hbits m i (h.width ▸ hi)

end Bits

section Laws

variable {L : DataLayout} {type field : LLVMType} {p : Path} {agg val : Expr}

theorem extract_insert (hagg : IsValue L type agg) (hp : getIndexedType type p = some field)
    (hval : IsValue L field val) (hfield : 0 < L.getTypeSizeInBits field) {b : Expr}
    (hb : insertValue L type p val agg = some b) : ∃ x, extractValue L type p b = some x ∧ SameValue x val := by
  obtain ⟨b', hb', hvalue, hbits⟩ := insertValue_spec hagg hp hval
  obtain rfl := Option.some.inj (hb.symm.trans hb')
  obtain ⟨x, hx, hxvalue, hxbits⟩ := extractValue_spec hvalue hp hfield
  have hle := pathOffset_le (L := L) hp
  refine ⟨x, hx, hxvalue.sameValue hval fun m i hi => ?_⟩
  rw [hxbits m i hi, hbits m _ (by omega), if_pos (by omega), Nat.add_sub_cancel_left]

theorem insert_extract (hagg : IsValue L type agg) (hp : getIndexedType type p = some field)
    (hfield : 0 < L.getTypeSizeInBits field) : ∃ x, extractValue L type p agg = some x ∧ IsValue L field x ∧
      ∃ b, insertValue L type p x agg = some b ∧ IsValue L type b ∧ SameValue b agg := by
  obtain ⟨x, hx, hxvalue, hxbits⟩ := extractValue_spec hagg hp hfield
  obtain ⟨b, hb, hvalue, hbits⟩ := insertValue_spec hagg hp hxvalue
  refine ⟨x, hx, hxvalue, b, hb, hvalue, hvalue.sameValue hagg fun m i hi => ?_⟩
  rw [hbits m i hi]
  split
  next hin => rw [hxbits m _ (by omega), Nat.add_sub_cancel' hin.1]
  next => rfl

theorem insert_insert (hagg : IsValue L type agg) (hp : getIndexedType type p = some field)
    (hval : IsValue L field val) {b : Expr} (hb : insertValue L type p val agg = some b) {val' : Expr}
    (hval' : IsValue L field val') : ∃ c d, insertValue L type p val' b = some c ∧
      insertValue L type p val' agg = some d ∧ SameValue c d := by
  obtain ⟨b', hb', hvalue, hbits⟩ := insertValue_spec hagg hp hval
  obtain rfl := Option.some.inj (hb.symm.trans hb')
  obtain ⟨c, hc, hcvalue, hcbits⟩ := insertValue_spec hvalue hp hval'
  obtain ⟨d, hd, hdvalue, hdbits⟩ := insertValue_spec hagg hp hval'
  refine ⟨c, d, hc, hd, hcvalue.sameValue hdvalue fun m i hi => ?_⟩
  rw [hcbits m i hi, hdbits m i hi]
  split
  next => rfl
  next hout => rw [hbits m i hi, if_neg hout]

theorem extract_insert_of_disjoint (hagg : IsValue L type agg) (hp : getIndexedType type p = some field)
    (hval : IsValue L field val) {b : Expr} (hb : insertValue L type p val agg = some b) {q : Path}
    {field' : LLVMType} (hq : getIndexedType type q = some field') (hfield' : 0 < L.getTypeSizeInBits field')
    (hpq : ¬p <+: q) (hqp : ¬q <+: p) :
    ∃ x y, extractValue L type q b = some x ∧ extractValue L type q agg = some y ∧ SameValue x y := by
  obtain ⟨b', hb', hvalue, hbits⟩ := insertValue_spec hagg hp hval
  obtain rfl := Option.some.inj (hb.symm.trans hb')
  obtain ⟨x, hx, hxvalue, hxbits⟩ := extractValue_spec hvalue hq hfield'
  obtain ⟨y, hy, hyvalue, hybits⟩ := extractValue_spec hagg hq hfield'
  have hle := pathOffset_le (L := L) hq
  have hdisjoint := pathOffset_disjoint (L := L) hp hq hpq hqp
  refine ⟨x, y, hx, hy, hxvalue.sameValue hyvalue fun m i hi => ?_⟩
  rw [hxbits m i hi, hybits m i hi, hbits m _ (by omega), if_neg (by omega)]

/-- The two instructions are a lawful accessor of every field, as long as no field of width zero is extracted. -/
theorem accessor_lawful (L : DataLayout) (type field : LLVMType) (p : Path) (agg : Expr) (hagg : IsValue L type agg)
    (hp : getIndexedType type p = some field) :
    (∀ val, IsValue L field val → ∃ b, insertValue L type p val agg = some b ∧ IsValue L type b ∧
      (0 < L.getTypeSizeInBits field → ∃ x, extractValue L type p b = some x ∧ SameValue x val) ∧
      (∀ val', IsValue L field val' → ∃ c d, insertValue L type p val' b = some c ∧
        insertValue L type p val' agg = some d ∧ SameValue c d) ∧
      ∀ q field', getIndexedType type q = some field' → 0 < L.getTypeSizeInBits field' → ¬p <+: q → ¬q <+: p →
        ∃ x y, extractValue L type q b = some x ∧ extractValue L type q agg = some y ∧ SameValue x y) ∧
    (0 < L.getTypeSizeInBits field → ∃ x, extractValue L type p agg = some x ∧ IsValue L field x ∧
      ∃ b, insertValue L type p x agg = some b ∧ IsValue L type b ∧ SameValue b agg) := by
  constructor
  · intro val hval
    obtain ⟨b, hb, hvalue, -⟩ := insertValue_spec hagg hp hval
    exact ⟨b, hb, hvalue, fun hfield => extract_insert hagg hp hval hfield hb,
      fun val' hval' => insert_insert hagg hp hval hb hval',
      fun q field' hq hfield' hpq hqp => extract_insert_of_disjoint hagg hp hval hb hq hfield' hpq hqp⟩
  · exact insert_extract hagg hp

/-- One bit and, behind padding, two elements of three bytes. -/
def pairType : LLVMType := .struct false [.integer 1, .array 2 (.integer 24)]

theorem isValue_pairType : IsValue x86_64 pairType (.constant (.ofNat 96 5)) :=
  ⟨trivial, by decide, by decide⟩

theorem accessor_lawful_pair :
    (∀ val, IsValue x86_64 (.integer 24) val → ∃ b,
      insertValue x86_64 pairType [1, 0] val (.constant (.ofNat 96 5)) = some b ∧ IsValue x86_64 pairType b ∧
      (0 < x86_64.getTypeSizeInBits (.integer 24) →
        ∃ x, extractValue x86_64 pairType [1, 0] b = some x ∧ SameValue x val) ∧
      (∀ val', IsValue x86_64 (.integer 24) val' → ∃ c d, insertValue x86_64 pairType [1, 0] val' b = some c ∧
        insertValue x86_64 pairType [1, 0] val' (.constant (.ofNat 96 5)) = some d ∧ SameValue c d) ∧
      ∀ q field', getIndexedType pairType q = some field' → 0 < x86_64.getTypeSizeInBits field' →
        ¬[1, 0] <+: q → ¬q <+: [1, 0] → ∃ x y, extractValue x86_64 pairType q b = some x ∧
        extractValue x86_64 pairType q (.constant (.ofNat 96 5)) = some y ∧ SameValue x y) ∧
    (0 < x86_64.getTypeSizeInBits (.integer 24) →
      ∃ x, extractValue x86_64 pairType [1, 0] (.constant (.ofNat 96 5)) = some x ∧ IsValue x86_64 (.integer 24) x ∧
      ∃ b, insertValue x86_64 pairType [1, 0] x (.constant (.ofNat 96 5)) = some b ∧ IsValue x86_64 pairType b ∧
        SameValue b (.constant (.ofNat 96 5))) :=
  accessor_lawful x86_64 pairType (.integer 24) [1, 0] (.constant (.ofNat 96 5)) isValue_pairType rfl

theorem extractValue_of_empty (hp : getIndexedType type p = some field) (hfield : L.getTypeSizeInBits field = 0) :
    extractValue L type p agg = none := by
  unfold extractValue
  cases offsetOf L type p with
  | none => rfl
  | some offset =>
    rw [hp]
    simp only [Option.bind_eq_bind, Option.bind_some]
    have hwidth : getWidthForLLVMType L field = 0 := by rw [getWidthForLLVMType, hfield, Nat.zero_mod]
    unfold ExtractExpr.create ExtractExpr.createBounded
    rw [hwidth, if_neg (fun h => Nat.lt_irrefl 0 h.1)]
    rfl

/-- The empty struct inside a struct is a field of it, but it is not extracted. -/
theorem extractValue_emptyField : getIndexedType (.struct false [.integer 32, .struct false []]) [1] =
      some (.struct false []) ∧
    IsValue x86_64 (.struct false [.integer 32, .struct false []]) (.constant (.ofNat 32 5)) ∧
    extractValue x86_64 (.struct false [.integer 32, .struct false []]) [1] (.constant (.ofNat 32 5)) = none :=
  ⟨rfl, ⟨trivial, by decide, by decide⟩, extractValue_of_empty rfl (by decide)⟩

end Laws

end AggregateValue

end CgsKlee
