import Mathlib.Data.List.Basic

/-!
# The arguments of external calls

`callExternalFunction` stores the arguments of an external call in an array of words, and the dispatcher that
`createDispatcher` generates loads them from there.  Both compute the offset of an argument from the arguments before
it: the one from the widths of expressions, the other from LLVM types.

The dispatcher pads an x86 long double to an even word.  The executor pads a constant of 80 bits, and only if it had to
check that the argument is a constant; so the two differ when an argument that only one of them pads comes to an odd
word.  They also differ after a vector of pointers, which has no primitive size and counts as one word for the
dispatcher.
-/

namespace CgsKlee.ExternalCall

/-- The types of scalars, as far as arguments go. -/
inductive ScalarType
  | integer (width : Nat)
  | pointer
  | float
  | double
  | x86_fp80
deriving DecidableEq, Repr

inductive ArgType
  | scalar (type : ScalarType)
  | vector (elements : Nat) (element : ScalarType)
deriving DecidableEq, Repr

def ScalarType.getPrimitiveSizeInBits : ScalarType → Nat
  | integer width => width
  | pointer => 0
  | float => 32
  | double => 64
  | x86_fp80 => 80

def ScalarType.getTypeSizeInBits (pointerWidth : Nat) : ScalarType → Nat
  | pointer => pointerWidth
  | type => type.getPrimitiveSizeInBits

namespace ArgType

def getPrimitiveSizeInBits : ArgType → Nat
  | scalar type => type.getPrimitiveSizeInBits
  | vector elements element => elements * element.getPrimitiveSizeInBits

def getWidthForLLVMType (pointerWidth : Nat) : ArgType → Nat
  | scalar type => type.getTypeSizeInBits pointerWidth
  | vector elements element => elements * element.getTypeSizeInBits pointerWidth

def isX86_FP80Ty (type : ArgType) : Bool := type = scalar .x86_fp80

end ArgType

/-- A call site: the types of its arguments, and the parameter types of the function that is called and of the operand
it is called through, which differ if the function is bitcast. -/
structure CallSite where
  args : List ArgType
  fType : List ArgType
  fpType : List ArgType
  /-- The arguments of a call have the parameter types of the operand; there may be more of them. -/
  typed : fpType <+: args

namespace CallSite

/-- The widths of the evaluated arguments; those of a function that is bitcast are extended to its parameters. -/
def argumentWidths (pointerWidth : Nat) (cb : CallSite) : List Nat :=
  let arguments := cb.args.map (ArgType.getWidthForLLVMType pointerWidth)
  if cb.fType ≠ cb.fpType then
    arguments.mapIdx fun i width =>
      match cb.fType[i]? with
      | some param => if width ≠ param.getWidthForLLVMType pointerWidth then param.getWidthForLLVMType pointerWidth else width
      | none => width
  else arguments

/-- The type that the dispatcher passes an argument as. -/
def argTypes (cb : CallSite) : List ArgType := cb.args.mapIdx fun i type => cb.fType[i]?.getD type

end CallSite

inductive ExternalCallPolicy
  | none
  | concrete
  | all
deriving DecidableEq, Repr

def maxWidth : Nat := 512

def fl80 : Nat := 80

def allocatedBytes (arguments : Nat) : Nat := maxWidth / 8 * (arguments + 1)

/-- An argument expression: its width, and whether it has one value only in the state (`toUnique` gives a constant). -/
structure Argument where
  width : Nat
  unique : Bool
deriving DecidableEq, Repr

/-- The loop of `Executor::callExternalFunction` over the arguments: the word at which each is stored, with the number
of words it takes.  Nothing is called if the policy wants constants and an argument is symbolic. -/
def storeArguments (policy : ExternalCallPolicy) (wordIndex : Nat) : List Argument → Option (List (Nat × Nat))
  | [] => some []
  | ai :: rest =>
    let words := (ai.width + 63) / 64
    if policy = .all then (storeArguments policy (wordIndex + words) rest).map ((wordIndex, words) :: ·)
    else if ai.unique then
      let wordIndex := if ai.width = fl80 ∧ wordIndex % 2 = 1 then wordIndex + 1 else wordIndex
      (storeArguments policy (wordIndex + words) rest).map ((wordIndex, words) :: ·)
    else none

/-- The loop of `ExternalDispatcherImpl::createDispatcher` over the arguments: the word from which each is loaded, with
the number of words it takes. -/
def loadArguments (idx : Nat) : List ArgType → List (Nat × Nat)
  | [] => []
  | argTy :: rest =>
    let idx := if argTy.isX86_FP80Ty ∧ idx % 2 = 1 then idx + 1 else idx
    let argSize := argTy.getPrimitiveSizeInBits
    let words := ((if argSize ≠ 0 then argSize else 64) + 63) / 64
    (idx, words) :: loadArguments (idx + words) rest

/-- The word at which an argument starts that comes to the word `i`. -/
def start (pads : Prop) [Decidable pads] (i : Nat) : Nat := if pads ∧ i % 2 = 1 then i + 1 else i

/-- The executor pads a constant of the width at an odd word. -/
def StorePads (policy : ExternalCallPolicy) (width : Nat) : Prop := policy ≠ .all ∧ width = fl80

instance (policy : ExternalCallPolicy) (width : Nat) : Decidable (StorePads policy width) :=
  inferInstanceAs (Decidable (_ ∧ _))

namespace ArgType

/-- The number of words that the executor counts for an argument. -/
def storeWords (pointerWidth : Nat) (type : ArgType) : Nat := (type.getWidthForLLVMType pointerWidth + 63) / 64

/-- The number of words that the dispatcher counts for an argument. -/
def loadWords (type : ArgType) : Nat :=
  ((if type.getPrimitiveSizeInBits ≠ 0 then type.getPrimitiveSizeInBits else 64) + 63) / 64

/-- The types of arguments: integers of up to 64 bits, pointers, floating-point numbers, and vectors of up to
`Expr::MaxWidth` bits. -/
def Valid (pointerWidth : Nat) : ArgType → Prop
  | scalar (.integer width) => 0 < width ∧ width ≤ 64
  | scalar _ => True
  | vector elements element => 0 < elements ∧ element ≠ .integer 0 ∧
    elements * element.getTypeSizeInBits pointerWidth ≤ maxWidth

variable {pointerWidth : Nat} {type : ArgType}

theorem isX86_FP80Ty_iff : type.isX86_FP80Ty = true ↔ type = scalar .x86_fp80 := by simp [isX86_FP80Ty]

theorem words_eq (h : type.getPrimitiveSizeInBits = type.getWidthForLLVMType pointerWidth)
    (hpos : 0 < type.getPrimitiveSizeInBits) : type.storeWords pointerWidth = type.loadWords := by
  rw [storeWords, loadWords, if_pos (Nat.ne_of_gt hpos), h]

theorem words_cases (hp : pointerWidth = 32 ∨ pointerWidth = 64) (h : type.Valid pointerWidth) :
    type.storeWords pointerWidth = type.loadWords ∨ 2 ≤ type.storeWords pointerWidth ∧ type.loadWords = 1 := by
  cases type with
  | scalar type =>
    left
    cases type with
    | integer width => exact words_eq rfl h.1
    | pointer => rcases hp with rfl | rfl <;> rfl
    | float => rfl
    | double => rfl
    | x86_fp80 => rfl
  | vector elements element =>
    obtain ⟨hpos, hne, -⟩ := h
    cases element with
    | integer width =>
      have hw : 0 < width := by
        apply Nat.pos_of_ne_zero
        rintro rfl
        exact hne rfl
      exact .inl (words_eq rfl (Nat.mul_pos hpos hw))
    | pointer =>
      -- the primitive size is zero, which stands for 64
      have hload : (vector elements .pointer).loadWords = 1 := by
        simp [loadWords, getPrimitiveSizeInBits, ScalarType.getPrimitiveSizeInBits]
      have hmul : 0 < elements * pointerWidth := Nat.mul_pos hpos (by omega)
      have hstore : (vector elements .pointer).storeWords pointerWidth = (elements * pointerWidth + 63) / 64 := rfl
      generalize elements * pointerWidth = n at hmul hstore
      omega
    | float => exact .inl (words_eq rfl (Nat.mul_pos hpos (by decide)))
    | double => exact .inl (words_eq rfl (Nat.mul_pos hpos (by decide)))
    | x86_fp80 => exact .inl (words_eq rfl (Nat.mul_pos hpos (by decide)))

theorem width_le_maxWidth (hp : pointerWidth = 32 ∨ pointerWidth = 64) (h : type.Valid pointerWidth) :
    type.getWidthForLLVMType pointerWidth ≤ maxWidth := by
  unfold maxWidth
  cases type with
  | scalar type =>
    cases type with
    | integer width => exact Nat.le_trans h.2 (by decide)
    | pointer => rcases hp with rfl | rfl <;> decide
    | float => exact (by decide : 32 ≤ 512)
    | double => exact (by decide : 64 ≤ 512)
    | x86_fp80 => exact (by decide : 80 ≤ 512)
  | vector elements element => exact h.2.2

theorem words_le (hp : pointerWidth = 32 ∨ pointerWidth = 64) (h : type.Valid pointerWidth) :
    type.storeWords pointerWidth ≤ 8 ∧ type.loadWords ≤ 8 := by
  have hle : type.storeWords pointerWidth ≤ 8 := by
    have hw := width_le_maxWidth hp h
    unfold maxWidth at hw
    unfold storeWords
    omega
  refine ⟨hle, ?_⟩
  rcases words_cases hp h with heq | ⟨-, hone⟩ <;> omega

theorem words_of_storePads {policy : ExternalCallPolicy}
    (h : StorePads policy (type.getWidthForLLVMType pointerWidth)) : type.storeWords pointerWidth = 2 := by
  rw [storeWords, h.2]
  decide

end ArgType

/-- The executor and the dispatcher both pad the argument at the word `i`, or neither does. -/
def PadsAlike (policy : ExternalCallPolicy) (pointerWidth i : Nat) (type : ArgType) : Prop :=
  i % 2 = 1 → (StorePads policy (type.getWidthForLLVMType pointerWidth) ↔ type = .scalar .x86_fp80)

/-- The arguments from the word `i` on are padded alike, and none but the last is counted differently, unless the
padding of the next one makes up for it: after two words for a vector of pointers at an even word, an x86 long double
that the dispatcher pads. -/
def Compatible (policy : ExternalCallPolicy) (pointerWidth : Nat) : Nat → List ArgType → Prop
  | _, [] => True
  | i, [type] => PadsAlike policy pointerWidth i type
  | i, type :: next :: rest =>
    let at_ := start (type = .scalar .x86_fp80) i
    PadsAlike policy pointerWidth i type ∧
      (type.storeWords pointerWidth = type.loadWords ∧
          Compatible policy pointerWidth (at_ + type.storeWords pointerWidth) (next :: rest) ∨
        type.storeWords pointerWidth ≠ type.loadWords ∧ type.storeWords pointerWidth = 2 ∧ at_ % 2 = 0 ∧
          next = .scalar .x86_fp80 ∧ Compatible policy pointerWidth (at_ + 4) rest)

section Layouts

variable {policy : ExternalCallPolicy} {pointerWidth i : Nat}

theorem storeArguments_cons {ai : Argument} {arguments : List Argument} {stores : List (Nat × Nat)}
    (h : storeArguments policy i (ai :: arguments) = some stores) :
    ∃ rest, stores = (start (StorePads policy ai.width) i, (ai.width + 63) / 64) :: rest ∧
      storeArguments policy (start (StorePads policy ai.width) i + (ai.width + 63) / 64) arguments = some rest := by
  unfold storeArguments at h
  dsimp only at h
  split at h
  · rename_i hall
    obtain ⟨rest, hrest, rfl⟩ := Option.map_eq_some_iff.1 h
    have hstart : start (StorePads policy ai.width) i = i := if_neg fun hp => hp.1.1 hall
    exact ⟨rest, by rw [hstart], by rw [hstart, hrest]⟩
  · rename_i hall
    split at h
    · obtain ⟨rest, hrest, rfl⟩ := Option.map_eq_some_iff.1 h
      have hstart : start (StorePads policy ai.width) i = if ai.width = fl80 ∧ i % 2 = 1 then i + 1 else i := by
        simp [start, StorePads, hall]
      exact ⟨rest, by rw [hstart], by rw [hstart, hrest]⟩
    · cases h

theorem loadArguments_cons (type : ArgType) (types : List ArgType) :
    loadArguments i (type :: types) =
      (start (type = .scalar .x86_fp80) i, type.loadWords) ::
        loadArguments (start (type = .scalar .x86_fp80) i + type.loadWords) types := by
  simp only [loadArguments, ArgType.isX86_FP80Ty_iff, start, ArgType.loadWords]

theorem start_of_even {p : Prop} [Decidable p] (h : i % 2 = 0) : start p i = i := if_neg fun hodd => by omega

theorem start_of_odd {p : Prop} [Decidable p] (hp : p) (h : i % 2 = 1) : start p i = i + 1 := if_pos ⟨hp, h⟩

theorem start_cases (p : Prop) [Decidable p] (i : Nat) : start p i = i ∨ p ∧ i % 2 = 1 ∧ start p i = i + 1 := by
  by_cases h : p ∧ i % 2 = 1
  · exact .inr ⟨h.1, h.2, start_of_odd h.1 h.2⟩
  · exact .inl (if_neg h)

theorem start_add_eq_iff {p q : Prop} [Decidable p] [Decidable q] {n : Nat} (hn : 2 ≤ n) :
    start p (i + n) = start q (i + 1) ↔ n = 2 ∧ i % 2 = 0 ∧ q := by
  constructor
  · intro h
    rcases start_cases p (i + n) with hp | ⟨-, -, hp⟩ <;> rcases start_cases q (i + 1) with hq | ⟨hq, hodd, hq'⟩
    · omega
    · exact ⟨by omega, by omega, hq⟩
    · omega
    · omega
  · rintro ⟨rfl, heven, hq⟩
    rw [start_of_even (by omega), start_of_odd hq (by omega)]

theorem start_eq_iff {p q : Prop} [Decidable p] [Decidable q] : start p i = start q i ↔ (i % 2 = 1 → (p ↔ q)) := by
  unfold start
  by_cases hp : p <;> by_cases hq : q <;> by_cases hi : i % 2 = 1 <;> simp [hp, hq, hi]

theorem layouts_agree_iff (hp : pointerWidth = 32 ∨ pointerWidth = 64) (types : List ArgType)
    (hv : ∀ type ∈ types, type.Valid pointerWidth) {arguments : List Argument} {stores : List (Nat × Nat)}
    (hw : arguments.map (·.width) = types.map (ArgType.getWidthForLLVMType pointerWidth))
    (hs : storeArguments policy i arguments = some stores) :
    stores.map (·.1) = (loadArguments i types).map (·.1) ↔ Compatible policy pointerWidth i types := by
  induction i, types using Compatible.induct pointerWidth generalizing arguments stores with
  | case1 i =>
    obtain rfl : arguments = [] := List.map_eq_nil_iff.1 hw
    cases hs
    simp [loadArguments, Compatible]
  | case2 i type =>
    obtain ⟨ai, rest, rfl, hwidth, hrest⟩ := List.map_eq_cons_iff.1 hw
    obtain rfl : rest = [] := List.map_eq_nil_iff.1 hrest
    obtain ⟨rest, rfl, hnil⟩ := storeArguments_cons hs
    cases hnil
    rw [loadArguments_cons, hwidth]
    simp only [List.map_cons, List.map_nil, loadArguments, List.cons.injEq, and_true, Compatible, PadsAlike,
      start_eq_iff]
  | case3 i type next rest at_ ih₁ ih₂ =>
    obtain ⟨ai, arguments, rfl, hwidth, hrest⟩ := List.map_eq_cons_iff.1 hw
    obtain ⟨stores, rfl, hs'⟩ := storeArguments_cons hs
    have hvtype := hv type (by simp)
    have hvrest : ∀ t ∈ next :: rest, t.Valid pointerWidth := fun t ht => hv t (by simp [ht])
    rw [hwidth] at hs'
    rw [loadArguments_cons, hwidth, List.map_cons, List.map_cons, List.cons.injEq]
    dsimp only
    rw [start_eq_iff, Compatible]
    refine and_congr_right fun hpads => ?_
    have hstart := start_eq_iff.2 hpads
    rw [hstart] at hs'
    change storeArguments policy (at_ + type.storeWords pointerWidth) arguments = some stores at hs'
    change stores.map (·.1) = (loadArguments (at_ + type.loadWords) (next :: rest)).map (·.1) ↔ _
    rcases ArgType.words_cases hp hvtype with heq | ⟨htwo, hone⟩
    · -- both count the same words
      rw [← heq, ih₁ hvrest hrest hs']
      simp [heq, at_]
    · have hne : type.storeWords pointerWidth ≠ 1 := by omega
      obtain ⟨ai', arguments', rfl, hwidth', hrest'⟩ := List.map_eq_cons_iff.1 hrest
      obtain ⟨stores, rfl, hs''⟩ := storeArguments_cons hs'
      rw [loadArguments_cons, List.map_cons, List.map_cons, List.cons.injEq, hone, hwidth']
      dsimp only
      rw [start_add_eq_iff htwo]
      rw [hwidth'] at hs''
      -- both come to the word after the x86 long double
      have htail : type.storeWords pointerWidth = 2 ∧ at_ % 2 = 0 ∧ next = .scalar .x86_fp80 →
          (stores.map (·.1) = (loadArguments (start (next = .scalar .x86_fp80) (at_ + 1) + next.loadWords) rest).map
            (·.1) ↔ Compatible policy pointerWidth (at_ + 4) rest) := by
        rintro ⟨h₂, heven, rfl⟩
        have hload : start (ArgType.scalar .x86_fp80 = ArgType.scalar .x86_fp80) (at_ + 1) +
            (ArgType.scalar .x86_fp80).loadWords = at_ + 4 := by
          rw [start_of_odd rfl (by omega)]
          rfl
        rw [hload]
        refine ih₂ (fun t ht => hv t (by simp [ht])) hrest' ?_
        have hstore : start (StorePads policy ((ArgType.scalar .x86_fp80).getWidthForLLVMType pointerWidth)) (at_ + 2) =
            at_ + 2 := start_of_even (by omega)
        have hwords : ((ArgType.scalar .x86_fp80).getWidthForLLVMType pointerWidth + 63) / 64 = 2 :=
          show (80 + 63) / 64 = 2 from rfl
        rw [h₂, hstore, hwords] at hs''
        exact hs''
      constructor
      · rintro ⟨hnext, hrest⟩
        exact .inr ⟨hne, hnext.1, hnext.2.1, hnext.2.2, (htail hnext).1 hrest⟩
      · rintro (⟨heq, -⟩ | ⟨-, h₂, heven, hnext, hc⟩)
        · exact absurd heq hne
        · exact ⟨⟨h₂, heven, hnext⟩, (htail ⟨h₂, heven, hnext⟩).2 hc⟩

theorem storeArguments_inside {types : List ArgType} (hp : pointerWidth = 32 ∨ pointerWidth = 64)
    (hv : ∀ type ∈ types, type.Valid pointerWidth) {arguments : List Argument} {stores : List (Nat × Nat)}
    (hw : arguments.map (·.width) = types.map (ArgType.getWidthForLLVMType pointerWidth))
    (hs : storeArguments policy i arguments = some stores) :
    ∀ r ∈ stores, r.1 + r.2 ≤ i + 8 * types.length := by
  induction types generalizing i arguments stores with
  | nil =>
    obtain rfl : arguments = [] := List.map_eq_nil_iff.1 hw
    cases hs
    simp
  | cons type types ih =>
    obtain ⟨ai, arguments, rfl, hwidth, hrest⟩ := List.map_eq_cons_iff.1 hw
    obtain ⟨stores, rfl, hs'⟩ := storeArguments_cons hs
    rw [hwidth] at hs' ⊢
    have htake : start (StorePads policy (type.getWidthForLLVMType pointerWidth)) i +
        type.storeWords pointerWidth ≤ i + 8 := by
      have hle := (ArgType.words_le hp (hv type (by simp))).1
      rcases start_cases (StorePads policy (type.getWidthForLLVMType pointerWidth)) i with h | ⟨hpads, -, h⟩
      · omega
      · rw [h, ArgType.words_of_storePads hpads]
        omega
    change storeArguments policy (_ + type.storeWords pointerWidth) arguments = some stores at hs'
    intro r hr
    rw [List.length_cons]
    rcases List.mem_cons.1 hr with rfl | hr
    · change _ + type.storeWords pointerWidth ≤ _
      omega
    · have hle := ih (fun t ht => hv t (by simp [ht])) hrest hs' r hr
      omega

theorem loadArguments_inside {types : List ArgType} (hp : pointerWidth = 32 ∨ pointerWidth = 64)
    (hv : ∀ type ∈ types, type.Valid pointerWidth) :
    ∀ r ∈ loadArguments i types, r.1 + r.2 ≤ i + 8 * types.length := by
  induction types generalizing i with
  | nil => simp [loadArguments]
  | cons type types ih =>
    have htake : start (type = .scalar .x86_fp80) i + type.loadWords ≤ i + 8 := by
      have hle := (ArgType.words_le hp (hv type (by simp))).2
      rcases start_cases (type = .scalar .x86_fp80) i with h | ⟨rfl, -, h⟩
      · omega
      · rw [h]
        change i + 1 + 2 ≤ i + 8
        omega
    rw [loadArguments_cons, List.length_cons]
    intro r hr
    rcases List.mem_cons.1 hr with rfl | hr
    · change _ + type.loadWords ≤ _
      omega
    · have hle := ih (fun t ht => hv t (by simp [ht])) r hr
      omega

end Layouts

namespace CallSite

theorem argumentWidths_eq (pointerWidth : Nat) (cb : CallSite) :
    cb.argumentWidths pointerWidth = cb.argTypes.map (ArgType.getWidthForLLVMType pointerWidth) := by
  apply List.ext_getElem?
  intro i
  unfold argumentWidths argTypes
  dsimp only
  split
  · rw [List.getElem?_mapIdx, List.getElem?_map, List.getElem?_map, List.getElem?_mapIdx]
    cases cb.args[i]? with
    | none => rfl
    | some type =>
      cases cb.fType[i]? with
      | none => rfl
      | some param =>
        simp only [Option.map_some, Option.getD_some, ne_eq, ite_not, Option.some.injEq]
        split
        · assumption
        · rfl
  · -- a function that is not bitcast gets arguments of the types of its parameters
    rename_i heq
    rw [List.getElem?_map, List.getElem?_map, List.getElem?_mapIdx]
    cases harg : cb.args[i]? with
    | none => rfl
    | some type =>
      cases hparam : cb.fType[i]? with
      | none => rfl
      | some param =>
        obtain ⟨rest, hargs⟩ := cb.typed
        have hsame : cb.fpType[i]? = some param := by rwa [← not_not.1 heq]
        rw [← hargs, List.getElem?_append_left (List.getElem?_eq_some_iff.1 hsame).1, hsame] at harg
        rw [Option.some.inj harg]
        rfl

/-- The arguments of the call as expressions; `unique` says which of them are constant in the state. -/
def arguments (pointerWidth : Nat) (cb : CallSite) (unique : Nat → Bool) : List Argument :=
  (cb.argumentWidths pointerWidth).mapIdx fun i width => ⟨width, unique i⟩

end CallSite

/-- The executor stores every argument where the dispatcher loads it from, and all these ranges lie inside the argument
buffer. -/
structure Marshals (arguments : Nat) (stores loads : List (Nat × Nat)) : Prop where
  same : stores.map (·.1) = loads.map (·.1)
  inside : ∀ r ∈ stores ++ loads, 8 * (r.1 + r.2) ≤ allocatedBytes arguments

def printLongDouble : CallSite where
  args := [.scalar .pointer, .scalar .x86_fp80]
  fType := [.scalar .pointer]
  fpType := [.scalar .pointer]
  typed := ⟨[.scalar .x86_fp80], rfl⟩

end CgsKlee.ExternalCall
