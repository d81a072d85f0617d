import CgsKlee.Core.LLVMType
import Mathlib.Data.List.Basic

/-!
# Variadic arguments

For a call of a variadic function on x86-64 `executeCall` places the extra arguments in one object, as if all of them
were passed on the stack: a first loop computes the offsets, a second one writes the values and, for an argument that is
passed by value, the object that its pointer lies in.  `laidOut_iff` says when the writes stay inside the object, the
arguments are aligned and the copies hold what the pointers point to.
-/

namespace CgsKlee

namespace VarArgs

abbrev Align := {align : Nat // 0 < align}

/-- An aggregate of `size` bytes inside of a live object, which its pointer resolves to.  The bytes are those that
`ObjectState::read8` returns. -/
structure ByValArg (β : Type) where
  size : Nat
  objectSize : Nat
  byte : Nat → β
  offset : Nat
  inside : offset + size ≤ objectSize

/-- What is passed: a value with its bytes, or a `byval` pointer. -/
inductive Passed (β : Type)
  | value (width : Nat) (byte : Nat → β)
  | byVal (arg : ByValArg β)

structure VarArg (β : Type) where
  paramAlign : Option Align
  passed : Passed β

variable {β : Type}

namespace VarArg

def argWidth (arg : VarArg β) : Nat :=
  match arg.passed with
  | .value width _ => width
  | .byVal a => a.size * 8

/-- The alignment that is required: the explicit one, or that of the stack. -/
def alignment (arg : VarArg β) : Nat :=
  match arg.paramAlign with
  | some align => align.1
  | none => if 64 < arg.argWidth then 16 else 8

/-- The argument asks for an object with an alignment of sixteen. -/
def requires16ByteAlignment (arg : VarArg β) : Bool := arg.paramAlign.isNone && 64 < arg.argWidth

def area (arg : VarArg β) : Nat := roundUp arg.argWidth 64 / 8

/-- The writes for an argument, each of a byte at an offset.  A value is one bit or some bytes: invalid write size. -/
def writes (arg : VarArg β) (offset : Nat) : Option (List (Nat × β)) :=
  match arg.passed with
  | .value width byte =>
    if width = 1 then some [(offset, byte 0)]
    else if width % 8 = 0 then some ((List.range (width / 8)).map fun i => (offset + i, byte i))
    else none
  | .byVal a => some ((List.range a.objectSize).map fun i => (offset + i, a.byte i))

end VarArg

/-- The first loop from a size on: the arguments with their offsets, and the total size. -/
def layout : List (VarArg β) → Nat → List (VarArg β × Nat) × Nat
  | [], size => ([], size)
  | arg :: args, size =>
    let offset := roundUp size arg.alignment
    let rest := layout args (offset + arg.area)
    ((arg, offset) :: rest.1, rest.2)

def objectAlignment (args : List (VarArg β)) : Nat := if args.any (·.requires16ByteAlignment) then 16 else 8

def storeArguments : List (VarArg β × Nat) → Option (List (Nat × β))
  | [] => some []
  | (arg, offset) :: rest => do
    let now ← arg.writes offset
    let later ← storeArguments rest
    some (now ++ later)

def contents (before : Option β) (ws : List (Nat × β)) (x : Nat) : Option β :=
  ws.foldl (fun byte w => if w.1 = x then some w.2 else byte) before

/-- The arguments are laid out in an object at an address: all writes are inside of it, the areas of the arguments are
apart, every argument is aligned, and the area of one that is passed by value holds the bytes at its pointer. -/
def LaidOut (args : List (VarArg β)) (address : Nat) : Prop :=
  ∃ ws, storeArguments (layout args 0).1 = some ws ∧
    (∀ w ∈ ws, w.1 < (layout args 0).2) ∧
    (layout args 0).1.Pairwise (fun p q => p.2 + p.1.area ≤ q.2) ∧
    (∀ p ∈ (layout args 0).1, p.1.alignment ∣ address + p.2) ∧
    ∀ p ∈ (layout args 0).1, ∀ a, p.1.passed = .byVal a →
      a.size ≤ p.1.area ∧ ∀ j < a.size, contents none ws (p.2 + j) = some (a.byte (a.offset + j))

theorem alignment_pos (arg : VarArg β) : 0 < arg.alignment := by
  unfold VarArg.alignment
  split
  next align _ => exact align.2
  next => split <;> decide

theorem width_le_area (arg : VarArg β) : arg.argWidth ≤ arg.area * 8 := by
  unfold VarArg.area roundUp
  omega

theorem size_le_layout (args : List (VarArg β)) : ∀ size, size ≤ (layout args size).2 := by
  induction args with
  | nil => exact fun size => Nat.le_refl size
  | cons arg args ih =>
    intro size
    have hstart := le_roundUp size (alignment_pos arg)
    have hrest := ih (roundUp size arg.alignment + arg.area)
    exact Nat.le_trans (Nat.le_trans hstart (Nat.le_add_right _ _)) hrest

theorem bounds_of_mem_layout (args : List (VarArg β)) : ∀ size, ∀ p ∈ (layout args size).1,
    size ≤ p.2 ∧ p.2 + p.1.area ≤ (layout args size).2 := by
  induction args with
  | nil => exact fun size p hp => absurd hp List.not_mem_nil
  | cons arg args ih =>
    intro size p hp
    have hstart := le_roundUp size (alignment_pos arg)
    rcases List.mem_cons.mp hp with rfl | hp'
    · exact ⟨hstart, size_le_layout args _⟩
    · obtain ⟨hle, hend⟩ := ih _ p hp'
      exact ⟨Nat.le_trans (Nat.le_trans hstart (Nat.le_add_right _ _)) hle, hend⟩

theorem layout_pairwise (args : List (VarArg β)) : ∀ size,
    (layout args size).1.Pairwise fun p q => p.2 + p.1.area ≤ q.2 := by
  induction args with
  | nil => exact fun _ => List.Pairwise.nil
  | cons arg args ih =>
    intro size
    exact List.Pairwise.cons (fun q hq => (bounds_of_mem_layout args _ q hq).1) (ih _)

theorem alignment_dvd_of_mem_layout (args : List (VarArg β)) : ∀ size, ∀ p ∈ (layout args size).1,
    p.1.alignment ∣ p.2 := by
  induction args with
  | nil => exact fun size p hp => absurd hp List.not_mem_nil
  | cons arg args ih =>
    intro size p hp
    rcases List.mem_cons.mp hp with rfl | hp'
    · exact Nat.dvd_mul_left _ _
    · exact ih _ p hp'

theorem map_fst_layout (args : List (VarArg β)) : ∀ size, (layout args size).1.map Prod.fst = args := by
  induction args with
  | nil => exact fun _ => rfl
  | cons arg args ih => exact fun _ => congrArg (arg :: ·) (ih _)

def VarArg.Writable (arg : VarArg β) : Prop :=
  match arg.passed with
  | .value width _ => width = 1 ∨ width % 8 = 0
  | .byVal _ => True

def VarArg.written (arg : VarArg β) : Nat :=
  match arg.passed with
  | .value width _ => if width = 1 then 1 else width / 8
  | .byVal a => a.objectSize

theorem writes_isSome_iff (arg : VarArg β) (offset : Nat) :
    (∃ ws, arg.writes offset = some ws) ↔ arg.Writable := by
  unfold VarArg.writes VarArg.Writable
  cases arg.passed with
  | byVal a => simp
  | value width byte =>
    dsimp only
    split
    next hone => simp [hone]
    next hone =>
      split
      next hbytes => simp [hbytes]
      next hbytes => simp [hone, hbytes]

variable {arg : VarArg β} {ws : List (Nat × β)} {args : List (VarArg β)}

theorem mem_writes {offset : Nat} (h : arg.writes offset = some ws) (x : Nat) :
    (∃ w ∈ ws, w.1 = x) ↔ offset ≤ x ∧ x < offset + arg.written := by
  have hrange : ∀ (n : Nat) (byte : Nat → β),
      (∃ w ∈ (List.range n).map fun i => (offset + i, byte i), w.1 = x) ↔
      offset ≤ x ∧ x < offset + n := by
    intro n byte
    constructor
    · rintro ⟨w, hw, rfl⟩
      obtain ⟨i, hi, rfl⟩ := List.mem_map.mp hw
      have hlt := List.mem_range.mp hi
      exact ⟨Nat.le_add_right _ _, Nat.add_lt_add_left hlt _⟩
    · rintro ⟨hle, hlt⟩
      refine ⟨_, List.mem_map_of_mem (List.mem_range.mpr (by omega : x - offset < n)), ?_⟩
      exact Nat.add_sub_cancel' hle
  unfold VarArg.writes at h
  unfold VarArg.written
  cases hpassed : arg.passed with
  | byVal a =>
    rw [hpassed] at h
    cases h
    exact hrange _ _
  | value width byte =>
    rw [hpassed] at h
    dsimp only at h ⊢
    split at h
    next hone =>
      cases h
      rw [if_pos hone]
      simp only [List.mem_singleton, exists_eq_left]
      omega
    next hone =>
      rw [if_neg hone]
      split at h
      next =>
        cases h
        exact hrange _ _
      next => cases h

theorem written_le_area {width : Nat} {byte : Nat → β} (h : arg.passed = .value width byte) :
    arg.written ≤ arg.area := by
  have hwidth := width_le_area arg
  simp only [VarArg.argWidth, h] at hwidth
  simp only [VarArg.written, h]
  split <;> omega

theorem storeArguments_isSome_iff (placed : List (VarArg β × Nat)) :
    (∃ ws, storeArguments placed = some ws) ↔ ∀ p ∈ placed, p.1.Writable := by
  induction placed with
  | nil => simp [storeArguments]
  | cons p placed ih =>
    rw [List.forall_mem_cons, ← ih, ← writes_isSome_iff p.1 p.2, storeArguments]
    constructor
    · rintro ⟨ws, h⟩
      obtain ⟨now, hnow, h⟩ := Option.bind_eq_some_iff.mp h
      obtain ⟨later, hlater, -⟩ := Option.bind_eq_some_iff.mp h
      exact ⟨⟨now, hnow⟩, later, hlater⟩
    · rintro ⟨⟨now, hnow⟩, later, hlater⟩
      exact ⟨now ++ later, by rw [hnow, hlater]; rfl⟩

theorem storeArguments_cons {p : VarArg β × Nat} {placed : List (VarArg β × Nat)}
    (h : storeArguments (p :: placed) = some ws) :
    ∃ now later, p.1.writes p.2 = some now ∧ storeArguments placed = some later ∧ ws = now ++ later := by
  obtain ⟨now, hnow, h⟩ := Option.bind_eq_some_iff.mp h
  obtain ⟨later, hlater, h⟩ := Option.bind_eq_some_iff.mp h
  exact ⟨now, later, hnow, hlater, (Option.some.inj h).symm⟩

theorem mem_storeArguments {placed : List (VarArg β × Nat)} : ∀ {ws : List (Nat × β)}, storeArguments placed = some ws →
    ∀ x, (∃ w ∈ ws, w.1 = x) ↔ ∃ p ∈ placed, p.2 ≤ x ∧ x < p.2 + p.1.written := by
  induction placed with
  | nil =>
    intro ws h x
    cases h
    simp
  | cons p placed ih =>
    intro ws h x
    obtain ⟨now, later, hnow, hlater, rfl⟩ := storeArguments_cons h
    rw [List.exists_mem_cons_iff, ← mem_writes hnow x, ← ih hlater x]
    simp only [List.mem_append, or_and_right, exists_or]

theorem contents_append (before : Option β) (ws ws' : List (Nat × β)) (x : Nat) :
    contents before (ws ++ ws') x = contents (contents before ws x) ws' x := List.foldl_append

theorem contents_of_not_mem {before : Option β} {x : Nat} (h : ¬∃ w ∈ ws, w.1 = x) :
    contents before ws x = before := by
  induction ws generalizing before with
  | nil => rfl
  | cons w ws ih =>
    rw [List.exists_mem_cons_iff, not_or] at h
    have hrest : contents before (w :: ws) x = contents (if w.1 = x then some w.2 else before) ws x := rfl
    rw [hrest, if_neg h.1, ih h.2]

theorem contents_range (before : Option β) (offset n : Nat) (byte : Nat → β) {j : Nat} (hj : j < n) :
    contents before ((List.range n).map fun i => (offset + i, byte i)) (offset + j) = some (byte j) := by
  induction n with
  | zero => exact absurd hj (Nat.not_lt_zero j)
  | succ n ih =>
    rw [List.range_succ, List.map_append, contents_append]
    rcases Nat.lt_succ_iff_lt_or_eq.mp hj with hlt | rfl
    · rw [ih hlt]
      refine contents_of_not_mem ?_
      simp
      omega
    · simp [contents]

theorem size_le_area {a : ByValArg β} (h : arg.passed = .byVal a) : a.size ≤ arg.area := by
  have hwidth := width_le_area arg
  simp only [VarArg.argWidth, h] at hwidth
  omega

theorem contents_storeArguments (args : List (VarArg β)) : ∀ (size : Nat) (before : Option β) {ws : List (Nat × β)},
    storeArguments (layout args size).1 = some ws → ∀ p ∈ (layout args size).1, ∀ a, p.1.passed = .byVal a →
    ∀ j < a.size, contents before ws (p.2 + j) = some (a.byte j) := by
  induction args with
  | nil => exact fun size before ws _ p hp => absurd hp List.not_mem_nil
  | cons arg args ih =>
    intro size before ws h p hp a hpassed j hj
    obtain ⟨now, later, hnow, hlater, rfl⟩ := storeArguments_cons h
    rw [contents_append]
    rcases List.mem_cons.mp hp with rfl | hp'
    · -- the later arguments lie behind the area
      have hbehind : ¬∃ w ∈ later, w.1 = roundUp size arg.alignment + j := by
        rw [mem_storeArguments hlater]
        rintro ⟨q, hq, hle, -⟩
        have hstart := (bounds_of_mem_layout args _ q hq).1
        have hsize := size_le_area hpassed
        dsimp only at hsize
        omega
      dsimp only at hnow hpassed ⊢
      rw [contents_of_not_mem hbehind]
      rw [VarArg.writes, hpassed] at hnow
      cases hnow
      have hinside := a.inside
      exact contents_range before _ a.objectSize a.byte (by omega)
    · exact ih _ _ hlater p hp' a hpassed j hj

theorem mem_layout_iff (size : Nat) (arg : VarArg β) :
    arg ∈ args ↔ ∃ p ∈ (layout args size).1, p.1 = arg := by
  rw [← List.mem_map, map_fst_layout]

theorem alignment_dvd_objectAlignment (harg : arg ∈ args)
    (h : ∀ align, arg.paramAlign = some align → align.1 ∣ objectAlignment args) :
    arg.alignment ∣ objectAlignment args := by
  unfold VarArg.alignment
  cases hparam : arg.paramAlign with
  | some align => exact h align hparam
  | none =>
    dsimp only
    split
    next hwide =>
      have hany : args.any (·.requires16ByteAlignment) = true :=
        List.any_eq_true.mpr ⟨arg, harg, by simp [VarArg.requires16ByteAlignment, hparam, hwide]⟩
      rw [objectAlignment, if_pos hany]
    next =>
      unfold objectAlignment
      split <;> decide

theorem inside_iff (h : storeArguments (layout args 0).1 = some ws) :
    (∀ w ∈ ws, w.1 < (layout args 0).2) ↔
      ∀ p ∈ (layout args 0).1, ∀ a, p.1.passed = .byVal a → p.2 + a.objectSize ≤ (layout args 0).2 := by
  constructor
  · intro hinside p hp a hpassed
    have hend := (bounds_of_mem_layout args 0 p hp).2
    rcases Nat.eq_zero_or_pos a.objectSize with hzero | hpos
    · omega
    · have hwritten : p.1.written = a.objectSize := by simp only [VarArg.written, hpassed]
      obtain ⟨w, hw, hlast⟩ := (mem_storeArguments h (p.2 + a.objectSize - 1)).mpr ⟨p, hp, by omega, by omega⟩
      have hlt := hinside w hw
      omega
  · intro hobjects w hw
    obtain ⟨p, hp, hle, hlt⟩ := (mem_storeArguments h w.1).mp ⟨w, hw, rfl⟩
    have hend := (bounds_of_mem_layout args 0 p hp).2
    cases hpassed : p.1.passed with
    | value width byte =>
      have harea := written_le_area hpassed
      omega
    | byVal a =>
      have hwritten : p.1.written = a.objectSize := by simp only [VarArg.written, hpassed]
      have hobject := hobjects p hp a hpassed
      omega

/-- The arguments are laid out as they should be, wherever an object of the alignment asked for is allocated, exactly
if every value is one bit or some bytes, every object that is copied fits from its argument to the end, its beginning is
what the pointer points to, and no explicit alignment is larger than that of the object. -/
theorem laidOut_iff (args : List (VarArg β)) :
    (∀ address, objectAlignment args ∣ address → LaidOut args address) ↔
      (∀ arg ∈ args, arg.Writable) ∧
      (∀ p ∈ (layout args 0).1, ∀ a, p.1.passed = .byVal a → p.2 + a.objectSize ≤ (layout args 0).2) ∧
      (∀ arg ∈ args, ∀ a, arg.passed = .byVal a → ∀ j < a.size, a.byte j = a.byte (a.offset + j)) ∧
      ∀ arg ∈ args, ∀ align, arg.paramAlign = some align → align.1 ∣ objectAlignment args := by
  constructor
  · intro h
    obtain ⟨ws, hws, hinside, -, halign, hcopies⟩ := h (objectAlignment args) (Nat.dvd_refl _)
    refine ⟨fun arg harg => ?_, (inside_iff hws).mp hinside, fun arg harg a hpassed j hj => ?_,
      fun arg harg align hparam => ?_⟩
    · obtain ⟨p, hp, rfl⟩ := (mem_layout_iff 0 arg).mp harg
      exact (storeArguments_isSome_iff _).mp ⟨ws, hws⟩ p hp
    · obtain ⟨p, hp, rfl⟩ := (mem_layout_iff 0 arg).mp harg
      have hbyte := (hcopies p hp a hpassed).2 j hj
      rw [contents_storeArguments args 0 none hws p hp a hpassed j hj] at hbyte
      exact Option.some.inj hbyte
    · obtain ⟨p, hp, rfl⟩ := (mem_layout_iff 0 arg).mp harg
      have hrequired : p.1.alignment = align.1 := by rw [VarArg.alignment, hparam]
      have hdvd := (Nat.dvd_add_left (alignment_dvd_of_mem_layout args 0 p hp)).mp (halign p hp)
      exact hrequired ▸ hdvd
  · rintro ⟨hwritable, hobjects, hcopies, hparams⟩ address haddress
    obtain ⟨ws, hws⟩ := (storeArguments_isSome_iff (layout args 0).1).mpr fun p hp =>
      hwritable p.1 ((mem_layout_iff 0 p.1).mpr ⟨p, hp, rfl⟩)
    refine ⟨ws, hws, (inside_iff hws).mpr hobjects, layout_pairwise args 0, fun p hp => ?_,
      fun p hp a hpassed => ⟨size_le_area hpassed, fun j hj => ?_⟩⟩
    · have harg : p.1 ∈ args := (mem_layout_iff 0 p.1).mpr ⟨p, hp, rfl⟩
      have hdvd := alignment_dvd_objectAlignment harg (hparams p.1 harg)
      exact Nat.dvd_add (hdvd.trans haddress) (alignment_dvd_of_mem_layout args 0 p hp)
    · have harg : p.1 ∈ args := (mem_layout_iff 0 p.1).mpr ⟨p, hp, rfl⟩
      rw [contents_storeArguments args 0 none hws p hp a hpassed j hj, hcopies p.1 harg a hpassed j hj]

def secondElement : VarArg Nat := ⟨some ⟨8, by decide⟩, .byVal ⟨16, 32, id, 16, by decide⟩⟩

/-- All of the object is copied, from its beginning, and not all of it fits. -/
theorem secondElement_overflows :
    objectAlignment [secondElement] ∣ 16 ∧ (layout [secondElement] 0).2 = 16 ∧ ¬LaidOut [secondElement] 16 := by
  refine ⟨by decide, by decide, ?_⟩
  rintro ⟨ws, hws, hinside, -⟩
  have hfits := (inside_iff hws).mp hinside (secondElement, 0) (by simp [layout, roundUp_zero]) _ rfl
  exact absurd hfits (by decide)

end VarArgs

end CgsKlee
