import CgsKlee.Lib.Bytes
import Mathlib.Data.List.Chain
import Mathlib.Data.List.GetD
import Mathlib.Data.Nat.Bitwise

/-!
# Path streams

A `TreeStreamWriter` keeps many byte streams in one file.  A stream is opened with a parent and goes on where the
parent is at that moment; what is written to the parent later belongs to the parent only.  The file is a row
of records: a fork `(parent, child | 1 << 31)` and a chunk `(stream, size, bytes)`.  Writes are held back in a
buffer for one stream at a time.

`readStream` reads the file twice: the first time to find the chain of ancestors of the stream, the second time
to take over the chunks of the ancestor that is current, moving on at the fork that leads to the stream.
-/

namespace CgsKlee

open Bytes

namespace TreeStream

def bufferSize : Nat := 4 * 4096

/-- A `TreeStreamWriter`; `buffer` holds the `bufferCount` bytes in use, and `output` what the file holds. -/
structure TreeStreamWriter where
  lastID : Nat
  buffer : List UInt8
  output : List UInt8
  ids : Nat

namespace TreeStreamWriter

def init : TreeStreamWriter := ⟨0, [], [], 1⟩

def bufferCount (w : TreeStreamWriter) : Nat := w.buffer.length

def header (id tag : Nat) : List UInt8 := le 4 id ++ le 4 tag

def flushBuffer (w : TreeStreamWriter) : TreeStreamWriter :=
  if w.bufferCount ≠ 0 then
    { w with output := w.output ++ (header w.lastID w.bufferCount ++ w.buffer), buffer := [] }
  else w

/-- `TreeStreamWriter::flush`; what `output->flush` hands to the system is in `output` already. -/
def flush (w : TreeStreamWriter) : TreeStreamWriter := w.flushBuffer

/-- `open(const TreeOStream &)`: the new stream's id and the writer.  `open()` opens a stream under the id `0`. -/
def openStream (w : TreeStreamWriter) (os : Nat) : Nat × TreeStreamWriter :=
  let w := w.flushBuffer
  let id := w.ids
  let tag := id ||| (1 <<< 31)
  (id, { w with output := w.output ++ header os tag, ids := w.ids + 1 })

def write (w : TreeStreamWriter) (os : Nat) (s : List UInt8) : TreeStreamWriter :=
  let w :=
    if w.bufferCount ≠ 0 ∧ (os ≠ w.lastID ∨ bufferSize < s.length + w.bufferCount) then w.flushBuffer else w
  if w.bufferCount ≠ 0 then { w with buffer := w.buffer ++ s }
  else if s.length < bufferSize then { w with lastID := os, buffer := s }
  else { w with output := w.output ++ (header os s.length ++ s) }

end TreeStreamWriter

/-! ## Reading -/

/-- `is.read` of four bytes; `none` when the file ends before. -/
def readUnsigned (f : List UInt8) : Option (Nat × List UInt8) :=
  if 4 ≤ f.length then some (toNat (f.take 4), f.drop 4) else none

theorem readUnsigned_length {f f' : List UInt8} {v : Nat} (h : readUnsigned f = some (v, f')) :
    f'.length < f.length := by
  unfold readUnsigned at h
  split at h
  · simp only [Option.some.injEq, Prod.mk.injEq] at h
    rw [← h.2, List.length_drop]
    omega
  · cases h

/-- The map `parents`; `std::map::insert` keeps an entry that is there. -/
def insertParent (parents : List (Nat × Nat)) (child id : Nat) : List (Nat × Nat) :=
  if (parents.lookup child).isSome then parents else (child, id) :: parents

/-- The loop `while (id)`.  `roots` has the back of the vector at its head; `none` is the failed assertion.  The
loop visits no entry of `parents` twice unless it runs forever, hence the fuel. -/
def ancestors (parents : List (Nat × Nat)) : Nat → Nat → List Nat → Option (List Nat)
  | fuel, id, roots =>
    if id = 0 then some roots
    else
      match fuel with
      | 0 => none
      | fuel + 1 =>
        match parents.lookup id with
        | none => none
        | some p => ancestors parents fuel p (id :: roots)

/-- The first pass: the chain from the root ancestor to the stream.  `none` stands for a file that ends before
the stream was opened. -/
def findChain (streamID : Nat) (f : List UInt8) (parents : List (Nat × Nat)) : Option (List Nat) :=
  match h : readUnsigned f with
  | none => none
  | some (id, f₁) =>
    match h₁ : readUnsigned f₁ with
    | none => none
    | some (tag, f₂) =>
      have hlt : f₂.length < f.length := (readUnsigned_length h₁).trans (readUnsigned_length h)
      if tag &&& (1 <<< 31) ≠ 0 then
        let child := tag ^^^ (1 <<< 31)
        if child = streamID then ancestors parents (parents.length + 1) id [child]
        else findChain streamID f₂ (insertParent parents child id)
      else if f₂.length < tag then none
      else findChain streamID (f₂.drop tag) parents
termination_by f.length
decreasing_by
  · exact hlt
  · rw [List.length_drop]
    omega

/-- `size` calls of `is.get()`, which is `EOF` (`255` as a byte) behind the end. -/
def getBytes (size : Nat) (f : List UInt8) : List UInt8 :=
  f.take size ++ List.replicate (size - f.length) 255

def collect (f : List UInt8) (roots : List Nat) (out : List UInt8) : List UInt8 :=
  match h : readUnsigned f with
  | none => out
  | some (id, f₁) =>
    match h₁ : readUnsigned f₁ with
    | none => out
    | some (tag, f₂) =>
      have hlt : f₂.length < f.length := (readUnsigned_length h₁).trans (readUnsigned_length h)
      if tag &&& (1 <<< 31) ≠ 0 then
        let child := tag ^^^ (1 <<< 31)
        if roots.head? = some id ∧ 1 < roots.length ∧ roots[1]? = some child then collect f₂ roots.tail out
        else collect f₂ roots out
      else if roots.head? = some id then collect (f₂.drop tag) roots (out ++ getBytes tag f₂)
      else collect (f₂.drop tag) roots out
termination_by f.length
decreasing_by
  · exact hlt
  · exact hlt
  · rw [List.length_drop]
    omega
  · rw [List.length_drop]
    omega

/-- `TreeStreamWriter::readStream`: the bytes are appended to `out`; the buffer is flushed first. -/
def TreeStreamWriter.readStream (w : TreeStreamWriter) (streamID : Nat) (out : List UInt8) :
    Option (List UInt8 × TreeStreamWriter) :=
  if 0 < streamID ∧ streamID < w.ids then
    let w := w.flush
    match findChain streamID w.output [] with
    | none => none
    | some roots => some (collect w.output roots out, w)
  else none

/-! ## Histories -/

/-- The calls of a writer.  `openStream 0` is `open()`; streams are numbered from `1` in the order of opening. -/
inductive Op
  | openStream (parent : Nat)
  | write (id : Nat) (s : List UInt8)
  | flush
  deriving DecidableEq

def TreeStreamWriter.step (w : TreeStreamWriter) : Op → TreeStreamWriter
  | .openStream parent => (w.openStream parent).2
  | .write id s => w.write id s
  | .flush => w.flush

def run (ops : List Op) : TreeStreamWriter := ops.foldl TreeStreamWriter.step .init

def parentsOf : List Op → List Nat
  | [] => []
  | .openStream p :: ops => p :: parentsOf ops
  | _ :: ops => parentsOf ops

/-- A history that starts with `n` open streams: streams are opened under and bytes are written to open streams
only, and ids and sizes stay below `2 ^ 31`. -/
def Valid : Nat → List Op → Prop
  | _, [] => True
  | n, .openStream p :: ops => (p ≤ n ∧ n + 1 < 2 ^ 31) ∧ Valid (n + 1) ops
  | n, .write id s :: ops => (0 < id ∧ id ≤ n ∧ s.length < 2 ^ 31) ∧ Valid n ops
  | n, .flush :: ops => Valid n ops

instance decidableValid : (n : Nat) → (ops : List Op) → Decidable (Valid n ops)
  | _, [] => .isTrue trivial
  | n, .openStream p :: ops =>
    have := decidableValid (n + 1) ops
    inferInstanceAs (Decidable ((p ≤ n ∧ n + 1 < 2 ^ 31) ∧ Valid (n + 1) ops))
  | n, .write id s :: ops =>
    have := decidableValid n ops
    inferInstanceAs (Decidable ((0 < id ∧ id ≤ n ∧ s.length < 2 ^ 31) ∧ Valid n ops))
  | n, .flush :: ops => decidableValid n ops

def written (id : Nat) : List Op → List UInt8
  | [] => []
  | .write i s :: ops => (if i = id then s else []) ++ written id ops
  | _ :: ops => written id ops

def openedAt : List Op → Nat → Option (Nat × Nat)
  | [], _ => none
  | .openStream p :: ops, id =>
    if id = 1 then some (0, p) else (openedAt ops (id - 1)).map fun (k, q) => (k + 1, q)
  | _ :: ops, id => (openedAt ops id).map fun (k, q) => (k + 1, q)

theorem openedAt_lt {ops : List Op} {id k p : Nat} (h : openedAt ops id = some (k, p)) : k < ops.length := by
  induction ops generalizing id k p with
  | nil => simp [openedAt] at h
  | cons op ops ih =>
    cases op <;> simp only [openedAt] at h
    · split at h
      · simp only [Option.some.injEq, Prod.mk.injEq] at h
        simp only [List.length_cons]
        omega
      · obtain ⟨⟨k', q⟩, hk, heq⟩ := Option.map_eq_some_iff.mp h
        simp only [Prod.mk.injEq] at heq
        have := ih hk
        simp only [List.length_cons]
        omega
    all_goals
      obtain ⟨⟨k', q⟩, hk, heq⟩ := Option.map_eq_some_iff.mp h
      simp only [Prod.mk.injEq] at heq
      have := ih hk
      simp only [List.length_cons]
      omega

/-- What a stream is meant to hold: what its parent held when the stream was opened, then its own bytes. -/
def expected (ops : List Op) (id : Nat) : List UInt8 :=
  match h : openedAt ops id with
  | none => []
  | some (k, p) =>
    have := openedAt_lt h
    expected (ops.take k) p ++ written id ops
termination_by ops.length

/-! ## One call more -/

def opens (ops : List Op) : Nat := (parentsOf ops).length

theorem parentsOf_append (a b : List Op) : parentsOf (a ++ b) = parentsOf a ++ parentsOf b := by
  induction a with
  | nil => rfl
  | cons op a ih => cases op <;> simp [parentsOf, ih]

theorem opens_append (a b : List Op) : opens (a ++ b) = opens a + opens b := by
  rw [opens, parentsOf_append, List.length_append]
  rfl

theorem written_append (id : Nat) (a b : List Op) : written id (a ++ b) = written id a ++ written id b := by
  induction a with
  | nil => rfl
  | cons op a ih => cases op <;> simp [written, ih]

theorem valid_append {n : Nat} {a b : List Op} : Valid n (a ++ b) ↔ Valid n a ∧ Valid (n + opens a) b := by
  induction a generalizing n with
  | nil => simp [Valid, opens, parentsOf]
  | cons op a ih =>
    cases op <;> simp only [List.cons_append, Valid, ih, opens, parentsOf, List.length_cons, and_assoc]
    rw [show n + 1 + (parentsOf a).length = n + ((parentsOf a).length + 1) by omega]

theorem written_eq_nil {n id : Nat} {ops : List Op} (hv : Valid n ops) (h : n + opens ops < id) :
    written id ops = [] := by
  induction ops generalizing n with
  | nil => rfl
  | cons op ops ih =>
    cases op with
    | openStream p =>
      simp only [opens, parentsOf, List.length_cons] at h
      exact ih hv.2 (by simp only [opens]; omega)
    | write i s =>
      simp only [opens, parentsOf] at h
      have hi : i ≠ id := by
        have := hv.1.2.1
        omega
      simp only [written, if_neg hi, List.nil_append]
      exact ih hv.2 h
    | flush => exact ih hv h

theorem openedAt_zero (ops : List Op) : openedAt ops 0 = none := by
  induction ops with
  | nil => rfl
  | cons op ops ih => cases op <;> simp [openedAt, ih]

theorem openedAt_append {a b : List Op} {id : Nat} (h : id ≤ opens a) : openedAt (a ++ b) id = openedAt a id := by
  induction a generalizing id with
  | nil =>
    obtain rfl : id = 0 := by simpa [opens, parentsOf] using h
    rw [openedAt_zero, openedAt_zero]
  | cons op a ih =>
    cases op with
    | openStream p =>
      simp only [opens, parentsOf, List.length_cons] at h
      have h' : id - 1 ≤ opens a := by
        simp only [opens]
        omega
      simp only [List.cons_append, openedAt, ih h']
    | write i s => simp only [List.cons_append, openedAt, ih h]
    | flush => simp only [List.cons_append, openedAt, ih h]

theorem openedAt_last (ops : List Op) (p : Nat) :
    openedAt (ops ++ [.openStream p]) (opens ops + 1) = some (ops.length, p) := by
  induction ops with
  | nil => rfl
  | cons op ops ih =>
    cases op with
    | openStream q =>
      have hne : opens (.openStream q :: ops) + 1 ≠ 1 := by simp [opens, parentsOf]
      have hsub : opens (.openStream q :: ops) + 1 - 1 = opens ops + 1 := by simp [opens, parentsOf]
      simp only [List.cons_append, openedAt, if_neg hne, hsub, ih]
      rfl
    | write i s => simpa [openedAt, opens, parentsOf] using ih
    | flush => simpa [openedAt, opens, parentsOf] using ih

theorem openedAt_isSome {ops : List Op} {id : Nat} (h0 : 0 < id) (h : id ≤ opens ops) :
    ∃ k p, openedAt ops id = some (k, p) := by
  induction ops generalizing id with
  | nil =>
    simp only [opens, parentsOf, List.length_nil] at h
    omega
  | cons op ops ih =>
    cases op with
    | openStream p =>
      by_cases h1 : id = 1
      · exact ⟨0, p, by simp [openedAt, h1]⟩
      · simp only [opens, parentsOf, List.length_cons] at h
        have h0' : 0 < id - 1 := by omega
        obtain ⟨k, q, hk⟩ := ih h0' (by simp only [opens]; omega)
        exact ⟨k + 1, q, by simp [openedAt, h1, hk]⟩
    | write i s =>
      obtain ⟨k, q, hk⟩ := ih h0 h
      exact ⟨k + 1, q, by simp [openedAt, hk]⟩
    | flush =>
      obtain ⟨k, q, hk⟩ := ih h0 h
      exact ⟨k + 1, q, by simp [openedAt, hk]⟩

theorem expected_zero (ops : List Op) : expected ops 0 = [] := by
  rw [expected]
  split
  · rfl
  · rename_i h
    rw [openedAt_zero] at h
    cases h

theorem expected_of_openedAt {ops : List Op} {id k p : Nat} (h : openedAt ops id = some (k, p)) :
    expected ops id = expected (ops.take k) p ++ written id ops := by
  rw [expected]
  split
  · rename_i h'
    rw [h] at h'
    cases h'
  · rename_i h'
    rw [h, Option.some.injEq, Prod.mk.injEq] at h'
    rw [h'.1, h'.2]

theorem expected_append {a b : List Op} {id : Nat} (h0 : 0 < id) (h : id ≤ opens a) :
    expected (a ++ b) id = expected a id ++ written id b := by
  obtain ⟨k, p, hk⟩ := openedAt_isSome h0 h
  have hle : k ≤ a.length := (openedAt_lt hk).le
  rw [expected_of_openedAt hk, expected_of_openedAt ((openedAt_append h).trans hk), written_append,
    List.take_append_of_le_length hle, List.append_assoc]

theorem expected_open {ops : List Op} (hv : Valid 0 ops) (p : Nat) :
    expected (ops ++ [.openStream p]) (opens ops + 1) = expected ops p := by
  rw [expected_of_openedAt (openedAt_last ops p), written_append, List.take_left,
    written_eq_nil hv (by omega)]
  simp [written]

/-! ## The file of a history -/

theorem readUnsigned_le {v : Nat} (h : v < 2 ^ 32) (rest : List UInt8) :
    readUnsigned (le 4 v ++ rest) = some (v, rest) := by
  have hlen : (le 4 v).length = 4 := length_le 4 v
  have h4 : 4 ≤ (le 4 v ++ rest).length := by
    rw [List.length_append]
    omega
  have ht : (le 4 v ++ rest).take 4 = le 4 v := List.take_left' hlen
  have hd : (le 4 v ++ rest).drop 4 = rest := List.drop_left' hlen
  rw [readUnsigned, if_pos h4, ht, hd, toNat_le_of_lt (by norm_num at h ⊢; exact h)]

theorem fork_tag {id : Nat} (h : id < 2 ^ 31) :
    (id ||| 1 <<< 31) < 2 ^ 32 ∧ (id ||| 1 <<< 31) &&& (1 <<< 31) ≠ 0 ∧ (id ||| 1 <<< 31) ^^^ (1 <<< 31) = id := by
  have hor : id ||| 1 <<< 31 = 2 ^ 31 + id := by
    have := Nat.two_pow_add_eq_or_of_lt h 1
    rw [mul_one] at this
    rw [this, Nat.or_comm, Nat.shiftLeft_eq, one_mul]
  have hbit : (id ||| 1 <<< 31).testBit 31 = true := by
    rw [hor, Nat.testBit_two_pow_add_eq, Nat.testBit_lt_two_pow h]
    rfl
  refine ⟨by rw [hor]; omega, ?_, ?_⟩
  · rw [Nat.shiftLeft_eq, one_mul, Nat.and_two_pow, ← one_mul (2 ^ 31), ← Nat.shiftLeft_eq, hbit]
    decide
  · apply Nat.eq_of_testBit_eq
    intro i
    rw [Nat.testBit_xor, Nat.testBit_or, Nat.shiftLeft_eq, one_mul, Nat.testBit_two_pow]
    by_cases hi : 31 = i
    · subst hi
      simp [Nat.testBit_lt_two_pow h]
    · simp [hi]

theorem chunk_tag {size : Nat} (h : size < 2 ^ 31) : size &&& (1 <<< 31) = 0 := by
  rw [Nat.shiftLeft_eq, one_mul, Nat.and_two_pow, Nat.testBit_lt_two_pow h]
  rfl

/-- The record of a call; `n` streams are open. -/
def opBytes (n : Nat) : Op → List UInt8
  | .openStream p => TreeStreamWriter.header p ((n + 1) ||| 1 <<< 31)
  | .write id s => TreeStreamWriter.header id s.length ++ s
  | .flush => []

def opsBytes : Nat → List Op → List UInt8
  | _, [] => []
  | n, op :: ops => opBytes n op ++ opsBytes (n + opens [op]) ops

theorem opsBytes_openStream (n p : Nat) (ops : List Op) :
    opsBytes n (.openStream p :: ops) = opBytes n (.openStream p) ++ opsBytes (n + 1) ops := rfl

theorem opsBytes_append (n : Nat) (a b : List Op) :
    opsBytes n (a ++ b) = opsBytes n a ++ opsBytes (n + opens a) b := by
  induction a generalizing n with
  | nil => rfl
  | cons op a ih =>
    have ho : opens (op :: a) = opens [op] + opens a := opens_append [op] a
    rw [List.cons_append, opsBytes, opsBytes, ih, List.append_assoc, ho, Nat.add_assoc]

/-! ## Reading one record -/

variable {streamID : Nat} {parents : List (Nat × Nat)} {roots : List Nat} {out rest s : List UInt8} {p n id : Nat}

theorem findChain_of_read {f f₁ f₂ : List UInt8} {tag : Nat} (h : readUnsigned f = some (id, f₁))
    (h₁ : readUnsigned f₁ = some (tag, f₂)) :
    findChain streamID f parents =
      if tag &&& (1 <<< 31) ≠ 0 then
        if tag ^^^ (1 <<< 31) = streamID then
          ancestors parents (parents.length + 1) id [tag ^^^ (1 <<< 31)]
        else findChain streamID f₂ (insertParent parents (tag ^^^ (1 <<< 31)) id)
      else if f₂.length < tag then none
      else findChain streamID (f₂.drop tag) parents := by
  rw [findChain]
  split
  · rename_i h'
    rw [h] at h'
    cases h'
  · rename_i id' f₁' h'
    rw [h, Option.some.injEq, Prod.mk.injEq] at h'
    obtain ⟨rfl, rfl⟩ := h'
    split
    · rename_i h'
      rw [h₁] at h'
      cases h'
    · rename_i tag' f₂' h'
      rw [h₁, Option.some.injEq, Prod.mk.injEq] at h'
      obtain ⟨rfl, rfl⟩ := h'
      rfl

theorem collect_of_read {f f₁ f₂ : List UInt8} {tag : Nat} (h : readUnsigned f = some (id, f₁))
    (h₁ : readUnsigned f₁ = some (tag, f₂)) :
    collect f roots out =
      if tag &&& (1 <<< 31) ≠ 0 then
        if roots.head? = some id ∧ 1 < roots.length ∧ roots[1]? = some (tag ^^^ (1 <<< 31)) then
          collect f₂ roots.tail out
        else collect f₂ roots out
      else if roots.head? = some id then collect (f₂.drop tag) roots (out ++ getBytes tag f₂)
      else collect (f₂.drop tag) roots out := by
  rw [collect]
  split
  · rename_i h'
    rw [h] at h'
    cases h'
  · rename_i id' f₁' h'
    rw [h, Option.some.injEq, Prod.mk.injEq] at h'
    obtain ⟨rfl, rfl⟩ := h'
    split
    · rename_i h'
      rw [h₁] at h'
      cases h'
    · rename_i tag' f₂' h'
      rw [h₁, Option.some.injEq, Prod.mk.injEq] at h'
      obtain ⟨rfl, rfl⟩ := h'
      rfl

theorem findChain_fork (hp : p < 2 ^ 32) (hn : n + 1 < 2 ^ 31) :
    findChain streamID (opBytes n (.openStream p) ++ rest) parents =
      if n + 1 = streamID then ancestors parents (parents.length + 1) p [n + 1]
      else findChain streamID rest (insertParent parents (n + 1) p) := by
  obtain ⟨hlt, hand, hxor⟩ := fork_tag hn
  rw [opBytes, TreeStreamWriter.header, List.append_assoc,
    findChain_of_read (readUnsigned_le hp _) (readUnsigned_le hlt _), if_pos hand, hxor]

theorem findChain_chunk (hid : id < 2 ^ 32) (hs : s.length < 2 ^ 31) :
    findChain streamID (opBytes n (.write id s) ++ rest) parents = findChain streamID rest parents := by
  have hlt : s.length < 2 ^ 32 := by omega
  have hnot : ¬(s.length &&& 1 <<< 31 ≠ 0) := by simpa using chunk_tag hs
  have hle : ¬((s ++ rest).length < s.length) := by
    rw [List.length_append]
    omega
  rw [opBytes, TreeStreamWriter.header, List.append_assoc, List.append_assoc,
    findChain_of_read (readUnsigned_le hid _) (readUnsigned_le hlt _), if_neg hnot, if_neg hle, List.drop_left]

theorem collect_fork (hp : p < 2 ^ 32) (hn : n + 1 < 2 ^ 31) :
    collect (opBytes n (.openStream p) ++ rest) roots out =
      if roots.head? = some p ∧ 1 < roots.length ∧ roots[1]? = some (n + 1) then collect rest roots.tail out
      else collect rest roots out := by
  obtain ⟨hlt, hand, hxor⟩ := fork_tag hn
  rw [opBytes, TreeStreamWriter.header, List.append_assoc,
    collect_of_read (readUnsigned_le hp _) (readUnsigned_le hlt _), if_pos hand, hxor]

theorem collect_chunk (hid : id < 2 ^ 32) (hs : s.length < 2 ^ 31) :
    collect (opBytes n (.write id s) ++ rest) roots out =
      collect rest roots (if roots.head? = some id then out ++ s else out) := by
  have hlt : s.length < 2 ^ 32 := by omega
  have hnot : ¬(s.length &&& 1 <<< 31 ≠ 0) := by simpa using chunk_tag hs
  have hget : getBytes s.length (s ++ rest) = s := by
    simp [getBytes]
  rw [opBytes, TreeStreamWriter.header, List.append_assoc, List.append_assoc,
    collect_of_read (readUnsigned_le hid _) (readUnsigned_le hlt _), if_neg hnot, List.drop_left, hget]
  by_cases hr : roots.head? = some id
  · rw [if_pos hr, if_pos hr]
  · rw [if_neg hr, if_neg hr]

theorem collect_nil : collect [] roots out = out := by
  rw [collect]
  rfl

end TreeStream

end CgsKlee
