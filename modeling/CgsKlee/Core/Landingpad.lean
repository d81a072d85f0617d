import CgsKlee.Lib.Bytes
import Mathlib.Data.List.Basic

/-!
# Landing-pad clauses

`Executor::serializeLandingpad` writes the clauses of a `landingpad` instruction to a buffer, and the personality
function of the runtime, `_klee_eh_cxx_personality`, reads them there while the exception is looked for.  A catch
clause is a byte `0` and the address of its type, a filter of `n` types is a byte `n + 1` and their addresses, and
a null address stands for every type.

When a type of a filter matches, the reader leaves the loop over the filter's types and goes on reading behind
the type that matched, and not behind the filter.  Clauses are read at their own boundaries exactly as long as
every filter that is met and does not apply matches with its last type only (`personality_iff`).
-/

namespace CgsKlee

open Bytes

namespace Landingpad

/-! ## The writer -/

structure Address where
  toNat : Nat
  pos : 0 < toNat
  lt : toNat < 2 ^ 64
  deriving DecidableEq

/-- What a clause or an element of a filter can be: a bitcast of a global value, which has an address, or of
something else, a null value, or something else. -/
inductive Constant
  | bitcastGlobal (address : Address)
  | bitcastOther
  | nullValue
  | other
  deriving DecidableEq

inductive Clause
  | catchClause (c : Constant)
  | filterNull
  | filterArray (operands : List Constant)
  deriving DecidableEq

/-- Why a landing pad is not serialized.  `nullAddress` is the dereference of a missing entry of
`globalAddresses`. -/
inductive Refusal
  | terminateStateOnExecError (message : String)
  | nullAddress
  deriving DecidableEq

def serializeCatch : Constant → Except Refusal (List UInt8)
  | .bitcastGlobal a => .ok (0 :: le 8 a.toNat)
  | .bitcastOther => .error .nullAddress
  | .nullValue => .ok (0 :: le 8 0)
  | .other => .error (.terminateStateOnExecError "Internal: Clause is not a bitcast or null (catch-all)")

/-- One round of the loop over the operands of a filter. -/
def serializeOperand : Constant → Except Refusal (List UInt8)
  | .bitcastGlobal a => .ok (le 8 a.toNat)
  | .bitcastOther => .error (.terminateStateOnExecError
      "Internal: expected value inside a filter-clause bitcast to be a GlobalValue")
  | _ => .error (.terminateStateOnExecError "Internal: expected value inside a filter-clause to be a bitcast")

def serializeOperands : List Constant → Except Refusal (List UInt8)
  | [] => .ok []
  | c :: cs => do
    let b ← serializeOperand c
    let bs ← serializeOperands cs
    return b ++ bs

def serializeClause : Clause → Except Refusal (List UInt8)
  | .catchClause c => serializeCatch c
  | .filterNull => .ok (1 :: List.replicate 8 0)
  | .filterArray operands =>
    if 255 ≤ operands.length then
      .error (.terminateStateOnExecError "Internal: too many elements in landingpad filter")
    else do
      let bs ← serializeOperands operands
      return UInt8.ofNat (operands.length + 1) :: bs

/-- `Executor::serializeLandingpad`: the contents of the memory object. -/
def serializeLandingpad : List Clause → Except Refusal (List UInt8)
  | [] => .ok []
  | c :: cs => do
    let b ← serializeClause c
    let bs ← serializeLandingpad cs
    return b ++ bs

/-! ## The reader -/

/-- What the personality function knows about the exception: the thrown object, `_klee_eh_can_catch` for its
type (the adjusted pointer if the type given catches it) and `klee_eh_typeid_for`. -/
structure Exception where
  exceptionObjectPtr : Nat
  canCatch : Nat → Option Nat
  typeidFor : Nat → Int

/-- Eight bytes at the current position; `none` is a read outside the buffer. -/
def readPointer (f : List UInt8) : Option (Nat × List UInt8) :=
  if 8 ≤ f.length then some (toNat (f.take 8), f.drop 8) else none

/-- How the loop over the types of a filter ends: the function returns `-1`, or it goes on at `rest`. -/
inductive FilterEnd
  | refused (adjustedPtr : Nat)
  | matched (adjustedPtr : Nat) (rest : List UInt8)
  deriving DecidableEq

def filterLoop (exc : Exception) : Nat → Nat → List UInt8 → Option FilterEnd
  | 0, adjustedPtr, _ => some (.refused adjustedPtr)
  | numFilters + 1, adjustedPtr, f => do
    let (catcher, f) ← readPointer f
    if catcher = 0 then some (.refused exc.exceptionObjectPtr)
    else
      match exc.canCatch catcher with
      | some p => some (.matched p f)
      | none => filterLoop exc numFilters adjustedPtr f

/-- The return value, `exception->adjustedPtr`, and the positions at which a clause was read. -/
structure Outcome where
  value : Int
  adjustedPtr : Nat
  visited : List Nat
  deriving DecidableEq

def Outcome.visit (pos : Nat) (o : Outcome) : Outcome := { o with visited := pos :: o.visited }

/-- The loop over the clauses, with the bytes from the current position on.  A round reads at least one byte, so
`numBytes` rounds are enough. -/
def clauseLoop (exc : Exception) (numBytes : Nat) : Nat → Nat → List UInt8 → Option Outcome
  | _, adjustedPtr, [] => some ⟨0, adjustedPtr, []⟩
  | 0, _, _ :: _ => none
  | fuel + 1, adjustedPtr, type :: f =>
    let pos := numBytes - (f.length + 1)
    if type = 0 then
      match readPointer f with
      | none => none
      | some (catcherType, f) =>
        if catcherType = 0 then some ⟨exc.typeidFor catcherType, exc.exceptionObjectPtr, [pos]⟩
        else
          match exc.canCatch catcherType with
          | some p => some ⟨exc.typeidFor catcherType, p, [pos]⟩
          | none => (clauseLoop exc numBytes fuel adjustedPtr f).map (Outcome.visit pos)
    else
      match filterLoop exc (type - 1).toNat adjustedPtr f with
      | none => none
      | some (.refused p) => some ⟨-1, p, [pos]⟩
      | some (.matched p f) => (clauseLoop exc numBytes fuel p f).map (Outcome.visit pos)

/-- `_klee_eh_cxx_personality` over a whole buffer; `adjustedPtr` is what the exception holds before. -/
def personality (exc : Exception) (adjustedPtr : Nat) (bytes : List UInt8) : Option Outcome :=
  clauseLoop exc bytes.length bytes.length adjustedPtr bytes

/-! ## What the clauses mean -/

def Constant.address : Constant → Nat
  | .bitcastGlobal a => a.toNat
  | _ => 0

def Constant.catches (exc : Exception) (c : Constant) : Bool := (exc.canCatch c.address).isSome

def Clause.applies (exc : Exception) : Clause → Bool
  | .catchClause c => c = .nullValue || c.catches exc
  | .filterNull => true
  | .filterArray operands => !operands.any (Constant.catches exc)

def Clause.answer (exc : Exception) : Clause → Int
  | .catchClause c => exc.typeidFor c.address
  | _ => -1

def Clause.size : Clause → Nat
  | .catchClause _ => 9
  | .filterNull => 9
  | .filterArray operands => 1 + 8 * operands.length

/-- The answer of the first clause that applies, and the positions of the clauses up to it, when the clauses
start at `pos`. -/
def readClauses (exc : Exception) : Nat → List Clause → Int × List Nat
  | _, [] => (0, [])
  | pos, c :: cs =>
    if c.applies exc then (c.answer exc, [pos])
    else
      let (value, visited) := readClauses exc (pos + c.size) cs
      (value, pos :: visited)

/-- The personality function reads the clauses at their own boundaries, stays inside the buffer, and gives the
answer of the first clause that applies. -/
def Survives (exc : Exception) (adjustedPtr : Nat) (cs : List Clause) (bytes : List UInt8) : Prop :=
  ∃ o, personality exc adjustedPtr bytes = some o ∧ (o.value, o.visited) = readClauses exc 0 cs

/-- A filter that is met, because no clause before it applies, matches with its last type only. -/
def MatchesLast (exc : Exception) (cs : List Clause) : Prop :=
  ∀ pre operands post, cs = pre ++ .filterArray operands :: post → (∀ c ∈ pre, c.applies exc = false) →
    ∀ c ∈ operands.dropLast, c.catches exc = false

/-! ## One clause -/

theorem readPointer_le {a : Nat} (h : a < 2 ^ 64) (rest : List UInt8) :
    readPointer (le 8 a ++ rest) = some (a, rest) := by
  have hlen : (le 8 a).length = 8 := length_le 8 a
  have h8 : 8 ≤ (le 8 a ++ rest).length := by
    rw [List.length_append]
    omega
  have ht : (le 8 a ++ rest).take 8 = le 8 a := List.take_left' hlen
  have hd : (le 8 a ++ rest).drop 8 = rest := List.drop_left' hlen
  rw [readPointer, if_pos h8, ht, hd, toNat_le_of_lt (by norm_num at h ⊢; exact h)]

theorem serializeOperand_eq_ok {c : Constant} {b : List UInt8} (h : serializeOperand c = .ok b) :
    ∃ a, c = .bitcastGlobal a ∧ b = le 8 a.toNat := by
  cases c with
  | bitcastGlobal a => exact ⟨a, rfl, (Except.ok.inj h).symm⟩
  | bitcastOther => cases h
  | nullValue => cases h
  | other => cases h

theorem serializeOperands_cons_eq_ok {c : Constant} {cs : List Constant} {bs : List UInt8}
    (h : serializeOperands (c :: cs) = .ok bs) :
    ∃ a bs', c = .bitcastGlobal a ∧ serializeOperands cs = .ok bs' ∧ bs = le 8 a.toNat ++ bs' := by
  change (serializeOperand c >>= fun b => serializeOperands cs >>= fun bs => .ok (b ++ bs)) = _ at h
  cases hc : serializeOperand c with
  | error e =>
    rw [hc] at h
    cases h
  | ok b =>
    cases hcs : serializeOperands cs with
    | error e =>
      rw [hc, hcs] at h
      cases h
    | ok bs' =>
      obtain ⟨a, rfl, rfl⟩ := serializeOperand_eq_ok hc
      rw [hc, hcs] at h
      exact ⟨a, bs', rfl, rfl, (Except.ok.inj h).symm⟩

theorem serializeOperands_length {cs : List Constant} {bs : List UInt8} (h : serializeOperands cs = .ok bs) :
    bs.length = 8 * cs.length := by
  induction cs generalizing bs with
  | nil =>
    cases h
    rfl
  | cons c cs ih =>
    obtain ⟨a, bs', -, hcs, rfl⟩ := serializeOperands_cons_eq_ok h
    simp only [List.length_append, length_le, ih hcs, List.length_cons]
    omega

variable {exc : Exception} {adjustedPtr : Nat} {rest : List UInt8}

theorem filterLoop_le {a : Nat} (h : a < 2 ^ 64) (hpos : a ≠ 0) (n : Nat) :
    filterLoop exc (n + 1) adjustedPtr (le 8 a ++ rest) =
      match exc.canCatch a with
      | some p => some (.matched p rest)
      | none => filterLoop exc n adjustedPtr rest := by
  change (readPointer _ >>= fun r => if r.1 = 0 then _ else match exc.canCatch r.1 with | some p => _ | none => _) = _
  rw [readPointer_le h]
  exact if_neg hpos

theorem filterLoop_refused {cs : List Constant} {bs : List UInt8} (h : serializeOperands cs = .ok bs)
    (hno : cs.any (Constant.catches exc) = false) :
    filterLoop exc cs.length adjustedPtr (bs ++ rest) = some (.refused adjustedPtr) := by
  induction cs generalizing bs with
  | nil => rfl
  | cons c cs ih =>
    obtain ⟨a, bs', rfl, hcs, rfl⟩ := serializeOperands_cons_eq_ok h
    simp only [List.any_cons, Bool.or_eq_false_iff] at hno
    have hnone : exc.canCatch a.toNat = none := by
      simpa [Constant.catches, Constant.address] using hno.1
    rw [List.length_cons, List.append_assoc, filterLoop_le a.lt (Nat.ne_of_gt a.pos), hnone]
    exact ih hcs hno.2

/-- A filter of which some type catches the exception: the reader is left behind the first such type, which is
inside the filter unless the type is the last one. -/
theorem filterLoop_matched {cs : List Constant} {bs : List UInt8} (h : serializeOperands cs = .ok bs)
    (hyes : cs.any (Constant.catches exc) = true) :
    ∃ p x, filterLoop exc cs.length adjustedPtr (bs ++ rest) = some (.matched p (x ++ rest)) ∧
      x.length ≤ bs.length ∧ (x = [] ↔ ∀ c ∈ cs.dropLast, c.catches exc = false) := by
  induction cs generalizing bs with
  | nil => simp at hyes
  | cons c cs ih =>
    obtain ⟨a, bs', rfl, hcs, rfl⟩ := serializeOperands_cons_eq_ok h
    have hlen := serializeOperands_length hcs
    rw [List.length_cons, List.append_assoc, filterLoop_le a.lt (Nat.ne_of_gt a.pos)]
    cases hc : exc.canCatch a.toNat with
    | some p =>
      have hcatch : (Constant.bitcastGlobal a).catches exc = true := by
        simp [Constant.catches, Constant.address, hc]
      refine ⟨p, bs', rfl, by simp, ?_⟩
      cases cs with
      | nil =>
        have hnil : bs' = [] := List.eq_nil_of_length_eq_zero (by simpa using hlen)
        simp [hnil]
      | cons d cs =>
        have hne : bs' ≠ [] := by
          intro h0
          simp [h0] at hlen
        simp [hne, hcatch]
    | none =>
      have hcatch : (Constant.bitcastGlobal a).catches exc = false := by
        simp [Constant.catches, Constant.address, hc]
      rw [List.any_cons, hcatch, Bool.false_or] at hyes
      obtain ⟨p, x, hloop, hx, hiff⟩ := ih hcs hyes
      refine ⟨p, x, hloop, by simp; omega, ?_⟩
      cases cs with
      | nil => simp at hyes
      | cons d cs =>
        rw [hiff, List.dropLast_cons_cons]
        simp [hcatch]

/-- The condition on one clause: a filter matches with its last type only. -/
def Clause.OnlyLast (exc : Exception) : Clause → Prop
  | .filterArray operands => ∀ c ∈ operands.dropLast, c.catches exc = false
  | _ => True

theorem serializeFilter_eq_ok {operands : List Constant} {b : List UInt8}
    (h : serializeClause (.filterArray operands) = .ok b) :
    ∃ bs, operands.length < 255 ∧ serializeOperands operands = .ok bs ∧
      b = UInt8.ofNat (operands.length + 1) :: bs := by
  change (if 255 ≤ operands.length then _ else serializeOperands operands >>= _) = _ at h
  by_cases hn : 255 ≤ operands.length
  · rw [if_pos hn] at h
    cases h
  · rw [if_neg hn] at h
    cases hs : serializeOperands operands with
    | error e =>
      rw [hs] at h
      cases h
    | ok bs =>
      rw [hs] at h
      exact ⟨bs, by omega, rfl, (Except.ok.inj h).symm⟩

theorem serializeClause_length {c : Clause} {b : List UInt8} (h : serializeClause c = .ok b) :
    b.length = c.size := by
  cases c with
  | catchClause c =>
    cases c <;> cases h <;> simp [Clause.size]
  | filterNull =>
    cases h
    rfl
  | filterArray operands =>
    obtain ⟨bs, -, hs, rfl⟩ := serializeFilter_eq_ok h
    rw [List.length_cons, serializeOperands_length hs, Clause.size]
    omega

variable {numBytes fuel : Nat} {f : List UInt8}

theorem clauseLoop_catch : clauseLoop exc numBytes (fuel + 1) adjustedPtr (0 :: f) =
    match readPointer f with
    | none => none
    | some (catcherType, f') =>
      if catcherType = 0 then
        some ⟨exc.typeidFor catcherType, exc.exceptionObjectPtr, [numBytes - (f.length + 1)]⟩
      else
        match exc.canCatch catcherType with
        | some p => some ⟨exc.typeidFor catcherType, p, [numBytes - (f.length + 1)]⟩
        | none => (clauseLoop exc numBytes fuel adjustedPtr f').map (Outcome.visit (numBytes - (f.length + 1))) := rfl

theorem clauseLoop_filter {type : UInt8} (h : type ≠ 0) :
    clauseLoop exc numBytes (fuel + 1) adjustedPtr (type :: f) =
      match filterLoop exc (type - 1).toNat adjustedPtr f with
      | none => none
      | some (.refused p) => some ⟨-1, p, [numBytes - (f.length + 1)]⟩
      | some (.matched p f') =>
        (clauseLoop exc numBytes fuel p f').map (Outcome.visit (numBytes - (f.length + 1))) := if_neg h

/-- One round of the loop, at the start of a clause: the clause applies, or the loop goes on behind it, or, in a
filter that matches with another type than its last one, inside it. -/
theorem clauseLoop_clause {c : Clause} {b : List UInt8} (h : serializeClause c = .ok b) :
    (c.applies exc = true ∧ ∃ p, clauseLoop exc numBytes (fuel + 1) adjustedPtr (b ++ rest) =
        some ⟨c.answer exc, p, [numBytes - (b ++ rest).length]⟩) ∨
    (c.applies exc = false ∧ ∃ p x, clauseLoop exc numBytes (fuel + 1) adjustedPtr (b ++ rest) =
        (clauseLoop exc numBytes fuel p (x ++ rest)).map (Outcome.visit (numBytes - (b ++ rest).length)) ∧
      x.length < b.length ∧ (x = [] ↔ c.OnlyLast exc)) := by
  cases c with
  | catchClause c =>
    cases c with
    | bitcastGlobal a =>
      cases h
      have hpos : a.toNat ≠ 0 := Nat.ne_of_gt a.pos
      cases hc : exc.canCatch a.toNat with
      | some p =>
        refine .inl ⟨by simp [Clause.applies, Constant.catches, Constant.address, hc], p, ?_⟩
        rw [List.cons_append, clauseLoop_catch, readPointer_le a.lt]
        simp [hpos, hc, Clause.answer, Constant.address]
      | none =>
        refine .inr ⟨by simp [Clause.applies, Constant.catches, Constant.address, hc], adjustedPtr, [], ?_, by simp,
          by simp [Clause.OnlyLast]⟩
        rw [List.cons_append, clauseLoop_catch, readPointer_le a.lt]
        simp [hpos, hc]
    | nullValue =>
      cases h
      refine .inl ⟨by simp [Clause.applies], exc.exceptionObjectPtr, ?_⟩
      rw [List.cons_append, clauseLoop_catch, readPointer_le (Nat.two_pow_pos 64)]
      rfl
    | bitcastOther => cases h
    | other => cases h
  | filterNull =>
    cases h
    exact .inl ⟨rfl, adjustedPtr, rfl⟩
  | filterArray operands =>
    obtain ⟨bs, hn, hs, rfl⟩ := serializeFilter_eq_ok h
    -- the first byte is the number of types plus one, which does not wrap
    have hbyte : (UInt8.ofNat (operands.length + 1)).toNat = operands.length + 1 := by
      simp only [UInt8.toNat_ofNat']
      omega
    have hne : UInt8.ofNat (operands.length + 1) ≠ 0 := by
      intro h0
      rw [h0] at hbyte
      simp at hbyte
    have hsub : (UInt8.ofNat (operands.length + 1) - 1).toNat = operands.length := by
      rw [UInt8.toNat_sub_of_le _ _ (by rw [UInt8.le_iff_toNat_le, hbyte]; simp), hbyte]
      simp
    cases hany : operands.any (Constant.catches exc) with
    | false =>
      refine .inl ⟨by simp [Clause.applies, hany], adjustedPtr, ?_⟩
      rw [List.cons_append, clauseLoop_filter hne, hsub, filterLoop_refused hs hany]
      rfl
    | true =>
      obtain ⟨p, x, hloop, hx, hiff⟩ := filterLoop_matched hs hany
      refine .inr ⟨by simp [Clause.applies, hany], p, x, ?_, by simp; omega, hiff⟩
      rw [List.cons_append, clauseLoop_filter hne, hsub, hloop]
      rfl

/-! ## All clauses -/

theorem matchesLast_cons {c : Clause} {cs : List Clause} :
    MatchesLast exc (c :: cs) ↔ c.OnlyLast exc ∧ (c.applies exc = false → MatchesLast exc cs) := by
  constructor
  · intro h
    refine ⟨?_, ?_⟩
    · cases c with
      | filterArray operands => exact h [] operands cs rfl (by simp)
      | _ => trivial
    · intro hc pre operands post heq hpre
      refine h (c :: pre) operands post (by rw [heq, List.cons_append]) ?_
      intro d hd
      obtain rfl | hd := List.mem_cons.mp hd
      · exact hc
      · exact hpre d hd
  · rintro ⟨hc, hcs⟩ pre operands post heq hpre
    cases pre with
    | nil =>
      obtain ⟨rfl, rfl⟩ := List.cons.inj heq
      exact hc
    | cons d pre =>
      rw [List.cons_append] at heq
      obtain ⟨hd, htail⟩ := List.cons.inj heq
      exact hcs (hd ▸ hpre d (by simp)) pre operands post htail fun e he => hpre e (by simp [he])

theorem Clause.onlyLast_of_applies {c : Clause} (h : c.applies exc = true) : c.OnlyLast exc := by
  cases c with
  | filterArray operands =>
    intro d hd
    simp only [Clause.applies, Bool.not_eq_true', List.any_eq_false, Bool.not_eq_true] at h
    exact h d (List.dropLast_subset operands hd)
  | catchClause c => trivial
  | filterNull => trivial

theorem clauseLoop_visited {type : UInt8} {o : Outcome}
    (h : clauseLoop exc numBytes fuel adjustedPtr (type :: f) = some o) :
    o.visited.head? = some (numBytes - (f.length + 1)) := by
  cases fuel with
  | zero => cases h
  | succ fuel =>
    -- every way out of a round has the round's position in front
    have hvisit : ∀ {r : Option Outcome}, r.map (Outcome.visit (numBytes - (f.length + 1))) = some o →
        o.visited.head? = some (numBytes - (f.length + 1)) := by
      intro r hr
      obtain ⟨o', -, rfl⟩ := Option.map_eq_some_iff.mp hr
      rfl
    have hreturn : ∀ {v : Int} {p : Nat}, some (Outcome.mk v p [numBytes - (f.length + 1)]) = some o →
        o.visited.head? = some (numBytes - (f.length + 1)) := by
      intro v p ho
      cases ho
      rfl
    by_cases ht : type = 0
    · rw [ht, clauseLoop_catch] at h
      split at h
      · cases h
      · split at h
        · exact hreturn h
        · split at h
          · exact hreturn h
          · exact hvisit h
    · rw [clauseLoop_filter ht] at h
      split at h
      · cases h
      · exact hreturn h
      · exact hvisit h

theorem readClauses_visited (exc : Exception) (pos : Nat) (cs : List Clause) :
    (readClauses exc pos cs).2 = [] ∨ (readClauses exc pos cs).2.head? = some pos := by
  cases cs with
  | nil => exact .inl rfl
  | cons c cs =>
    right
    rw [readClauses]
    split <;> rfl

theorem serializeLandingpad_cons_eq_ok {c : Clause} {cs : List Clause} {bytes : List UInt8}
    (h : serializeLandingpad (c :: cs) = .ok bytes) :
    ∃ b bs, serializeClause c = .ok b ∧ serializeLandingpad cs = .ok bs ∧ bytes = b ++ bs := by
  change (serializeClause c >>= fun b => serializeLandingpad cs >>= fun bs => .ok (b ++ bs)) = _ at h
  cases hc : serializeClause c with
  | error e =>
    rw [hc] at h
    cases h
  | ok b =>
    cases hcs : serializeLandingpad cs with
    | error e =>
      rw [hc, hcs] at h
      cases h
    | ok bs =>
      rw [hc, hcs] at h
      exact ⟨b, bs, rfl, rfl, (Except.ok.inj h).symm⟩

theorem clauseLoop_iff {cs : List Clause} {bytes : List UInt8} (h : serializeLandingpad cs = .ok bytes)
    (hfuel : bytes.length ≤ fuel) (hle : bytes.length ≤ numBytes) :
    (∃ o, clauseLoop exc numBytes fuel adjustedPtr bytes = some o ∧
      (o.value, o.visited) = readClauses exc (numBytes - bytes.length) cs) ↔ MatchesLast exc cs := by
  induction cs generalizing bytes fuel adjustedPtr with
  | nil =>
    cases h
    simp [clauseLoop, readClauses, MatchesLast]
  | cons c cs ih =>
    obtain ⟨b, bs, hb, hbs, rfl⟩ := serializeLandingpad_cons_eq_ok h
    have hsize := serializeClause_length hb
    have hpos : 0 < b.length := by
      rw [hsize]
      cases c <;> simp [Clause.size]
    rw [List.length_append] at hfuel hle
    obtain ⟨fuel, rfl⟩ : ∃ k, fuel = k + 1 := ⟨fuel - 1, by omega⟩
    rw [matchesLast_cons]
    obtain ⟨happ, p, hloop⟩ | ⟨happ, p, x, hloop, hx, hiff⟩ :=
      @clauseLoop_clause exc adjustedPtr bs numBytes fuel c b hb
    · rw [hloop]
      simp [readClauses, happ, Clause.onlyLast_of_applies happ]
    · have hnext : numBytes - (b ++ bs).length + c.size = numBytes - bs.length := by
        rw [List.length_append, ← hsize]
        omega
      rw [hloop]
      simp only [readClauses, happ, Bool.false_eq_true, if_false, hnext, forall_const]
      rw [← hiff]
      by_cases hnil : x = []
      · have hih : (∃ o, clauseLoop exc numBytes fuel p bs = some o ∧
            (o.value, o.visited) = readClauses exc (numBytes - bs.length) cs) ↔ MatchesLast exc cs :=
          ih hbs (by omega) (by omega)
        rw [hnil, List.nil_append, ← hih]
        simp only [true_and]
        constructor
        · rintro ⟨o, ho, heq⟩
          obtain ⟨o', ho', rfl⟩ := Option.map_eq_some_iff.mp ho
          refine ⟨o', ho', ?_⟩
          simp only [Outcome.visit, Prod.mk.injEq, List.cons.injEq, true_and] at heq
          exact Prod.ext heq.1 heq.2
        · rintro ⟨o', ho', heq⟩
          refine ⟨o'.visit _, by rw [ho']; rfl, ?_⟩
          rw [← heq]
          rfl
      · -- the reader is inside the filter, and the position it reads at next is no clause's
        constructor
        · rintro ⟨o, ho, heq⟩
          obtain ⟨o', ho', rfl⟩ := Option.map_eq_some_iff.mp ho
          simp only [Outcome.visit, Prod.mk.injEq, List.cons.injEq, true_and] at heq
          obtain ⟨type, f, hxf⟩ := List.exists_cons_of_ne_nil hnil
          rw [hxf, List.cons_append] at ho'
          have hhead := clauseLoop_visited ho'
          rw [heq.2] at hhead
          obtain hv | hv := readClauses_visited exc (numBytes - bs.length) cs
          · rw [hv] at hhead
            cases hhead
          · rw [hv, Option.some.injEq] at hhead
            have hxl : x.length = f.length + 1 := by rw [hxf, List.length_cons]
            rw [List.length_append] at hhead
            omega
        · rintro ⟨h0, -⟩
          exact absurd h0 hnil

/-- The clauses of a landing pad survive the encoding iff every filter that is met and matches does so with its
last type only. -/
theorem personality_iff (exc : Exception) (adjustedPtr : Nat) (cs : List Clause) (bytes : List UInt8)
    (h : serializeLandingpad cs = .ok bytes) :
    Survives exc adjustedPtr cs bytes ↔ MatchesLast exc cs := by
  have hloop := @clauseLoop_iff exc adjustedPtr bytes.length bytes.length cs bytes h le_rfl le_rfl
  rw [Nat.sub_self] at hloop
  exact hloop

def thrown : Exception where
  exceptionObjectPtr := 100
  canCatch a := if a = 16 then some 100 else none
  typeidFor a := a + 1

def type16 : Constant := .bitcastGlobal ⟨16, by decide, by decide⟩

def type32 : Constant := .bitcastGlobal ⟨32, by decide, by decide⟩

/-- A filter whose last type matches, and a catch-all clause behind it. -/
theorem personality_iff_lastType :
    ∃ bytes, serializeLandingpad [.filterArray [type32, type16], .catchClause .nullValue] = .ok bytes ∧
      Survives thrown 0 [.filterArray [type32, type16], .catchClause .nullValue] bytes := by
  refine ⟨_, rfl, (personality_iff thrown 0 _ _ rfl).mpr ?_⟩
  rw [matchesLast_cons, matchesLast_cons]
  refine ⟨by simp [Clause.OnlyLast, Constant.catches, type32, thrown, Constant.address], fun _ => ⟨trivial, ?_⟩⟩
  intro h
  simp [Clause.applies] at h

/-- With the matching type first, the address of the other one is read as a clause, and the catch-all clause
behind the filter is never found. -/
theorem filter_read_as_clause :
    ∃ bytes, serializeLandingpad [.filterArray [type16, type32], .catchClause .nullValue] = .ok bytes ∧
      personality thrown 0 bytes = some ⟨-1, 100, [0, 9]⟩ ∧
      readClauses thrown 0 [.filterArray [type16, type32], .catchClause .nullValue] = (1, [0, 17]) ∧
      ¬Survives thrown 0 [.filterArray [type16, type32], .catchClause .nullValue] bytes := by
  have hrun : personality thrown 0 ([3, 16, 0, 0, 0, 0, 0, 0, 0, 32, 0, 0, 0, 0, 0, 0, 0] ++
      [0, 0, 0, 0, 0, 0, 0, 0, 0]) = some ⟨-1, 100, [0, 9]⟩ := by decide
  refine ⟨_, rfl, hrun, by decide, ?_⟩
  rintro ⟨o, ho, heq⟩
  obtain rfl : (⟨-1, 100, [0, 9]⟩ : Outcome) = o := Option.some.inj (hrun.symm.trans ho)
  exact absurd heq (by decide)

end Landingpad

end CgsKlee
