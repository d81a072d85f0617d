import CgsKlee.Lib.Loops
import CgsKlee.Support.KTest

/-!
# Recording inputs and replaying them

`klee_make_symbolic`, `klee_range` and `klee_choose` create an array each in symbolic mode, and
`getSymbolicSolution` writes the bytes of all arrays of a state to a test.  The versions of `libkleeRuntest` take the
objects of the test one after another.  A test object has the name that its memory object has in the end, and memory
objects are shared between the states, so that a later call can rename the objects of earlier ones.

`Event.other` is a call of another state that shares the object; it is not replayed.  The arguments of a call are its
values under the solution that is written to the test.
-/

namespace CgsKlee.Replay

/-! ## Symbolic mode -/

/-- An object of the program, or the variable `x` of a call of `klee_range` or `klee_choose`. -/
inductive MemoryObject
  | program (id : Nat)
  | automatic (call : Nat)
  deriving DecidableEq

structure SymbolicArray where
  name : List UInt8
  size : UInt32
  deriving DecidableEq

inductive Call
  | makeSymbolic (object : Nat) (nbytes : Nat) (name : Option CString)
  | range (start stop : BitVec 32) (name : Option CString)
  | choose (n : BitVec 64)
  deriving DecidableEq

inductive Event
  | own (call : Call)
  | other (object : Nat) (name : Option CString)
  deriving DecidableEq

structure Program where
  size : Nat → UInt32
  readOnly : Nat → Bool

/-- What `klee_range` and `klee_choose` assume about their variable. -/
inductive Assumption
  | range (array : SymbolicArray) (start stop : BitVec 32)
  | choose (array : SymbolicArray) (n : BitVec 64)

def unnamed : CString := ⟨"unnamed".toUTF8.data.toList, by decide⟩

def kleeChoose : CString := ⟨"klee_choose".toUTF8.data.toList, by decide⟩

def modelVersion : CString := ⟨"model_version".toUTF8.data.toList, by decide⟩

/-- The part of an `ExecutionState`, and of the memory objects, that the calls use. -/
structure Recorder where
  names : MemoryObject → CString := fun _ => unnamed
  arrayNames : List (List UInt8) := []
  symbolics : List (MemoryObject × SymbolicArray) := []
  constraints : List Assumption := []
  /-- The variables of calls that were allocated. -/
  automatics : Nat := 0

/-- The name under which `handleMakeSymbolic` makes an object symbolic. -/
def symbolicName (name : Option CString) : CString :=
  match name with
  | none => unnamed
  | some name => if name.chars = [] then unnamed else name

def utostr (n : Nat) : List UInt8 := (Nat.toDigits 10 n).map fun c => UInt8.ofNat c.toNat

/-- The loop of `executeMakeSymbolic`; among one more candidates than there are names, one is new. -/
def uniqueName (name : List UInt8) (arrayNames : List (List UInt8)) : List UInt8 :=
  let candidates := name :: (List.range arrayNames.length).map fun id => name ++ 95 :: utostr (id + 1)
  (candidates.find? (· ∉ arrayNames)).getD name

namespace Recorder

def setName (r : Recorder) (mo : MemoryObject) (name : CString) : Recorder :=
  { r with names := Function.update r.names mo name }

def executeMakeSymbolic (r : Recorder) (mo : MemoryObject) (size : UInt32) (name : CString) : Recorder :=
  let array : SymbolicArray := ⟨uniqueName name.chars r.arrayNames, size⟩
  { r with arrayNames := r.arrayNames ++ [array.name], symbolics := r.symbolics ++ [(mo, array)] }

def handleMakeSymbolic (r : Recorder) (mo : MemoryObject) (size : UInt32) (readOnly : Bool) (nbytes : Nat)
    (name : Option CString) : Option Recorder :=
  let r := r.setName mo (symbolicName name)
  if readOnly then none
  else if nbytes = size.toNat then some (r.executeMakeSymbolic mo size (symbolicName name)) else none

/-- A call of `klee_make_symbolic` with a new variable, and an assumption about it. -/
def makeVariable (r : Recorder) (size : UInt32) (name : Option CString) (assumption : SymbolicArray → Assumption) :
    Option Recorder := do
  let r ← handleMakeSymbolic { r with automatics := r.automatics + 1 } (.automatic r.automatics) size false
    size.toNat name
  let (_, array) ← r.symbolics.getLast?
  return { r with constraints := r.constraints ++ [assumption array] }

def perform (p : Program) (r : Recorder) : Call → Option Recorder
  | .makeSymbolic object nbytes name =>
    r.handleMakeSymbolic (.program object) (p.size object) (p.readOnly object) nbytes name
  | .range start stop name =>
    if stop.sle start then none
    else if start + 1 = stop then some r
    else r.makeVariable 4 name (.range · start stop)
  | .choose n => r.makeVariable 8 (some kleeChoose) (.choose · n)

def step (p : Program) (r : Recorder) : Event → Option Recorder
  | .own call => r.perform p call
  | .other object name => some (r.setName (.program object) (symbolicName name))

def record (p : Program) (events : List Event) : Option Recorder := events.foldlM (step p) {}

end Recorder

/-! ## The test -/

abbrev Solution := (array : SymbolicArray) → Fin array.size.toNat → UInt8

def Solution.bytes (values : Solution) (array : SymbolicArray) : List UInt8 := List.ofFn (values array)

@[simp] theorem Solution.length_bytes (values : Solution) (array : SymbolicArray) :
    (values.bytes array).length = array.size.toNat := List.length_ofFn

/-- An integer variable of `w` bits. -/
def toInt (w : Nat) (bytes : List UInt8) : BitVec w := BitVec.ofNat w (Bytes.toNat bytes)

def Assumption.Holds (values : Solution) : Assumption → Prop
  | .range array start stop =>
    let x := toInt 32 (values.bytes array)
    if start = 0 then x.ult stop else start.sle x ∧ x.slt stop
  | .choose array n => (toInt 64 (values.bytes array)).ult n

def Recorder.getSymbolicSolution (r : Recorder) (values : Solution) : List KTestObject :=
  r.symbolics.map fun (mo, array) => ⟨r.names mo, values.bytes array, by rw [values.length_bytes]; exact array.size.toNat_lt⟩

/-! ## Replay -/

inductive ReplayError
  | outOfInputs
  | nameMismatch (requested returned : CString)
  | sizesDiffer (expected got : Nat)
  | invalidRange
  | chooseFailure
  deriving DecidableEq

def replayName (name : Option CString) : CString := name.getD unnamed

/-- `klee_make_symbolic` of the replay: the bytes of the target, and the objects that follow `testPosition`. -/
def kleeMakeSymbolic (nbytes : Nat) (name : CString) :
    List KTestObject → Except ReplayError (List UInt8 × List KTestObject)
  | [] => .error .outOfInputs
  | o :: objects =>
    if o.name = modelVersion ∧ name ≠ modelVersion then kleeMakeSymbolic nbytes name objects
    else if name ≠ o.name then .error (.nameMismatch name o.name)
    else if nbytes ≠ o.bytes.length then .error (.sizesDiffer nbytes o.bytes.length)
    else .ok (o.bytes, objects)

namespace Call

def nbytes : Call → Nat
  | makeSymbolic _ nbytes _ => nbytes
  | range .. => 4
  | choose _ => 8

def requested : Call → CString
  | makeSymbolic _ _ name | range _ _ name => replayName name
  | choose _ => kleeChoose

/-- The test of the value that was read. -/
def check (bytes : List UInt8) : Call → Except ReplayError Unit
  | makeSymbolic .. => .ok ()
  | range start stop _ =>
    let x := toInt 32 bytes
    if x.slt start || stop.sle x then .error .invalidRange else .ok ()
  | choose n => if n.ule (toInt 64 bytes) then .error .chooseFailure else .ok ()

def replay (call : Call) (objects : List KTestObject) : Except ReplayError (List UInt8 × List KTestObject) := do
  let (bytes, objects) ← kleeMakeSymbolic call.nbytes call.requested objects
  call.check bytes
  return (bytes, objects)

end Call

/-- The calls of the program one after another: what they store into their targets, and the objects that are left. -/
def replay : List Call → List KTestObject → Except ReplayError (List (List UInt8) × List KTestObject)
  | [], objects => .ok ([], objects)
  | call :: calls, objects => do
    let (bytes, objects) ← call.replay objects
    let (targets, objects) ← replay calls objects
    return (bytes :: targets, objects)

def Event.call? : Event → Option Call
  | own call => some call
  | other .. => none

def ownCalls (events : List Event) : List Call := events.filterMap Event.call?

/-! ## When a test can be replayed -/

/-- The name that a call passes. -/
def Call.given : Call → Option CString
  | makeSymbolic _ _ name | range _ _ name => name
  | choose _ => some kleeChoose

def Call.creates : Call → Bool
  | range start stop _ => start + 1 ≠ stop
  | _ => true

def Event.renames (object : Nat) : Event → Option CString
  | own (.makeSymbolic o _ name) => if o = object then some (symbolicName name) else none
  | own _ => none
  | other o name => if o = object then some (symbolicName name) else none

def lastName (events : List Event) (object : Nat) : Option CString :=
  (events.filterMap (Event.renames object)).getLast?

/-- No call passes an empty string as a name or has a range of one value, and an object that a call makes symbolic
keeps the name of the call. -/
structure Replayable (events : List Event) : Prop where
  named : ∀ call ∈ ownCalls events, ∀ name, call.given = some name → name.chars ≠ []
  creates : ∀ call ∈ ownCalls events, call.creates = true
  kept : ∀ object nbytes name, .makeSymbolic object nbytes name ∈ ownCalls events →
    lastName events object = some (symbolicName name)

/-! ## What is recorded -/

variable {p : Program} {r r' : Recorder} {events : List Event}

/-- The name that the object of a call has right after it. -/
def Call.recorded (call : Call) : CString := symbolicName call.given

def Call.object (r : Recorder) : Call → MemoryObject
  | makeSymbolic object _ _ => .program object
  | _ => .automatic r.automatics

theorem check_range {values : Solution} {array : SymbolicArray} {start stop : BitVec 32} {name : Option CString}
    (hlt : stop.sle start = false) (h : (Assumption.range array start stop).Holds values) :
    (Call.range start stop name).check (values.bytes array) = .ok () := by
  simp only [Assumption.Holds] at h
  rw [Call.check]
  generalize toInt 32 (values.bytes array) = x at h ⊢
  have hneg : (x.slt start || stop.sle x) = false := by
    by_cases hzero : start = 0
    · rw [if_pos hzero] at h
      subst hzero
      simp only [BitVec.sle, BitVec.ult, BitVec.slt, decide_eq_true_eq, decide_eq_false_iff_not, Bool.or_eq_false_iff] at *
      have hx := BitVec.toInt_eq_toNat_cond x
      have hs := BitVec.toInt_eq_toNat_cond stop
      have hstop := stop.isLt
      have h0 : (0 : BitVec 32).toInt = 0 := rfl
      rw [h0] at hlt ⊢
      split at hx <;> split at hs <;> omega
    · rw [if_neg hzero] at h
      simp only [BitVec.sle, BitVec.slt, decide_eq_true_eq, decide_eq_false_iff_not, Bool.or_eq_false_iff] at *
      omega
  simp [hneg]

theorem check_choose {values : Solution} {array : SymbolicArray} {n : BitVec 64}
    (h : (Assumption.choose array n).Holds values) : (Call.choose n).check (values.bytes array) = .ok () := by
  have hneg : n.ule (toInt 64 (values.bytes array)) = false := by
    have h : (toInt 64 (values.bytes array)).ult n = true := h
    rw [BitVec.ule_eq_not_ult, h]
    rfl
  simp [Call.check, hneg]

structure Created (r r' : Recorder) (call : Call) (array : SymbolicArray) : Prop where
  symbolics : r'.symbolics = r.symbolics ++ [(call.object r, array)]
  size : array.size.toNat = call.nbytes
  names : r'.names = Function.update r.names (call.object r) call.recorded
  automatics : r'.automatics = r.automatics ∧ (∃ o, call.object r = .program o) ∨ r'.automatics = r.automatics + 1
  constraints : ∀ c ∈ r.constraints, c ∈ r'.constraints
  assumed : ∀ values, (∀ c ∈ r'.constraints, c.Holds values) → call.check (values.bytes array) = .ok ()

theorem makeVariable_eq (size : UInt32) (name : Option CString) (assumption : SymbolicArray → Assumption) :
    ∃ array, array.size = size ∧ r.makeVariable size name assumption = some
      { r with
        names := Function.update r.names (.automatic r.automatics) (symbolicName name)
        arrayNames := r.arrayNames ++ [array.name]
        symbolics := r.symbolics ++ [(.automatic r.automatics, array)]
        constraints := r.constraints ++ [assumption array]
        automatics := r.automatics + 1 } := by
  refine ⟨⟨uniqueName (symbolicName name).chars r.arrayNames, size⟩, rfl, ?_⟩
  simp [Recorder.makeVariable, Recorder.handleMakeSymbolic, Recorder.executeMakeSymbolic, Recorder.setName]

theorem perform_cases {call : Call} (h : r.perform p call = some r') :
    (call.creates = false ∧ r' = r) ∨ (call.creates = true ∧ ∃ array, Created r r' call array) := by
  cases call with
  | makeSymbolic object nbytes name =>
    simp only [Recorder.perform, Recorder.handleMakeSymbolic] at h
    split at h
    · cases h
    split at h
    · rename_i hsize
      rw [Option.some.injEq] at h
      subst h
      exact .inr ⟨rfl, _, rfl, hsize.symm, rfl, .inl ⟨rfl, object, rfl⟩, fun c hc => hc, fun _ _ => rfl⟩
    · cases h
  | range start stop name =>
    simp only [Recorder.perform] at h
    split at h
    · cases h
    rename_i hle
    rw [Bool.not_eq_true] at hle
    by_cases hone : start + 1 = stop
    · rw [if_pos hone, Option.some.injEq] at h
      exact .inl ⟨decide_eq_false (not_not.mpr hone), h.symm⟩
    · rw [if_neg hone] at h
      obtain ⟨array, hsize, heq⟩ := makeVariable_eq (r := r) 4 name (.range · start stop)
      cases heq.symm.trans h
      refine .inr ⟨decide_eq_true hone, array, rfl, by rw [hsize]; rfl, rfl, .inr rfl, ?_, ?_⟩
      · intro c hc
        exact List.mem_append_left _ hc
      · intro values hholds
        exact check_range hle (hholds _ (List.mem_append_right _ (by simp)))
  | choose n =>
    simp only [Recorder.perform] at h
    obtain ⟨array, hsize, heq⟩ := makeVariable_eq (r := r) 8 (some kleeChoose) (.choose · n)
    cases heq.symm.trans h
    refine .inr ⟨rfl, array, rfl, by rw [hsize]; rfl, rfl, .inr rfl, ?_, ?_⟩
    · intro c hc
      exact List.mem_append_left _ hc
    · intro values hholds
      exact check_choose (hholds _ (List.mem_append_right _ (by simp)))

theorem lastName_cons (e : Event) (events : List Event) (object : Nat) (default : CString) :
    (lastName (e :: events) object).getD default =
      (lastName events object).getD ((e.renames object).getD default) := by
  rw [lastName, lastName, List.filterMap_cons]
  cases he : e.renames object with
  | none => rfl
  | some name =>
    rw [List.getLast?_cons]
    rfl

theorem step_names {e : Event} (h : r.step p e = some r') (object : Nat) :
    r'.names (.program object) = (e.renames object).getD (r.names (.program object)) := by
  cases e with
  | other o name =>
    simp only [Recorder.step, Option.some.injEq] at h
    subst h
    by_cases ho : o = object
    · simp [Recorder.setName, Event.renames, ho]
    · have hne : MemoryObject.program object ≠ .program o := fun heq => ho (MemoryObject.program.inj heq).symm
      simp [Recorder.setName, Event.renames, ho, Function.update_of_ne hne]
  | own call =>
    obtain ⟨hcreates, rfl⟩ | ⟨-, array, hcreated⟩ := perform_cases h
    · cases call with
      | makeSymbolic o nbytes name => cases hcreates
      | range start stop name => rfl
      | choose n => rfl
    · rw [hcreated.names]
      cases call with
      | makeSymbolic o nbytes name =>
        by_cases ho : o = object
        · subst ho
          simp [Call.object, Call.recorded, Call.given, Event.renames]
        · have hne : MemoryObject.program object ≠ .program o := fun heq => ho (MemoryObject.program.inj heq).symm
          simp [Call.object, Event.renames, ho, Function.update_of_ne hne]
      | range start stop name => exact Function.update_of_ne (fun heq => by cases heq) ..
      | choose n => exact Function.update_of_ne (fun heq => by cases heq) ..

/-- The entry of `symbolics` that belongs to a call. -/
structure Entry (r : Recorder) (call : Call) (e : MemoryObject × SymbolicArray) : Prop where
  size : e.2.size.toNat = call.nbytes
  object : (∃ o nbytes name, call = .makeSymbolic o nbytes name ∧ e.1 = .program o) ∨
    (∀ o nbytes name, call ≠ .makeSymbolic o nbytes name) ∧ r.names e.1 = call.recorded
  assumed : ∀ values, (∀ c ∈ r.constraints, c.Holds values) → call.check (values.bytes e.2) = .ok ()

theorem step_automatic {e : Event} (h : r.step p e = some r') :
    r.automatics ≤ r'.automatics ∧ (∀ c ∈ r.constraints, c ∈ r'.constraints) ∧
      ∀ j < r.automatics, r'.names (.automatic j) = r.names (.automatic j) := by
  cases e with
  | other o name =>
    simp only [Recorder.step, Option.some.injEq] at h
    subst h
    refine ⟨Nat.le_refl _, fun _ hc => hc, fun j _ => ?_⟩
    simp [Recorder.setName]
  | own call =>
    obtain ⟨-, rfl⟩ | ⟨-, array, hcreated⟩ := perform_cases h
    · exact ⟨Nat.le_refl _, fun _ hc => hc, fun _ _ => rfl⟩
    · refine ⟨?_, hcreated.constraints, fun j hj => ?_⟩
      · obtain ⟨hauto, -⟩ | hauto := hcreated.automatics <;> omega
      · rw [hcreated.names]
        refine Function.update_of_ne ?_ ..
        cases call with
        | makeSymbolic o nbytes name => exact fun heq => by cases heq
        | range start stop name => exact fun heq => Nat.ne_of_lt hj (MemoryObject.automatic.inj heq)
        | choose n => exact fun heq => Nat.ne_of_lt hj (MemoryObject.automatic.inj heq)

theorem foldlM_spec (h : events.foldlM (Recorder.step p) r = some r') :
    (∃ entries, r'.symbolics = r.symbolics ++ entries ∧
      List.Forall₂ (Entry r') ((ownCalls events).filter Call.creates) entries) ∧
    (∀ object, r'.names (.program object) = (lastName events object).getD (r.names (.program object))) ∧
    (∀ c ∈ r.constraints, c ∈ r'.constraints) ∧
    ∀ j < r.automatics, r'.names (.automatic j) = r.names (.automatic j) := by
  induction events generalizing r with
  | nil =>
    simp only [List.foldlM_nil, Option.pure_def, Option.some.injEq] at h
    subst h
    exact ⟨⟨[], (List.append_nil _).symm, .nil⟩, fun _ => rfl, fun _ hc => hc, fun _ _ => rfl⟩
  | cons e events ih =>
    simp only [List.foldlM_cons, Option.bind_eq_bind, Option.bind_eq_some_iff] at h
    obtain ⟨r₁, hstep, hrun⟩ := h
    obtain ⟨⟨entries, hsym, hall⟩, hnames, hcons, hauto⟩ := ih hrun
    obtain ⟨hle, hcons₁, hauto₁⟩ := step_automatic hstep
    refine ⟨?_, ?_, fun c hc => hcons c (hcons₁ c hc), fun j hj => ?_⟩
    · cases e with
      | other o name =>
        simp only [Recorder.step, Option.some.injEq] at hstep
        subst hstep
        exact ⟨entries, hsym, hall⟩
      | own call =>
        obtain ⟨hcreates, rfl⟩ | ⟨hcreates, array, hcreated⟩ := perform_cases hstep
        · exact ⟨entries, hsym, by simpa [ownCalls, Event.call?, hcreates] using hall⟩
        · refine ⟨(call.object r, array) :: entries, ?_, ?_⟩
          · rw [hsym, hcreated.symbolics, List.append_assoc, List.singleton_append]
          · have hentry : Entry r' call (call.object r, array) := by
              refine ⟨hcreated.size, ?_, fun values hholds =>
                hcreated.assumed values fun c hc => hholds c (hcons c hc)⟩
              obtain ⟨-, o, ho⟩ | hnext := hcreated.automatics
              · cases call with
                | makeSymbolic object nbytes name => exact .inl ⟨object, nbytes, name, rfl, rfl⟩
                | range start stop name => cases ho
                | choose n => cases ho
              · cases call with
                | makeSymbolic object nbytes name => exact .inl ⟨object, nbytes, name, rfl, rfl⟩
                | range start stop name =>
                  refine .inr ⟨fun _ _ _ heq => (by cases heq), ?_⟩
                  show r'.names (.automatic r.automatics) = _
                  rw [hauto _ (by omega), hcreated.names]
                  exact Function.update_self ..
                | choose n =>
                  refine .inr ⟨fun _ _ _ heq => (by cases heq), ?_⟩
                  show r'.names (.automatic r.automatics) = _
                  rw [hauto _ (by omega), hcreated.names]
                  exact Function.update_self ..
            have hfilter : (ownCalls (.own call :: events)).filter Call.creates =
                call :: (ownCalls events).filter Call.creates := by
              simp [ownCalls, Event.call?, hcreates]
            rw [hfilter]
            exact .cons hentry hall
    · intro object
      rw [hnames, lastName_cons, step_names hstep]
    · rw [hauto j (by omega), hauto₁ j hj]

def finalName (events : List Event) (call : Call) : CString :=
  match call with
  | .makeSymbolic object _ _ => (lastName events object).getD unnamed
  | _ => call.recorded

theorem record_spec (h : Recorder.record p events = some r) :
    List.Forall₂ (fun call e => r.names e.1 = finalName events call ∧ e.2.size.toNat = call.nbytes ∧
        ∀ values, (∀ c ∈ r.constraints, c.Holds values) → call.check (values.bytes e.2) = .ok ())
      ((ownCalls events).filter Call.creates) r.symbolics := by
  obtain ⟨⟨entries, hsym, hall⟩, hnames, -, -⟩ := foldlM_spec h
  rw [hsym]
  refine hall.imp fun call e hentry => ⟨?_, hentry.size, hentry.assumed⟩
  obtain ⟨o, nbytes, name, rfl, he⟩ | ⟨hnot, hname⟩ := hentry.object
  · rw [he, hnames]
    rfl
  · rw [hname]
    cases call with
    | makeSymbolic o nbytes name => exact absurd rfl (hnot o nbytes name)
    | range start stop name => rfl
    | choose n => rfl

/-! ## Replaying -/

theorem kleeMakeSymbolic_ok {nbytes : Nat} {name : CString} {objects rest : List KTestObject} {bytes : List UInt8}
    (h : kleeMakeSymbolic nbytes name objects = .ok (bytes, rest)) :
    ∃ skipped o, objects = skipped ++ o :: rest ∧ name = o.name ∧ nbytes = o.bytes.length ∧ bytes = o.bytes := by
  induction objects with
  | nil => cases h
  | cons o objects ih =>
    rw [kleeMakeSymbolic] at h
    split at h
    · obtain ⟨skipped, o', heq, hrest⟩ := ih h
      exact ⟨o :: skipped, o', by rw [heq, List.cons_append], hrest⟩
    split at h
    · cases h
    rename_i hname
    split at h
    · cases h
    rename_i hsize
    cases h
    exact ⟨[], o, rfl, not_not.mp hname, not_not.mp hsize, rfl⟩

theorem kleeMakeSymbolic_of_name {o : KTestObject} {objects : List KTestObject} :
    kleeMakeSymbolic o.bytes.length o.name (o :: objects) = .ok (o.bytes, objects) := by
  have hskip : ¬(o.name = modelVersion ∧ o.name ≠ modelVersion) := fun h => h.2 h.1
  rw [kleeMakeSymbolic, if_neg hskip, if_neg (not_not.mpr rfl), if_neg (not_not.mpr rfl)]

theorem bind_ok {α β : Type} {x : Except ReplayError α} {f : α → Except ReplayError β} {b : β} :
    (x >>= f) = .ok b ↔ ∃ a, x = .ok a ∧ f a = .ok b := by
  cases x with
  | error e => exact iff_of_false (fun h => by cases h) (by rintro ⟨a, ha, -⟩; cases ha)
  | ok a =>
    constructor
    · intro h
      exact ⟨a, rfl, h⟩
    · rintro ⟨a', ha, h⟩
      cases ha
      exact h

theorem Call.replay_ok {call : Call} {objects rest : List KTestObject} {bytes : List UInt8}
    (h : call.replay objects = .ok (bytes, rest)) :
    ∃ skipped o, objects = skipped ++ o :: rest ∧ call.requested = o.name := by
  obtain ⟨⟨bytes', rest'⟩, hmake, h⟩ := bind_ok.mp h
  obtain ⟨-, -, h⟩ := bind_ok.mp h
  cases h
  obtain ⟨skipped, o, heq, hname, -⟩ := kleeMakeSymbolic_ok hmake
  exact ⟨skipped, o, heq, hname⟩

/-- Every call takes an object at least.  If there are no more objects than calls, then each call takes the next one,
which has the name that it asks for. -/
theorem replay_ok {calls : List Call} {objects rest : List KTestObject} {targets : List (List UInt8)}
    (h : replay calls objects = .ok (targets, rest)) : calls.length ≤ objects.length ∧
      (objects.length ≤ calls.length → List.Forall₂ (fun call o => call.requested = o.name) calls objects) := by
  induction calls generalizing objects rest targets with
  | nil =>
    refine ⟨Nat.zero_le _, fun hle => ?_⟩
    rw [List.length_nil, Nat.le_zero, List.length_eq_zero_iff] at hle
    rw [hle]
    exact .nil
  | cons call calls ih =>
    obtain ⟨⟨bytes, objects'⟩, hcall, h⟩ := bind_ok.mp h
    obtain ⟨⟨targets', rest'⟩, hcalls, -⟩ := bind_ok.mp h
    obtain ⟨skipped, o, rfl, hname⟩ := call.replay_ok hcall
    obtain ⟨hle, hall⟩ := ih hcalls
    simp only [List.length_append, List.length_cons]
    refine ⟨by omega, fun hge => ?_⟩
    have hnil : skipped = [] := List.length_eq_zero_iff.mp (by omega)
    subst hnil
    exact .cons hname (hall (by omega))

theorem replay_of_forall₂ {calls : List Call} {objects : List KTestObject}
    (h : List.Forall₂ (fun call o => call.requested = o.name ∧ call.nbytes = o.bytes.length ∧
      call.check o.bytes = .ok ()) calls objects) :
    replay calls objects = .ok (objects.map (·.bytes), []) := by
  induction h with
  | nil => rfl
  | @cons call o calls objects hhead _ ih =>
    obtain ⟨hname, hsize, hcheck⟩ := hhead
    have hcall : call.replay (o :: objects) = .ok (o.bytes, objects) := by
      rw [Call.replay, hname, hsize, kleeMakeSymbolic_of_name]
      show (call.check o.bytes >>= fun _ => Except.ok (o.bytes, objects)) = _
      rw [hcheck]
      rfl
    rw [replay, hcall]
    show (replay calls objects >>= fun p => Except.ok (o.bytes :: p.1, p.2)) = _
    rw [ih]
    rfl

/-! ## Tests that can be replayed -/

theorem unnamed_ne_nil : unnamed.chars ≠ [] := by decide

theorem symbolicName_ne_nil (name : Option CString) : (symbolicName name).chars ≠ [] := by
  cases name with
  | none => exact unnamed_ne_nil
  | some name =>
    rw [symbolicName]
    split
    · exact unnamed_ne_nil
    · assumption

theorem requested_eq (call : Call) : call.requested = replayName call.given := by
  cases call with
  | makeSymbolic o nbytes name => rfl
  | range start stop name => rfl
  | choose n => rfl

theorem requested_eq_recorded {call : Call} (h : ∀ name, call.given = some name → name.chars ≠ []) :
    call.requested = call.recorded := by
  rw [requested_eq, Call.recorded]
  cases hname : call.given with
  | none => rfl
  | some name => rw [symbolicName, if_neg (h name hname), replayName, Option.getD_some]

theorem lastName_isSome {object nbytes : Nat} {name : Option CString}
    (h : .makeSymbolic object nbytes name ∈ ownCalls events) : ∃ last, lastName events object = some (symbolicName last) := by
  obtain ⟨e, he, hcall⟩ := List.mem_filterMap.mp h
  have hrenames : e.renames object = some (symbolicName name) := by
    cases e with
    | own call =>
      obtain rfl := Option.some.inj hcall
      simp [Event.renames]
    | other o name => cases hcall
  have hne : events.filterMap (Event.renames object) ≠ [] := by
    intro hnil
    have hmem : symbolicName name ∈ events.filterMap (Event.renames object) :=
      List.mem_filterMap.mpr ⟨e, he, hrenames⟩
    rw [hnil] at hmem
    cases hmem
  have hlast := List.getLast_mem hne
  obtain ⟨e', -, hrenames'⟩ := List.mem_filterMap.mp hlast
  have hname : ∃ last, symbolicName last = (events.filterMap (Event.renames object)).getLast hne := by
    cases e' with
    | own call =>
      cases call with
      | makeSymbolic o nbytes name =>
        simp only [Event.renames] at hrenames'
        split at hrenames'
        · exact ⟨name, Option.some.inj hrenames'⟩
        · cases hrenames'
      | range start stop name => cases hrenames'
      | choose n => cases hrenames'
    | other o name =>
      simp only [Event.renames] at hrenames'
      split at hrenames'
      · exact ⟨name, Option.some.inj hrenames'⟩
      · cases hrenames'
  obtain ⟨last, hlast⟩ := hname
  exact ⟨last, by rw [lastName, List.getLast?_eq_some_getLast hne, hlast]⟩

theorem finalName_ne_nil {call : Call} (h : call ∈ ownCalls events) : (finalName events call).chars ≠ [] := by
  cases call with
  | makeSymbolic object nbytes name =>
    obtain ⟨last, hlast⟩ := lastName_isSome h
    rw [finalName, hlast, Option.getD_some]
    exact symbolicName_ne_nil last
  | range start stop name => exact symbolicName_ne_nil _
  | choose n => exact symbolicName_ne_nil _

theorem replayable_iff : Replayable events ↔
    ∀ call ∈ ownCalls events, call.creates = true ∧ call.requested = finalName events call := by
  constructor
  · intro h call hcall
    refine ⟨h.creates call hcall, ?_⟩
    rw [requested_eq_recorded (h.named call hcall)]
    cases call with
    | makeSymbolic object nbytes name =>
      rw [finalName, h.kept object nbytes name hcall]
      rfl
    | range start stop name => rfl
    | choose n => rfl
  · intro h
    have hnamed : ∀ call ∈ ownCalls events, ∀ name, call.given = some name → name.chars ≠ [] := by
      intro call hcall name hname hnil
      have heq := (h call hcall).2
      rw [requested_eq, hname, replayName, Option.getD_some] at heq
      exact finalName_ne_nil hcall (heq ▸ hnil)
    refine ⟨hnamed, fun call hcall => (h call hcall).1, ?_⟩
    intro object nbytes name hcall
    have heq := (h _ hcall).2
    rw [requested_eq_recorded (hnamed _ hcall)] at heq
    obtain ⟨last, hlast⟩ := lastName_isSome hcall
    rw [finalName, hlast, Option.getD_some] at heq
    rw [hlast, ← heq]
    rfl

end CgsKlee.Replay
