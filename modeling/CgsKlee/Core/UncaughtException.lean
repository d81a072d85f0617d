import CgsKlee.Core.Unwinding
import Mathlib.Logic.Function.Basic

/-!
# Uncaught exceptions

The search phase of the unwinding with all that it touches: the frames with their registers and allocas, the address
space, and the instructions that are executed.  A frame of the personality function is pushed with `prevPC` as its
caller.  For the first landing pad this is the call of `_klee_eh_Unwind_RaiseException_impl`, but for the next ones it is
the `Ret` instruction of the personality function itself, since that was executed last.  After an exception that nobody
catches control comes back behind the call only if there was at most one landing pad to ask about.
-/

namespace CgsKlee

namespace UncaughtException

open Landingpad (Clause Exception Outcome serializeLandingpad personality)
open Unwinding (Pad)
open Bytes

/-! ## The machine -/

/-- A `KInstIterator`: a place in the instructions of a function. -/
@[ext]
structure Position where
  function : Nat
  index : Nat
  deriving DecidableEq

def Position.next (p : Position) : Position := { p with index := p.index + 1 }

inductive Instruction
  | call
  | invoke (unwindDest : Pad) (normalDest : Position)
  | ret
  | other

/-- The module, and the places where the personality function returns after reading some clauses. -/
structure Program where
  instruction : Position → Instruction
  personalityFunction : Nat
  personalityRet : List UInt8 → Position
  ret_of_personalityRet : ∀ bytes, instruction (personalityRet bytes) = .ret
  landingpadEntry : Pad → Position

/-- `StackFrame`; the allocas are memory objects. -/
structure StackFrame where
  caller : Option Position
  kf : Nat
  locals : Nat → Option Nat
  allocas : List Nat

structure AddressSpace where
  objects : Nat → Option (List UInt8)
  next : Nat
  unbound : ∀ mo, next ≤ mo → objects mo = none

inductive UnwindingInformation
  | search (exceptionObject : Nat) (unwindingProgress : Nat) (serializedLandingpad : Option Nat)
  | cleanup (exceptionObject : Nat) (selectorValue : Int) (catchingStackIndex : Nat)

structure State where
  stack : List StackFrame
  addressSpace : AddressSpace
  pc : Position
  prevPC : Position
  unwindingInformation : Option UnwindingInformation
  terminated : Option String := none

def AddressSpace.bindObject (a : AddressSpace) (bytes : List UInt8) : AddressSpace where
  objects := Function.update a.objects a.next (some bytes)
  next := a.next + 1
  unbound mo hmo := by
    rw [Function.update_of_ne (by omega)]
    exact a.unbound mo (by omega)

def AddressSpace.unbindObject (a : AddressSpace) (mo : Nat) : AddressSpace where
  objects := Function.update a.objects mo none
  next := a.next
  unbound mo' hmo' := by
    by_cases h : mo' = mo
    · subst h
      exact Function.update_self ..
    · rw [Function.update_of_ne h]
      exact a.unbound mo' hmo'

def AddressSpace.write (a : AddressSpace) (mo offset : Nat) (bytes : List UInt8) : AddressSpace where
  objects := Function.update a.objects mo
    ((a.objects mo).map fun old => old.take offset ++ bytes ++ old.drop (offset + bytes.length))
  next := a.next
  unbound mo' hmo' := by
    by_cases h : mo' = mo
    · subst h
      rw [Function.update_self, a.unbound mo' hmo']
      rfl
    · rw [Function.update_of_ne h]
      exact a.unbound mo' hmo'

namespace State

def terminateStateOnExecError (s : State) (message : String) : State := { s with terminated := some message }

def pushFrame (s : State) (caller : Position) (kf : Nat) (arguments : Nat → Option Nat) : State :=
  { s with stack := s.stack ++ [⟨some caller, kf, arguments, []⟩] }

def popFrame (s : State) : State :=
  match s.stack.getLast? with
  | none => s
  | some sf => { s with
      stack := s.stack.dropLast
      addressSpace := sf.allocas.foldl AddressSpace.unbindObject s.addressSpace }

end State

variable (P : Program)

/-- The search phase at a landing pad with clauses, which belongs to the frame below index `i + 1`. -/
def askPersonality (s : State) (exceptionObject : Nat) (serialized : Option Nat) (i : Nat) (lpi : Pad) : Option State :=
  match serializeLandingpad lpi.clauses with
  | .error (.terminateStateOnExecError message) => some (s.terminateStateOnExecError message)
  | .error .nullAddress => none
  | .ok bytes =>
    match serialized with
    | some _ => none
    | none =>
      let mo := s.addressSpace.next
      let arguments : Nat → Option Nat
        | 0 => some exceptionObject
        | 1 => some bytes.length
        | 2 => some mo
        | _ => none
      some { s.pushFrame s.prevPC P.personalityFunction arguments with
        addressSpace := s.addressSpace.bindObject bytes
        pc := ⟨P.personalityFunction, 0⟩
        unwindingInformation := some (.search exceptionObject i (some mo)) }

/-- The end of `unwindToNextLandingpad`, behind its loop. -/
def noLandingpad (s : State) : UnwindingInformation → State
  | .search .. => { s with unwindingInformation := none }
  | .cleanup .. => s.terminateStateOnExecError "Missing landingpad in phase 2 of unwinding"

/-- The loop of `unwindToNextLandingpad` from the index given down to `lowestStackIndex`. -/
def unwindLoop (ui : UnwindingInformation) (lowestStackIndex : Nat) : Nat → State → Option State
  | 0, s => some (noLandingpad s ui)
  | i + 1, s =>
    if i + 1 > lowestStackIndex then
      match s.stack[i + 1]? with
      | none => none
      | some sf =>
        let s := match ui with
          | .search .. => s
          | .cleanup .. => s.popFrame
        match sf.caller.map P.instruction with
        | none => none
        | some (.invoke lpi _) =>
          match ui with
          | .search exceptionObject _ serialized =>
            -- a pure cleanup cannot be a handler
            if lpi.isCleanup ∧ lpi.clauses = [] then unwindLoop ui lowestStackIndex i s
            else askPersonality P s exceptionObject serialized i lpi
          | .cleanup .. => some { s with pc := P.landingpadEntry lpi }
        | some _ => unwindLoop ui lowestStackIndex i s
    else some (noLandingpad s ui)

/-- `Executor::unwindToNextLandingpad`.  `none` is a failed assertion or an index out of range. -/
def unwindToNextLandingpad (s : State) : Option State :=
  match s.unwindingInformation with
  | none => none
  | some (.search e progress serialized) => unwindLoop P (.search e progress serialized) 0 progress s
  | some (.cleanup e v catching) => unwindLoop P (.cleanup e v catching) catching (s.stack.length - 1) s

/-- `SpecialFunctionHandler::handleEhUnwindRaiseExceptionImpl` with a constant argument. -/
def handleEhUnwindRaiseExceptionImpl (s : State) (exceptionObject : Nat) : Option State :=
  match s.unwindingInformation with
  | some (.search ..) =>
    some (s.terminateStateOnExecError "Internal error: Unwinding restarted during an ongoing search phase")
  | _ => unwindToNextLandingpad P { s with
      unwindingInformation := some (.search exceptionObject (s.stack.length - 1) none) }

/-- The `Ret` case for the return of `_klee_eh_cxx_personality`. -/
def executePersonalityRet (s : State) (result : Int) : Option State :=
  match s.stack.getLast? with
  | none => none
  | some sf =>
    match sf.caller with
    | none => none
    | some kcaller =>
      let pc := match P.instruction kcaller with
        | .invoke _ normalDest => normalDest
        | _ => kcaller.next
      let s := { s.popFrame with pc := pc }
      match s.unwindingInformation with
      | some (.search e progress (some mo)) =>
        let s := { s with addressSpace := s.addressSpace.unbindObject mo }
        if result = 0 then unwindToNextLandingpad P { s with unwindingInformation := some (.search e progress none) }
        else unwindToNextLandingpad P { s with unwindingInformation := some (.cleanup e result progress) }
      | _ => none

/-! ## Runs -/

/-- An exception that is thrown, and where its `adjustedPtr` lies in memory. -/
structure Thrown where
  exceptionObject : Nat
  mo : Nat
  offset : Nat
  exc : Exception

def Thrown.adjustedPtr (t : Thrown) (a : AddressSpace) : Option Nat := do
  let bytes ← a.objects t.mo
  if t.offset + 8 ≤ bytes.length then some (toNat ((bytes.drop t.offset).take 8)) else none

/-- Memory after a store to `exception->adjustedPtr`. -/
def Thrown.store (t : Thrown) (v : Nat) (a : AddressSpace) : AddressSpace := a.write t.mo t.offset (le 8 v)

/-- The run of the personality function up to its `Ret` instruction, with the result that it returns.  It reads the
clauses, stores the adjusted pointer, and leaves objects of its own in its frame. -/
inductive PersonalityRun (t : Thrown) : State → State → Int → Prop
  | mk {s : State} {below : List StackFrame} {sf : StackFrame} {bytes : List UInt8} {mo ptr : Nat} {o : Outcome}
      {locals : Nat → Option Nat} {allocas : List Nat} {addressSpace : AddressSpace}
      (hpc : s.pc = ⟨P.personalityFunction, 0⟩) (hstack : s.stack = below ++ [sf])
      (hexception : sf.locals 0 = some t.exceptionObject) (hsize : sf.locals 1 = some bytes.length)
      (hbase : sf.locals 2 = some mo) (hbytes : s.addressSpace.objects mo = some bytes)
      (hptr : t.adjustedPtr s.addressSpace = some ptr) (hpersonality : personality t.exc ptr bytes = some o)
      (hnew : ∀ m ∈ allocas, (t.store o.adjustedPtr s.addressSpace).objects m = none)
      (hold : ∀ m, m ∉ allocas → addressSpace.objects m = (t.store o.adjustedPtr s.addressSpace).objects m) :
      PersonalityRun t s { s with
        stack := below ++ [{ sf with locals := locals, allocas := sf.allocas ++ allocas }]
        addressSpace := addressSpace, prevPC := P.personalityRet bytes, pc := (P.personalityRet bytes).next } o.value

/-- One landing pad is asked about: the personality function runs and returns, and the unwinding goes on. -/
inductive Round (t : Thrown) : State → State → Prop
  | mk {s s₁ s' : State} {result : Int} (hlive : s.terminated = none) (hrun : PersonalityRun P t s s₁ result)
      (hret : executePersonalityRet P s₁ result = some s') : Round t s s'

abbrev Rounds (t : Thrown) : State → State → Prop := Relation.ReflTransGen (Round P t)

def StackFrame.clausePad (sf : StackFrame) : Option Pad :=
  match sf.caller.map P.instruction with
  | some (.invoke lpi _) => if lpi.clauses = [] then none else some lpi
  | _ => none

def clausePads (s : State) : List Pad := s.stack.tail.filterMap (StackFrame.clausePad P)

/-- The personality function answers that the landing pad does not catch the exception. -/
def Declines (t : Thrown) (lpi : Pad) : Prop :=
  ∀ bytes ptr, serializeLandingpad lpi.clauses = .ok bytes → ∃ o, personality t.exc ptr bytes = some o ∧ o.value = 0

/-- The state after an exception that nobody caught, the program being where it was. -/
structure LeavesProgram (s sf : State) : Prop where
  stack : sf.stack = s.stack
  objects : sf.addressSpace.objects = s.addressSpace.objects
  unwindingInformation : sf.unwindingInformation = none
  pc : sf.pc = s.prevPC.next

theorem unbindObjects_objects (mos : List Nat) : ∀ (a : AddressSpace) (m : Nat),
    (mos.foldl AddressSpace.unbindObject a).objects m = if m ∈ mos then none else a.objects m := by
  induction mos with
  | nil => simp
  | cons mo mos ih =>
    intro a m
    rw [List.foldl_cons, ih]
    by_cases hm : m ∈ mos
    · simp [hm]
    · by_cases heq : m = mo
      · subst heq
        simp [AddressSpace.unbindObject]
      · simp [hm, heq, AddressSpace.unbindObject]

variable {a : AddressSpace} {bytes : List UInt8}

theorem Thrown.store_objects (t : Thrown) (v : Nat) {a' : AddressSpace} {m : Nat} (h : a.objects m = a'.objects m) :
    (t.store v a).objects m = (t.store v a').objects m := by
  unfold Thrown.store AddressSpace.write
  dsimp only
  by_cases hm : m = t.mo
  · subst hm
    rw [Function.update_self, Function.update_self, h]
  · rw [Function.update_of_ne hm, Function.update_of_ne hm, h]

theorem Thrown.store_eq_none (t : Thrown) (v : Nat) {m : Nat} (h : a.objects m = none) :
    (t.store v a).objects m = none := by
  unfold Thrown.store AddressSpace.write
  dsimp only
  by_cases hm : m = t.mo
  · subst hm
    rw [Function.update_self, h]
    rfl
  · rw [Function.update_of_ne hm, h]

theorem Thrown.adjustedPtr_congr (t : Thrown) {a' : AddressSpace} (h : a.objects t.mo = a'.objects t.mo) :
    t.adjustedPtr a = t.adjustedPtr a' := by
  unfold Thrown.adjustedPtr
  rw [h]

theorem Thrown.bound_of_adjustedPtr {t : Thrown} {ptr : Nat} (h : t.adjustedPtr a = some ptr) :
    ∃ bytes, a.objects t.mo = some bytes ∧ t.offset + 8 ≤ bytes.length ∧
      toNat ((bytes.drop t.offset).take 8) = ptr := by
  obtain ⟨bytes, hbytes, h⟩ := Option.bind_eq_some_iff.mp h
  split at h
  · rename_i hlen
    exact ⟨bytes, hbytes, hlen, Option.some.inj h⟩
  · cases h

theorem Thrown.adjustedPtr_store {t : Thrown} {ptr : Nat} (h : t.adjustedPtr a = some ptr) (v : Nat) :
    ∃ ptr', t.adjustedPtr (t.store v a) = some ptr' := by
  obtain ⟨bytes, hbytes, hlen, -⟩ := Thrown.bound_of_adjustedPtr h
  unfold Thrown.adjustedPtr Thrown.store AddressSpace.write
  dsimp only
  rw [Function.update_self, hbytes]
  simp only [Option.map_some, Option.bind_eq_bind, Option.bind_some]
  refine ⟨_, if_pos ?_⟩
  simp only [List.length_append, List.length_take, List.length_drop, length_le]
  omega

theorem Thrown.store_objects_eq_iff {t : Thrown} {ptr : Nat} (h : t.adjustedPtr a = some ptr)
    (v : Nat) : (t.store v a).objects = a.objects ↔ v % 2 ^ 64 = ptr := by
  obtain ⟨bytes, hbytes, hlen, hptr⟩ := Thrown.bound_of_adjustedPtr h
  have hsplit : bytes = bytes.take t.offset ++ (bytes.drop t.offset).take 8 ++ bytes.drop (t.offset + 8) := by
    rw [List.append_assoc, ← List.drop_drop, List.take_append_drop, List.take_append_drop]
  have hstored : (t.store v a).objects = a.objects ↔
      bytes.take t.offset ++ le 8 v ++ bytes.drop (t.offset + 8) = bytes := by
    unfold Thrown.store AddressSpace.write
    dsimp only
    rw [hbytes, Option.map_some, length_le, Function.update_eq_self_iff, hbytes, Option.some.injEq]
  have hsize : ((bytes.drop t.offset).take 8).length = (le 8 v).length := by
    rw [List.length_take, List.length_drop, length_le]
    omega
  have hvalue : le 8 v = (bytes.drop t.offset).take 8 ↔ v % 2 ^ 64 = ptr := by
    rw [← hptr, show 2 ^ 64 = 256 ^ 8 from rfl, ← toNat_le]
    exact ⟨fun h => congrArg toNat h, fun h => toNat_inj hsize.symm h⟩
  rw [hstored, ← hvalue]
  constructor
  · intro heq
    have hparts := heq.trans hsplit
    exact List.append_cancel_left (List.append_cancel_right hparts)
  · intro heq
    rw [heq]
    exact hsplit.symm

variable {P} {t : Thrown}

/-- The stack, without what the frames hold, and the caller of the next frame of the personality function. -/
structure Searching (P : Program) (t : Thrown) (first : StackFrame) (rest : List StackFrame) (s : State) : Prop where
  live : s.terminated = none
  stack : s.stack = first :: rest
  called : ∀ sf ∈ rest, sf.caller.isSome
  notInvoke : P.instruction s.prevPC = .call ∨ P.instruction s.prevPC = .ret
  exception : ∃ ptr, t.adjustedPtr s.addressSpace = some ptr

theorem popFrame_concat {s : State} {below : List StackFrame} {sf : StackFrame} (h : s.stack = below ++ [sf]) :
    s.popFrame = { s with
      stack := below, addressSpace := sf.allocas.foldl AddressSpace.unbindObject s.addressSpace } := by
  unfold State.popFrame
  rw [h, List.getLast?_concat, List.dropLast_concat]

/-- The state in which the personality function starts. -/
def asked (P : Program) (t : Thrown) (s : State) (i : Nat) (bytes : List UInt8) : State :=
  { s with
    stack := s.stack ++ [⟨some s.prevPC, P.personalityFunction, fun
      | 0 => some t.exceptionObject
      | 1 => some bytes.length
      | 2 => some s.addressSpace.next
      | _ => none, []⟩]
    addressSpace := s.addressSpace.bindObject bytes
    pc := ⟨P.personalityFunction, 0⟩
    unwindingInformation := some (.search t.exceptionObject i (some s.addressSpace.next)) }

theorem askPersonality_eq {q : Pad} (hbytes : serializeLandingpad q.clauses = .ok bytes)
    (s : State) (i : Nat) : askPersonality P s t.exceptionObject none i q = some (asked P t s i bytes) := by
  unfold askPersonality
  rw [hbytes]
  rfl

variable {first : StackFrame} {rest : List StackFrame} {s : State}

theorem Searching.ne_next (h : Searching P t first rest s) : t.mo ≠ s.addressSpace.next := by
  intro heq
  obtain ⟨ptr, hptr⟩ := h.exception
  obtain ⟨bytes, hbytes, -⟩ := Thrown.bound_of_adjustedPtr hptr
  rw [heq, s.addressSpace.unbound _ (Nat.le_refl _)] at hbytes
  cases hbytes

theorem Searching.adjustedPtr_asked (h : Searching P t first rest s) (i : Nat) (bytes : List UInt8) :
    t.adjustedPtr (asked P t s i bytes).addressSpace = t.adjustedPtr s.addressSpace :=
  t.adjustedPtr_congr (Function.update_of_ne h.ne_next _ _)

/-- After the return of the personality function only its store of an adjusted pointer is left, and the next frame
will be pushed with its `Ret` instruction as the caller. -/
theorem executePersonalityRet_of_run (h : Searching P t first rest s) {i : Nat} {s₁ : State}
    {result : Int} (hrun : PersonalityRun P t (asked P t s i bytes) s₁ result) :
    ∃ ptr o s', t.adjustedPtr s.addressSpace = some ptr ∧ personality t.exc ptr bytes = some o ∧ result = o.value ∧
      Searching P t first rest s' ∧ s'.addressSpace.objects = (t.store o.adjustedPtr s.addressSpace).objects ∧
      s'.pc = s.prevPC.next ∧ P.instruction s'.prevPC = .ret ∧
      executePersonalityRet P s₁ 0 = unwindLoop P (.search t.exceptionObject i none) 0 i s' := by
  cases hrun with
  | @mk below sf bytes' mo ptr o locals allocas addressSpace hpc hstack hexception hsize hbase hbytes hptr hpersonality
      hnew hold =>
    obtain ⟨rfl, hsf⟩ := List.append_inj' hstack rfl
    obtain rfl := (List.cons.inj hsf).1
    obtain rfl : mo = s.addressSpace.next := (Option.some.inj hbase).symm
    have hsame : (asked P t s i bytes).addressSpace.objects s.addressSpace.next = some bytes :=
      Function.update_self ..
    obtain rfl : bytes' = bytes := Option.some.inj (hbytes.symm.trans hsame)
    rw [h.adjustedPtr_asked] at hptr
    -- the frame's own objects and the clauses are unbound
    let a := (allocas.foldl AddressSpace.unbindObject addressSpace).unbindObject s.addressSpace.next
    have hobjects : a.objects = (t.store o.adjustedPtr s.addressSpace).objects := by
      funext m
      by_cases hm : m = s.addressSpace.next
      · rw [hm, t.store_eq_none _ (s.addressSpace.unbound _ (Nat.le_refl _))]
        exact Function.update_self ..
      · have hbound : (asked P t s i bytes').addressSpace.objects m = s.addressSpace.objects m :=
          Function.update_of_ne hm _ _
        rw [← t.store_objects o.adjustedPtr hbound]
        change Function.update _ _ _ _ = _
        rw [Function.update_of_ne hm, unbindObjects_objects]
        split
        · rename_i hmem
          exact (hnew m hmem).symm
        · rename_i hmem
          exact hold m hmem
    let s' : State := { s with
      addressSpace := a, pc := s.prevPC.next, prevPC := P.personalityRet bytes'
      unwindingInformation := some (.search t.exceptionObject i none) }
    have hret := P.ret_of_personalityRet bytes'
    have hexists : ∃ ptr', t.adjustedPtr s'.addressSpace = some ptr' := by
      obtain ⟨ptr', hptr'⟩ := Thrown.adjustedPtr_store hptr o.adjustedPtr
      exact ⟨ptr', (t.adjustedPtr_congr (congrFun hobjects t.mo)).trans hptr'⟩
    refine ⟨ptr, o, s', hptr, hpersonality, rfl, ⟨h.live, h.stack, h.called, Or.inr hret, hexists⟩, hobjects, rfl, hret,
      ?_⟩
    have hpc : (match P.instruction s.prevPC with
        | .invoke _ normalDest => normalDest
        | _ => s.prevPC.next) = s.prevPC.next := by
      rcases h.notInvoke with hcall | hret <;> simp [*]
    unfold executePersonalityRet
    dsimp only
    rw [List.getLast?_concat]
    dsimp only
    rw [hpc, popFrame_concat rfl]
    rfl

theorem exists_personalityRun (h : Searching P t first rest s) {i : Nat} {ptr : Nat} {o : Outcome}
    (hptr : t.adjustedPtr s.addressSpace = some ptr) (hpersonality : personality t.exc ptr bytes = some o) :
    ∃ s₁, PersonalityRun P t (asked P t s i bytes) s₁ o.value :=
  ⟨_, @PersonalityRun.mk P t _ s.stack _ bytes s.addressSpace.next ptr o (fun _ => none) []
    (t.store o.adjustedPtr (asked P t s i bytes).addressSpace) rfl rfl rfl rfl rfl (Function.update_self ..)
    ((h.adjustedPtr_asked i bytes).trans hptr) hpersonality (List.forall_mem_nil _) fun _ _ => rfl⟩

/-- Where the search phase ends, after asking about the landing pads given. -/
inductive SearchEnd (P : Program) (t : Thrown) (s sf : State) : List Pad → Prop
  | notAsked (hobjects : sf.addressSpace.objects = s.addressSpace.objects) (hpc : sf.pc = s.pc) : SearchEnd P t s sf []
  | askedOnce {q : Pad} {bytes : List UInt8} {ptr : Nat} {o : Outcome} (hbytes : serializeLandingpad q.clauses = .ok bytes)
      (hptr : t.adjustedPtr s.addressSpace = some ptr) (hpersonality : personality t.exc ptr bytes = some o)
      (hobjects : sf.addressSpace.objects = (t.store o.adjustedPtr s.addressSpace).objects)
      (hpc : sf.pc = s.prevPC.next) : SearchEnd P t s sf [q]
  | askedAgain {qs : List Pad} (hqs : 1 < qs.length) (hpc : ∃ p, P.instruction p = .ret ∧ sf.pc = p.next) :
      SearchEnd P t s sf qs

/-- The outcome of a search phase that begins in the state given. -/
structure Searches (P : Program) (t : Thrown) (s s₁ : State) (qs : List Pad) : Prop where
  ends : ∀ s', Rounds P t s₁ s' → ∃ sf, Rounds P t s' sf ∧ sf.unwindingInformation = none
  result : ∀ sf, Rounds P t s₁ sf → sf.unwindingInformation = none → sf.stack = s.stack ∧ SearchEnd P t s sf qs

theorem unwindLoop_succ (h : Searching P t first rest s) {i k : Nat} {sf : StackFrame} (hsf : rest[i]? = some sf) :
    unwindLoop P (.search t.exceptionObject k none) 0 (i + 1) s = match sf.clausePad P with
      | none => unwindLoop P (.search t.exceptionObject k none) 0 i s
      | some q => askPersonality P s t.exceptionObject none i q := by
  have hcaller := h.called sf (List.mem_of_getElem? hsf)
  obtain ⟨p, hp⟩ := Option.isSome_iff_exists.mp hcaller
  rw [unwindLoop, if_pos (Nat.succ_pos i), h.stack, List.getElem?_cons_succ, hsf]
  unfold StackFrame.clausePad
  dsimp only
  rw [hp, Option.map_some]
  cases hinstruction : P.instruction p with
  | invoke q normalDest =>
    dsimp only
    by_cases hq : q.clauses = []
    · rw [if_pos ⟨q.cleanup_of_no_clause hq, hq⟩, if_pos hq]
    · rw [if_neg fun h => hq h.2, if_neg hq]
  | call => rfl
  | ret => rfl
  | other => rfl

theorem not_round_of_none {s s' : State} (hui : s.unwindingInformation = none) : ¬ Round P t s s' := by
  rintro ⟨-, hrun, hret⟩
  cases hrun with
  | mk =>
    unfold executePersonalityRet at hret
    rw [List.getLast?_concat] at hret
    dsimp only at hret
    split at hret
    · cases hret
    · rw [popFrame_concat rfl] at hret
      simp [hui] at hret

theorem rounds_of_none {s s' : State} (hui : s.unwindingInformation = none) (h : Rounds P t s s') : s' = s := by
  rcases Relation.ReflTransGen.cases_head h with heq | ⟨s₁, hround, -⟩
  · exact heq.symm
  · exact absurd hround (not_round_of_none hui)

theorem round_asked (h : Searching P t first rest s) {q : Pad} (hq : Declines t q)
    (hbytes : serializeLandingpad q.clauses = .ok bytes) {i : Nat} {s₂ : State}
    (hround : Round P t (asked P t s i bytes) s₂) :
    ∃ ptr o s', t.adjustedPtr s.addressSpace = some ptr ∧ personality t.exc ptr bytes = some o ∧
      Searching P t first rest s' ∧ s'.addressSpace.objects = (t.store o.adjustedPtr s.addressSpace).objects ∧
      s'.pc = s.prevPC.next ∧ P.instruction s'.prevPC = .ret ∧
      unwindLoop P (.search t.exceptionObject i none) 0 i s' = some s₂ := by
  obtain ⟨-, hrun, hret⟩ := hround
  obtain ⟨ptr, o, s', hptr, hpersonality, rfl, hsearching, hobjects, hpc, hinstruction, hloop⟩ :=
    executePersonalityRet_of_run h hrun
  obtain ⟨o', ho', hzero⟩ := hq bytes ptr hbytes
  obtain rfl : o = o' := Option.some.inj (hpersonality.symm.trans ho')
  rw [hzero, hloop] at hret
  exact ⟨ptr, o, s', hptr, hpersonality, hsearching, hobjects, hpc, hinstruction, hret⟩

theorem exists_round_asked (h : Searching P t first rest s) {q : Pad} (hq : Declines t q)
    (hbytes : serializeLandingpad q.clauses = .ok bytes) {i : Nat} :
    ∃ s', Searching P t first rest s' ∧ ∀ s₂, unwindLoop P (.search t.exceptionObject i none) 0 i s' = some s₂ →
      Round P t (asked P t s i bytes) s₂ := by
  obtain ⟨ptr, hptr⟩ := h.exception
  obtain ⟨o, ho, hzero⟩ := hq bytes ptr hbytes
  obtain ⟨s₁, hrun⟩ := exists_personalityRun h (i := i) hptr ho
  obtain ⟨-, -, s', -, -, -, hsearching, -, -, -, hloop⟩ := executePersonalityRet_of_run h hrun
  refine ⟨s', hsearching, fun s₂ hs₂ => .mk h.live hrun ?_⟩
  rw [hzero, hloop]
  exact hs₂

theorem search_phase_ends (i : Nat) (hi : i ≤ rest.length) : ∀ (k : Nat) {s : State}, Searching P t first rest s →
    (∀ q ∈ (rest.take i).filterMap (StackFrame.clausePad P), Declines t q) →
    ∃ s₁, unwindLoop P (.search t.exceptionObject k none) 0 i s = some s₁ ∧
      Searches P t s s₁ ((rest.take i).filterMap (StackFrame.clausePad P)) := by
  induction i with
  | zero =>
    intro k s h _
    refine ⟨{ s with unwindingInformation := none }, rfl, fun s' hs' => ?_, fun sf hsf _ => ?_⟩
    · exact ⟨s', .refl, rounds_of_none rfl hs' ▸ rfl⟩
    · obtain rfl := rounds_of_none rfl hsf
      exact ⟨rfl, .notAsked rfl rfl⟩
  | succ i ih =>
    intro k s h hdeclines
    have hlt : i < rest.length := hi
    have htake : rest.take (i + 1) = rest.take i ++ [rest[i]] := by simp
    rw [htake, List.filterMap_append] at hdeclines ⊢
    rw [unwindLoop_succ h (List.getElem?_eq_getElem hlt)]
    have hbelow : ∀ q ∈ (rest.take i).filterMap (StackFrame.clausePad P), Declines t q :=
      fun q hq => hdeclines q (List.mem_append_left _ hq)
    cases hpad : rest[i].clausePad P with
    | none =>
      have hnil : [rest[i]].filterMap (StackFrame.clausePad P) = [] := by simp [hpad]
      rw [hnil, List.append_nil]
      exact ih hlt.le k h hbelow
    | some q =>
      have hone : [rest[i]].filterMap (StackFrame.clausePad P) = [q] := by simp [hpad]
      rw [hone] at hdeclines ⊢
      have hq : Declines t q := hdeclines q (List.mem_append_right _ (.head _))
      obtain ⟨bytes, hbytes⟩ := q.serializes
      refine ⟨asked P t s i bytes, askPersonality_eq hbytes s i, fun s' hs' => ?_, fun sf hsf hui => ?_⟩
      · rcases Relation.ReflTransGen.cases_head hs' with rfl | ⟨s₂, hround, hrest⟩
        · obtain ⟨s₃, hsearching, hnext⟩ := exists_round_asked h hq hbytes (i := i)
          obtain ⟨s₂, hloop, hsearches⟩ := ih hlt.le i hsearching hbelow
          obtain ⟨sf, hsf, hui⟩ := hsearches.ends s₂ .refl
          exact ⟨sf, .head (hnext s₂ hloop) hsf, hui⟩
        · obtain ⟨-, -, s₃, -, -, hsearching, -, -, -, hloop⟩ := round_asked h hq hbytes hround
          obtain ⟨s₂', hloop', hsearches⟩ := ih hlt.le i hsearching hbelow
          obtain rfl := Option.some.inj (hloop.symm.trans hloop')
          exact hsearches.ends s' hrest
      · rcases Relation.ReflTransGen.cases_head hsf with rfl | ⟨s₂, hround, hrest⟩
        · cases hui
        · obtain ⟨ptr, o, s₃, hptr, hpersonality, hsearching, hobjects, hpc, hret, hloop⟩ :=
            round_asked h hq hbytes hround
          obtain ⟨s₂', hloop', hsearches⟩ := ih hlt.le i hsearching hbelow
          obtain rfl := Option.some.inj (hloop.symm.trans hloop')
          obtain ⟨hstack, hend⟩ := hsearches.result sf hrest hui
          refine ⟨hstack.trans (hsearching.stack.trans h.stack.symm), ?_⟩
          cases hqs : (rest.take i).filterMap (StackFrame.clausePad P) with
          | nil =>
            rw [hqs] at hend
            cases hend with
            | notAsked hobjects' hpc' =>
              exact .askedOnce hbytes hptr hpersonality (hobjects'.trans hobjects) (hpc'.trans hpc)
            | askedAgain hlen => cases hlen
          | cons q' qs =>
            refine .askedAgain (by simp) ?_
            rw [hqs] at hend
            cases hend with
            | askedOnce _ _ _ _ hpc' => exact ⟨_, hret, hpc'⟩
            | askedAgain _ hpc' => exact hpc'

/-- The state executes a call of `_klee_eh_Unwind_RaiseException_impl`, outside of a search phase: `prevPC` is the call,
and every frame but the first one was called. -/
structure Raises (P : Program) (t : Thrown) (s : State) : Prop where
  live : s.terminated = none
  called : s.stack ≠ [] ∧ ∀ sf ∈ s.stack.tail, sf.caller.isSome
  call : P.instruction s.prevPC = .call
  pc : s.pc = s.prevPC.next
  exception : ∃ ptr, t.adjustedPtr s.addressSpace = some ptr
  phase : ∀ e i mo, s.unwindingInformation ≠ some (.search e i mo)

/-- At most one landing pad is asked about, and the run about it stores the adjusted pointer that is there. -/
def AsksOnce (P : Program) (t : Thrown) (s : State) : Prop :=
  (clausePads P s).length ≤ 1 ∧ ∀ q ∈ clausePads P s, ∀ bytes ptr o, serializeLandingpad q.clauses = .ok bytes →
    t.adjustedPtr s.addressSpace = some ptr → personality t.exc ptr bytes = some o → o.adjustedPtr % 2 ^ 64 = ptr

theorem SearchEnd.congr {s s' sf : State} {qs : List Pad} (h : SearchEnd P t s sf qs)
    (haddressSpace : s'.addressSpace = s.addressSpace) (hpc : s'.pc = s.pc) (hprevPC : s'.prevPC = s.prevPC) :
    SearchEnd P t s' sf qs := by
  cases h with
  | notAsked hobjects hend => exact .notAsked (haddressSpace ▸ hobjects) (hend.trans hpc.symm)
  | askedOnce hbytes hptr hpersonality hobjects hend =>
    exact .askedOnce hbytes (haddressSpace ▸ hptr) hpersonality (haddressSpace ▸ hobjects) (hprevPC ▸ hend)
  | askedAgain hqs hend => exact .askedAgain hqs hend

theorem Raises.searches {s : State} (h : Raises P t s) (hdeclines : ∀ q ∈ clausePads P s, Declines t q) :
    ∃ s₁, handleEhUnwindRaiseExceptionImpl P s t.exceptionObject = some s₁ ∧ Searches P t s s₁ (clausePads P s) := by
  obtain ⟨first, rest, hstack⟩ := List.exists_cons_of_ne_nil h.called.1
  have hpads : clausePads P s = (rest.take rest.length).filterMap (StackFrame.clausePad P) := by
    unfold clausePads
    rw [hstack, List.take_length]
    rfl
  have hcalled := h.called.2
  rw [hstack, List.tail_cons] at hcalled
  have hlen : s.stack.length - 1 = rest.length := by
    rw [hstack]
    rfl
  let s₀ : State := { s with unwindingInformation := some (.search t.exceptionObject rest.length none) }
  have hsearching : Searching P t first rest s₀ := ⟨h.live, hstack, hcalled, Or.inl h.call, h.exception⟩
  rw [hpads] at hdeclines
  obtain ⟨s₁, hloop, hsearches⟩ := search_phase_ends rest.length le_rfl rest.length hsearching hdeclines
  refine ⟨s₁, ?_, ?_⟩
  · unfold handleEhUnwindRaiseExceptionImpl
    split
    · rename_i hui
      exact absurd hui (h.phase _ _ _)
    · rw [hlen]
      exact hloop
  · rw [hpads]
    refine ⟨hsearches.ends, fun sf hsf hui => ?_⟩
    obtain ⟨hsame, hend⟩ := hsearches.result sf hsf hui
    exact ⟨hsame, hend.congr rfl rfl rfl⟩

theorem SearchEnd.leaves_iff {s sf : State} (h : Raises P t s) (hstack : sf.stack = s.stack)
    (hui : sf.unwindingInformation = none) (hend : SearchEnd P t s sf (clausePads P s)) :
    LeavesProgram s sf ↔ AsksOnce P t s := by
  unfold AsksOnce
  generalize clausePads P s = qs at hend
  cases hend with
  | notAsked hobjects hpc =>
    refine ⟨fun _ => ⟨Nat.zero_le _, List.forall_mem_nil _⟩, fun _ => ⟨hstack, hobjects, hui, hpc.trans h.pc⟩⟩
  | @askedOnce q bytes ptr o hbytes hptr hpersonality hobjects hpc =>
    constructor
    · intro hleaves
      refine ⟨Nat.le_refl _, fun q' hq' bytes' ptr' o' hbytes' hptr' hpersonality' => ?_⟩
      obtain rfl := List.mem_singleton.mp hq'
      rw [hbytes] at hbytes'
      cases hbytes'
      rw [hptr] at hptr'
      cases hptr'
      rw [hpersonality] at hpersonality'
      cases hpersonality'
      exact (Thrown.store_objects_eq_iff hptr _).mp (hobjects.symm.trans hleaves.objects)
    · rintro ⟨-, hstores⟩
      have hptr' := hstores q (.head _) bytes ptr o hbytes hptr hpersonality
      exact ⟨hstack, hobjects.trans ((Thrown.store_objects_eq_iff hptr _).mpr hptr'), hui, hpc⟩
  | askedAgain hqs hpc =>
    refine ⟨fun hleaves => ?_, fun hone => absurd hone.1 (Nat.not_le.mpr hqs)⟩
    obtain ⟨p, hret, hp⟩ := hpc
    have hnext : p.next = s.prevPC.next := hp.symm.trans hleaves.pc
    have hsame : p = s.prevPC := by
      cases p
      simpa [Position.next, Position.ext_iff] using hnext
    rw [hsame, h.call] at hret
    cases hret

/-- An exception that every landing pad declines is searched for through the whole stack, and the search ends.  The
program is then where it was exactly if at most one landing pad had clauses and the personality function stored no
other adjusted pointer on reading them. -/
theorem leavesProgram_iff (P : Program) (t : Thrown) (s : State) (h : Raises P t s)
    (hdeclines : ∀ q ∈ clausePads P s, Declines t q) :
    ∃ s₁, handleEhUnwindRaiseExceptionImpl P s t.exceptionObject = some s₁ ∧
      (∀ s', Rounds P t s₁ s' → ∃ sf, Rounds P t s' sf ∧ sf.unwindingInformation = none) ∧
      ∀ sf, Rounds P t s₁ sf → sf.unwindingInformation = none → (LeavesProgram s sf ↔ AsksOnce P t s) := by
  obtain ⟨s₁, hraise, hsearches⟩ := h.searches hdeclines
  refine ⟨s₁, hraise, hsearches.ends, fun sf hsf hui => ?_⟩
  obtain ⟨hstack, hend⟩ := hsearches.result sf hsf hui
  exact SearchEnd.leaves_iff h hstack hui hend

def otherType : Pad where
  id := 1
  isCleanup := false
  clauses := [.catchClause Landingpad.type32]
  cleanup_of_no_clause := by simp
  serializes := ⟨_, rfl⟩

/-- The functions `1` and `2` were called by `invoke` instructions, and `2` raises the exception. -/
def twoInvokes : Program where
  instruction p :=
    if p = ⟨0, 0⟩ ∨ p = ⟨1, 0⟩ then .invoke otherType p.next
    else if p = ⟨2, 0⟩ then .call
    else .ret
  personalityFunction := 9
  personalityRet _ := ⟨9, 7⟩
  ret_of_personalityRet _ := by simp
  landingpadEntry q := ⟨q.id, 20⟩

def raisedException : Thrown := ⟨64, 0, 0, Landingpad.thrown⟩

/-- The state behind the call, with frames of `2` and maybe of `1` above the first one. -/
def raising (callers : List Position) : State where
  stack := ⟨none, 0, fun _ => none, []⟩ :: callers.map fun p => ⟨some p, p.function + 1, fun _ => none, []⟩
  addressSpace :=
    { objects := fun mo => if mo = 0 then some (List.replicate 8 0) else none
      next := 1
      unbound := fun mo hmo => if_neg (by omega) }
  pc := ⟨2, 1⟩
  prevPC := ⟨2, 0⟩
  unwindingInformation := none

theorem raises_raising (callers : List Position) : Raises twoInvokes raisedException (raising callers) := by
  refine ⟨rfl, ⟨nofun, fun sf hsf => ?_⟩, rfl, rfl, ⟨0, rfl⟩, nofun⟩
  obtain ⟨p, -, rfl⟩ := List.mem_map.mp hsf
  rfl

theorem declines_otherType : Declines raisedException otherType := by
  intro bytes ptr hbytes
  cases hbytes
  exact ⟨_, rfl, rfl⟩

/-- With one landing pad on the way. -/
theorem leavesProgram_iff_single :
    ∃ s₁, handleEhUnwindRaiseExceptionImpl twoInvokes (raising [⟨1, 0⟩]) 64 = some s₁ ∧
      ∀ sf, Rounds twoInvokes raisedException s₁ sf → sf.unwindingInformation = none →
        (LeavesProgram (raising [⟨1, 0⟩]) sf ↔ AsksOnce twoInvokes raisedException (raising [⟨1, 0⟩])) := by
  obtain ⟨s₁, hraise, -, hends⟩ := leavesProgram_iff twoInvokes raisedException (raising [⟨1, 0⟩]) (raises_raising _)
    (fun q hq => by
      obtain rfl : q = otherType := List.mem_singleton.mp hq
      exact declines_otherType)
  exact ⟨s₁, hraise, hends⟩

/-- With two of them control is lost: it comes back behind the `Ret` of the personality function. -/
theorem uncaught_loses_control :
    ∃ s₁ sf, Raises twoInvokes raisedException (raising [⟨0, 0⟩, ⟨1, 0⟩]) ∧
      handleEhUnwindRaiseExceptionImpl twoInvokes (raising [⟨0, 0⟩, ⟨1, 0⟩]) 64 = some s₁ ∧
      (∀ q ∈ clausePads twoInvokes (raising [⟨0, 0⟩, ⟨1, 0⟩]), Declines raisedException q) ∧
      Rounds twoInvokes raisedException s₁ sf ∧ sf.unwindingInformation = none ∧
      ¬LeavesProgram (raising [⟨0, 0⟩, ⟨1, 0⟩]) sf := by
  have hdeclines : ∀ q ∈ clausePads twoInvokes (raising [⟨0, 0⟩, ⟨1, 0⟩]), Declines raisedException q := by
    intro q hq
    have hpads : clausePads twoInvokes (raising [⟨0, 0⟩, ⟨1, 0⟩]) = [otherType, otherType] := rfl
    rw [hpads] at hq
    obtain rfl : q = otherType := by simpa using hq
    exact declines_otherType
  obtain ⟨s₁, hraise, hsearches⟩ := (raises_raising [⟨0, 0⟩, ⟨1, 0⟩]).searches hdeclines
  obtain ⟨sf, hsf, hui⟩ := hsearches.ends s₁ .refl
  refine ⟨s₁, sf, raises_raising _, hraise, hdeclines, hsf, hui, fun hleaves => ?_⟩
  obtain ⟨hstack, hend⟩ := hsearches.result sf hsf hui
  have hone := (SearchEnd.leaves_iff (raises_raising _) hstack hui hend).mp hleaves
  exact absurd hone.1 (by decide)

end UncaughtException

end CgsKlee
