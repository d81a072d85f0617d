import CgsKlee.Core.Landingpad
import Mathlib.Data.List.Induction
import Mathlib.Logic.Relation

/-!
# Two-phase unwinding

An exception is raised by `_klee_eh_Unwind_RaiseException_impl`.  In the search phase `unwindToNextLandingpad` walks
down the call stack from the top, without popping it, and pushes a frame of the personality function for every landing
pad that has clauses; the return from that function goes on with the search, or switches to the cleanup phase.  There
`unwindToNextLandingpad` pops frames until one was entered by an `invoke` and jumps to its unwind destination; the
`landingpad` instruction ends the unwinding at the frame that was found, and elsewhere the cleanup ends in `resume`.

`raise_reaches_handler` is the protocol as a whole: what is asked, what is popped and what is entered, in which order.
-/

namespace CgsKlee

namespace Unwinding

open Landingpad (Clause serializeLandingpad)

/-! ## The machine -/

/-- A `landingpad` instruction, as the verifier of LLVM lets it pass, with clauses of the form that the front end gives
them. -/
structure Pad where
  id : Nat
  isCleanup : Bool
  clauses : List Clause
  cleanup_of_no_clause : clauses = [] → isCleanup = true
  serializes : ∃ bytes, serializeLandingpad clauses = .ok bytes

inductive Caller
  | call
  | invoke (unwindDest : Pad)

/-- A frame of the stack: of the first function, of a function that was called, or of the personality function, with the
landing pad whose clauses are its argument. -/
inductive Frame
  | initial
  | called (caller : Caller)
  | personality (pad : Pad)

/-- `StackFrame::caller`.  The personality function is called by the instruction that the state executes, which is the
call of the special function or the return of the personality function. -/
def Frame.caller : Frame → Option Caller
  | initial => none
  | called c => some c
  | personality _ => some .call

inductive UnwindingInformation
  | search (exceptionObject : Nat) (unwindingProgress : Nat) (serializedLandingpad : Option (List UInt8))
  | cleanup (exceptionObject : Nat) (selectorValue : BitVec 32) (catchingStackIndex : Nat)

/-- Where the execution goes on: at the start of the personality function, at a landing pad, or anywhere else. -/
inductive Pc
  | code
  | personality
  | unwindDest (pad : Pad)

inductive Event
  | asked (pad : Pad)
  | entered (pad : Pad) (exceptionPointer : Nat) (selector : BitVec 32)

/-- The part of an `ExecutionState` that the unwinding reads or writes.  `landingpadValue` is the result of the last
`landingpad` instruction, and `trace` is there for the observer only. -/
structure State where
  stack : List Frame
  unwindingInformation : Option UnwindingInformation
  pc : Pc := .code
  landingpadValue : Option (Nat × BitVec 32) := none
  terminated : Option String := none
  trace : List Event := []

namespace State

def terminateStateOnExecError (s : State) (message : String) : State := { s with terminated := some message }

def pushFrame (s : State) (f : Frame) : State := { s with stack := s.stack ++ [f] }

def popFrame (s : State) : State := { s with stack := s.stack.dropLast }

/-- The search phase at a landing pad with clauses, which belongs to the frame below index `i + 1`. -/
def askPersonality (s : State) (exceptionObject : Nat) (serialized : Option (List UInt8)) (i : Nat) (lpi : Pad) :
    Option State :=
  match serializeLandingpad lpi.clauses with
  | .error (.terminateStateOnExecError message) => some (s.terminateStateOnExecError message)
  | .error .nullAddress => none
  | .ok bytes =>
    match serialized with
    | some _ => none
    | none => some { s.pushFrame (.personality lpi) with
        pc := .personality
        unwindingInformation := some (.search exceptionObject i (some bytes))
        trace := s.trace ++ [.asked lpi] }

/-- The end of `unwindToNextLandingpad`, behind its loop. -/
def noLandingpad (s : State) : UnwindingInformation → State
  | .search .. => { s with unwindingInformation := none }
  | .cleanup .. => s.terminateStateOnExecError "Missing landingpad in phase 2 of unwinding"

/-- The loop of `unwindToNextLandingpad` from the index given down to `lowestStackIndex`. -/
def unwindLoop (ui : UnwindingInformation) (lowestStackIndex : Nat) : Nat → State → Option State
  | 0, s => some (s.noLandingpad ui)
  | i + 1, s =>
    if i + 1 > lowestStackIndex then
      match s.stack[i + 1]? with
      | none => none
      | some sf =>
        let s := match ui with
          | .search .. => s
          | .cleanup .. => s.popFrame
        match sf.caller with
        | none => none
        | some .call => unwindLoop ui lowestStackIndex i s
        | some (.invoke lpi) =>
          match ui with
          | .search exceptionObject _ serialized =>
            -- a pure cleanup cannot be a handler
            if lpi.isCleanup ∧ lpi.clauses = [] then unwindLoop ui lowestStackIndex i s
            else s.askPersonality exceptionObject serialized i lpi
          | .cleanup .. => some { s with pc := .unwindDest lpi }
    else some (s.noLandingpad ui)

/-- `Executor::unwindToNextLandingpad`.  `none` is a failed assertion or an index out of range. -/
def unwindToNextLandingpad (s : State) : Option State :=
  match s.unwindingInformation with
  | none => none
  | some (.search e progress serialized) => unwindLoop (.search e progress serialized) 0 progress s
  | some (.cleanup e v catching) => unwindLoop (.cleanup e v catching) catching (s.stack.length - 1) s

/-- `SpecialFunctionHandler::handleEhUnwindRaiseExceptionImpl`; the argument is `none` if it is not constant. -/
def handleEhUnwindRaiseExceptionImpl (s : State) (argument : Option Nat) : Option State :=
  match argument with
  | none => some (s.terminateStateOnExecError "Internal error: Symbolic exception pointer")
  | some exceptionObject =>
    match s.unwindingInformation with
    | some (.search ..) =>
      some (s.terminateStateOnExecError "Internal error: Unwinding restarted during an ongoing search phase")
    | _ => unwindToNextLandingpad { s with
        unwindingInformation := some (.search exceptionObject (s.stack.length - 1) none) }

/-- The `Ret` case for the return of `_klee_eh_cxx_personality`. -/
def executePersonalityRet (s : State) (result : BitVec 32) : Option State :=
  let s := { s.popFrame with pc := .code }
  match s.unwindingInformation with
  | some (.search e progress _) =>
    if result = 0 then unwindToNextLandingpad { s with unwindingInformation := some (.search e progress none) }
    else unwindToNextLandingpad { s with unwindingInformation := some (.cleanup e result progress) }
  | _ => none

def executeLandingPad (s : State) (pad : Pad) : State :=
  match s.unwindingInformation with
  | some (.cleanup e v catching) =>
    let (selector, info) :=
      if s.stack.length - 1 = catching then (v, none) else (0, s.unwindingInformation)
    { s with
      unwindingInformation := info, pc := .code, landingpadValue := some (e, selector)
      trace := s.trace ++ [.entered pad e selector] }
  | _ => s.terminateStateOnExecError "Executing landing pad but not in unwinding phase 2"

/-- The `Resume` case; the operands are `none` if they are not constant. -/
def executeResume (s : State) (exceptionPointer : Option Nat) (selectorValue : Option (BitVec 32)) : Option State :=
  match s.unwindingInformation with
  | some (.cleanup e _ _) =>
    match exceptionPointer, selectorValue with
    | some p, some _ =>
      if p = e then s.unwindToNextLandingpad
      else some (s.terminateStateOnExecError "resume-instruction called with unexpected exception pointer")
    | _, _ => some (s.terminateStateOnExecError "resume-instruction called with non constant expression")
  | _ => some (s.terminateStateOnExecError "resume-instruction executed outside of cleanup phase unwinding")

end State

/-! ## Runs -/

/-- One call or return of a function, on a stack that has at least `base` frames before and after. -/
inductive CallStep (base : Nat) : List Frame → List Frame → Prop
  | call (stack : List Frame) (caller : Caller) : base ≤ stack.length → CallStep base stack (stack ++ [.called caller])
  | ret (stack : List Frame) : base < stack.length → CallStep base stack stack.dropLast

/-- Code that runs in the top frame and comes back to it: it calls functions, which return. -/
def Comes (before after : List Frame) : Prop :=
  Relation.ReflTransGen (CallStep before.length) before after ∧ after.length = before.length

/-- One step of the protocol, when the personality function answers with `answer`, cleanups end in a `resume` of the
value that their landing pad gave them, and no other exception is raised. -/
inductive Step (answer : Pad → BitVec 32) : State → State → Prop
  | personality {s s' : State} {stack : List Frame} {pad : Pad} (hlive : s.terminated = none)
      (hpc : s.pc = .personality) (htop : s.stack.getLast? = some (.personality pad)) (hstack : Comes s.stack stack)
      (hret : State.executePersonalityRet { s with stack := stack } (answer pad) = some s') : Step answer s s'
  | landingPad {s : State} {pad : Pad} (hlive : s.terminated = none) (hpc : s.pc = .unwindDest pad) :
      Step answer s (s.executeLandingPad pad)
  | cleanup {s s' : State} {stack : List Frame} {e : Nat} {v : BitVec 32} (hlive : s.terminated = none)
      (hpc : s.pc = .code) (hphase : ∃ e v k, s.unwindingInformation = some (.cleanup e v k))
      (hvalue : s.landingpadValue = some (e, v))
      (hstack : Comes s.stack stack)
      (hresume : State.executeResume { s with stack := stack } (some e) (some v) = some s') : Step answer s s'

abbrev Steps (answer : Pad → BitVec 32) : State → State → Prop := Relation.ReflTransGen (Step answer)

theorem callSteps_take {base : Nat} {before after : List Frame} (h : Relation.ReflTransGen (CallStep base) before after)
    (hbase : base ≤ before.length) : base ≤ after.length ∧ after.take base = before.take base := by
  induction h with
  | refl => exact ⟨hbase, rfl⟩
  | tail _ hstep ih =>
    obtain ⟨hlen, htake⟩ := ih
    cases hstep with
    | call caller h =>
      refine ⟨by rw [List.length_append]; omega, ?_⟩
      rw [List.take_append_of_le_length hlen, htake]
    | ret h =>
      refine ⟨by rw [List.length_dropLast]; omega, ?_⟩
      rw [List.dropLast_eq_take, List.take_take, ← htake]
      congr 1
      omega

theorem Comes.eq {before after : List Frame} (h : Comes before after) : after = before := by
  have htake := (callSteps_take h.1 (Nat.le_refl _)).2
  rw [List.take_length, List.take_of_length_le (Nat.le_of_eq h.2)] at htake
  exact htake

theorem Comes.refl (stack : List Frame) : Comes stack stack := ⟨.refl, rfl⟩

variable {answer : Pad → BitVec 32}

theorem step_rightUnique : Relator.RightUnique (Step answer) := by
  intro s s₁ s₂ h₁ h₂
  cases h₁ with
  | personality hlive hpc htop hstack hret =>
    cases h₂ with
    | personality _ _ htop' hstack' hret' =>
      rw [htop] at htop'
      cases htop'
      rw [hstack.eq] at hret
      rw [hstack'.eq, hret] at hret'
      exact Option.some.inj hret'
    | landingPad _ hpc' =>
      rw [hpc] at hpc'
      cases hpc'
    | cleanup _ hpc' =>
      rw [hpc] at hpc'
      cases hpc'
  | landingPad hlive hpc =>
    cases h₂ with
    | personality _ hpc' =>
      rw [hpc] at hpc'
      cases hpc'
    | landingPad _ hpc' =>
      rw [hpc] at hpc'
      cases hpc'
      rfl
    | cleanup _ hpc' =>
      rw [hpc] at hpc'
      cases hpc'
  | cleanup hlive hpc hphase hvalue hstack hresume =>
    cases h₂ with
    | personality _ hpc' =>
      rw [hpc] at hpc'
      cases hpc'
    | landingPad _ hpc' =>
      rw [hpc] at hpc'
      cases hpc'
    | cleanup _ _ _ hvalue' hstack' hresume' =>
      rw [hvalue] at hvalue'
      cases hvalue'
      rw [hstack.eq] at hresume
      rw [hstack'.eq, hresume] at hresume'
      exact Option.some.inj hresume'

theorem no_step {s s' : State} (hpc : s.pc = .code) (hui : s.unwindingInformation = none) : ¬ Step answer s s' := by
  intro h
  cases h with
  | personality _ hpc' =>
    rw [hpc] at hpc'
    cases hpc'
  | landingPad _ hpc' =>
    rw [hpc] at hpc'
    cases hpc'
  | cleanup _ _ hphase =>
    obtain ⟨e, v, k, h⟩ := hphase
    rw [hui] at h
    cases h

/-- The stack of a state whose functions were called by the instructions given, the first one first. -/
def stackOf (callers : List Caller) : List Frame := .initial :: callers.map .called

theorem stackOf_length (callers : List Caller) : (stackOf callers).length = callers.length + 1 := by
  simp [stackOf]

theorem stackOf_getElem? (front back : List Caller) (c : Caller) :
    (stackOf (front ++ c :: back))[front.length + 1]? = some (.called c) := by
  simp [stackOf]

theorem stackOf_dropLast (callers : List Caller) (c : Caller) :
    (stackOf (callers ++ [c])).dropLast = stackOf callers := by
  unfold stackOf
  rw [List.map_append, List.map_singleton, ← List.cons_append, List.dropLast_concat]

def Caller.pad : Caller → Option Pad
  | call => none
  | invoke pad => some pad

def Caller.clausePad : Caller → Option Pad
  | call => none
  | invoke pad => if pad.clauses = [] then none else some pad

section

variable {outer : List Caller} {p : Pad} {e : Nat} {v : BitVec 32}

theorem unwind_cleanup {front : List Caller} {c : Caller} {s : State} {k : Nat}
    (hstack : s.stack = stackOf (front ++ [c])) (hui : s.unwindingInformation = some (.cleanup e v k))
    (hk : k ≤ front.length) :
    s.unwindToNextLandingpad = match c.pad with
      | none => State.unwindToNextLandingpad { s with stack := stackOf front }
      | some q => some { s with stack := stackOf front, pc := .unwindDest q } := by
  have hindex : s.stack.length - 1 = front.length + 1 := by
    rw [hstack, stackOf_length, List.length_append]
    rfl
  have hbelow : (stackOf front).length - 1 = front.length := by
    rw [stackOf_length]
    rfl
  unfold State.unwindToNextLandingpad
  rw [hui]
  dsimp only
  rw [hindex, hbelow, State.unwindLoop, if_pos (Nat.lt_succ_of_le hk), hstack, stackOf_getElem?]
  cases c with
  | call => simp [Frame.caller, Caller.pad, State.popFrame, hstack, stackOf_dropLast, hui]
  | invoke q => simp [Frame.caller, Caller.pad, State.popFrame, hstack, stackOf_dropLast, hui]

theorem executeResume_cleanup {s : State} {k : Nat} (hui : s.unwindingInformation = some (.cleanup e v k))
    (selector : BitVec 32) : s.executeResume (some e) (some selector) = s.unwindToNextLandingpad := by
  simp [State.executeResume, hui]

theorem cleanup_reaches (inner : List Caller) (s : State) (hlive : s.terminated = none)
    (hstack : s.stack = stackOf (outer ++ .invoke p :: inner))
    (hui : s.unwindingInformation = some (.cleanup e v outer.length)) :
    ∃ s₁, s.unwindToNextLandingpad = some s₁ ∧ Steps answer s₁ { s with
      stack := stackOf outer, unwindingInformation := none, pc := .code, landingpadValue := some (e, v)
      trace := s.trace ++ (inner.reverse.filterMap Caller.pad).map (.entered · e 0) ++ [.entered p e v] } := by
  induction inner using List.reverseRecOn generalizing s with
  | nil =>
    have hloop := unwind_cleanup hstack hui (Nat.le_refl _)
    refine ⟨_, hloop, .single ?_⟩
    have hlast : State.executeLandingPad { s with stack := stackOf outer, pc := .unwindDest p } p = { s with
        stack := stackOf outer, unwindingInformation := none, pc := .code, landingpadValue := some (e, v)
        trace := s.trace ++ [.entered p e v] } := by
      simp [State.executeLandingPad, hui, stackOf_length]
    have hstep : Step answer { s with stack := stackOf outer, pc := .unwindDest p } _ := .landingPad hlive rfl
    rw [hlast] at hstep
    simpa using hstep
  | append_singleton inner c ih =>
    have hfront : outer ++ Caller.invoke p :: (inner ++ [c]) = (outer ++ .invoke p :: inner) ++ [c] := by simp
    have hlen : (outer ++ Caller.invoke p :: inner).length = outer.length + inner.length + 1 := by
      simp only [List.length_append, List.length_cons]
      omega
    rw [hfront] at hstack
    have hloop := unwind_cleanup hstack hui (by omega)
    rw [List.reverse_append, List.reverse_singleton, List.singleton_append, List.filterMap_cons]
    cases c with
    | call =>
      obtain ⟨s₁, h₁, hsteps⟩ := ih { s with stack := stackOf (outer ++ .invoke p :: inner) } hlive rfl hui
      exact ⟨s₁, hloop.trans h₁, hsteps⟩
    | invoke q =>
      refine ⟨_, hloop, ?_⟩
      -- a landing pad on the way gets the selector 0, and its cleanup resumes
      have hpad : State.executeLandingPad { s with
          stack := stackOf (outer ++ .invoke p :: inner), pc := .unwindDest q } q = { s with
          stack := stackOf (outer ++ .invoke p :: inner), pc := .code, landingpadValue := some (e, 0)
          trace := s.trace ++ [.entered q e 0] } := by
        simp [State.executeLandingPad, hui, stackOf_length]
      have hstep : Step answer { s with
          stack := stackOf (outer ++ .invoke p :: inner), pc := .unwindDest q } _ := .landingPad hlive rfl
      rw [hpad] at hstep
      obtain ⟨s₂, h₂, hsteps⟩ := ih { s with
        stack := stackOf (outer ++ .invoke p :: inner), pc := .code, landingpadValue := some (e, 0)
        trace := s.trace ++ [.entered q e 0] } hlive rfl hui
      have hresume : Step answer { s with
          stack := stackOf (outer ++ .invoke p :: inner), pc := .code, landingpadValue := some (e, 0)
          trace := s.trace ++ [.entered q e 0] } s₂ := by
        refine .cleanup hlive rfl ⟨e, v, outer.length, hui⟩ rfl (Comes.refl _) ?_
        rw [executeResume_cleanup (s := { s with
          stack := stackOf (outer ++ .invoke p :: inner), pc := .code, landingpadValue := some (e, 0)
          trace := s.trace ++ [.entered q e 0] }) hui]
        exact h₂
      refine .head hstep (.head hresume ?_)
      simpa [Caller.pad] using hsteps

theorem ask_answered (answer : Pad → BitVec 32) (e : Nat) (q : Pad) (i : Nat) {s s' : State}
    (hlive : s.terminated = none)
    (hs' : State.unwindToNextLandingpad { s with
      pc := .code, trace := s.trace ++ [.asked q]
      unwindingInformation := some
        (if answer q = 0 then .search e i none else .cleanup e (answer q) i) } = some s') :
    ∃ s₁, s.askPersonality e none i q = some s₁ ∧ Steps answer s₁ s' := by
  obtain ⟨bytes, hbytes⟩ := q.serializes
  refine ⟨{ s with
    stack := s.stack ++ [.personality q], pc := .personality, trace := s.trace ++ [.asked q]
    unwindingInformation := some (.search e i (some bytes)) }, ?_, .single ?_⟩
  · simp [State.askPersonality, hbytes, State.pushFrame]
  · have htop : (s.stack ++ [Frame.personality q]).getLast? = some (.personality q) := by simp
    refine .personality hlive rfl htop (Comes.refl _) ?_
    unfold State.executePersonalityRet State.popFrame
    simp only [List.dropLast_concat]
    split
    · rename_i hzero
      rw [if_pos hzero] at hs'
      exact hs'
    · rename_i hne
      rw [if_neg hne] at hs'
      exact hs'

theorem searchLoop_succ {front back : List Caller} {c : Caller} {s : State} {k : Nat}
    (hstack : s.stack = stackOf (front ++ c :: back)) :
    State.unwindLoop (.search e k none) 0 (front.length + 1) s = match c.clausePad with
      | none => State.unwindLoop (.search e k none) 0 front.length s
      | some q => s.askPersonality e none front.length q := by
  rw [State.unwindLoop, if_pos (Nat.succ_pos _), hstack, stackOf_getElem?]
  cases c with
  | call => rfl
  | invoke q =>
    by_cases hq : q.clauses = []
    · simp [Frame.caller, Caller.clausePad, hq, q.cleanup_of_no_clause hq]
    · simp [Frame.caller, Caller.clausePad, hq]

theorem search_reaches (hp : p.clauses ≠ []) (hanswer : answer p ≠ 0) (inner back : List Caller) (k : Nat)
    (s s' : State) (hlive : s.terminated = none) (hstack : s.stack = stackOf (outer ++ .invoke p :: (inner ++ back)))
    (hinner : ∀ q, .invoke q ∈ inner → q.clauses ≠ [] → answer q = 0)
    (hs' : State.unwindToNextLandingpad { s with
      pc := .code, unwindingInformation := some (.cleanup e (answer p) outer.length)
      trace := s.trace ++ (inner.reverse.filterMap Caller.clausePad ++ [p]).map .asked } = some s') :
    ∃ s₁, State.unwindLoop (.search e k none) 0 (outer.length + inner.length + 1) s = some s₁ ∧ Steps answer s₁ s' := by
  induction inner using List.reverseRecOn generalizing s k back with
  | nil =>
    have hround := searchLoop_succ (e := e) (k := k) hstack
    have hpad : (Caller.invoke p).clausePad = some p := by simp [Caller.clausePad, hp]
    rw [hpad] at hround
    obtain ⟨s₁, h₁, hsteps⟩ := ask_answered answer e p outer.length hlive
      (by rw [if_neg hanswer]; simpa using hs')
    exact ⟨s₁, hround.trans h₁, hsteps⟩
  | append_singleton inner c ih =>
    have hlen : (outer ++ Caller.invoke p :: inner).length = outer.length + inner.length + 1 := by
      simp only [List.length_append, List.length_cons]
      omega
    have hfront : outer ++ Caller.invoke p :: (inner ++ [c] ++ back) = (outer ++ .invoke p :: inner) ++ c :: back := by
      simp
    have hbelow : s.stack = stackOf (outer ++ .invoke p :: (inner ++ c :: back)) := by
      rw [hstack]
      simp
    have hrest : ∀ q, .invoke q ∈ inner → q.clauses ≠ [] → answer q = 0 :=
      fun q hq => hinner q (List.mem_append_left _ hq)
    rw [hfront] at hstack
    have hround := searchLoop_succ (e := e) (k := k) hstack
    rw [hlen] at hround
    rw [List.length_append, List.length_singleton, ← Nat.add_assoc]
    rw [List.reverse_append, List.reverse_singleton, List.singleton_append, List.filterMap_cons] at hs'
    cases hc : c.clausePad with
    | none =>
      rw [hc] at hround hs'
      obtain ⟨s₁, h₁, hsteps⟩ := ih (c :: back) k s hlive hbelow hrest hs'
      exact ⟨s₁, hround.trans h₁, hsteps⟩
    | some q =>
      rw [hc] at hround hs'
      have hzero : answer q = 0 := by
        cases c with
        | call => cases hc
        | invoke q' =>
          simp only [Caller.clausePad] at hc
          split at hc
          · cases hc
          · rename_i hne
            obtain rfl := Option.some.inj hc
            exact hinner q' (by simp) hne
      obtain ⟨s₂, h₂, hsteps₂⟩ := ih (c :: back) (outer.length + inner.length + 1)
        { s with
          pc := .code, trace := s.trace ++ [.asked q]
          unwindingInformation := some (.search e (outer.length + inner.length + 1) none) }
        hlive hbelow hrest (by simpa using hs')
      obtain ⟨s₁, h₁, hsteps₁⟩ := ask_answered answer e q (outer.length + inner.length + 1) hlive
        (by rw [if_pos hzero]; exact h₂)
      exact ⟨s₁, hround.trans h₁, hsteps₁.trans hsteps₂⟩

end

theorem exists_innermost {callers : List Caller}
    (h : ∃ p, .invoke p ∈ callers ∧ p.clauses ≠ [] ∧ answer p ≠ 0) :
    ∃ outer p inner, callers = outer ++ .invoke p :: inner ∧ p.clauses ≠ [] ∧ answer p ≠ 0 ∧
      ∀ q, .invoke q ∈ inner → q.clauses ≠ [] → answer q = 0 := by
  induction callers using List.reverseRecOn with
  | nil =>
    obtain ⟨p, hp, -⟩ := h
    cases hp
  | append_singleton callers c ih =>
    by_cases hlast : ∃ p, c = .invoke p ∧ p.clauses ≠ [] ∧ answer p ≠ 0
    · obtain ⟨p, rfl, hclauses, hanswer⟩ := hlast
      exact ⟨callers, p, [], rfl, hclauses, hanswer, fun q hq => by cases hq⟩
    · obtain ⟨p, hp, hclauses, hanswer⟩ := h
      have hbelow : Caller.invoke p ∈ callers := by
        rcases List.mem_append.mp hp with hp | hp
        · exact hp
        · exact absurd ⟨p, (List.mem_singleton.mp hp).symm, hclauses, hanswer⟩ hlast
      obtain ⟨outer, p', inner, hsplit, hclauses', hanswer', hinner⟩ := ih ⟨p, hbelow, hclauses, hanswer⟩
      refine ⟨outer, p', inner ++ [c], by rw [hsplit]; simp, hclauses', hanswer', fun q hq hne => ?_⟩
      rcases List.mem_append.mp hq with hq | hq
      · exact hinner q hq hne
      · by_contra hzero
        exact hlast ⟨q, (List.mem_singleton.mp hq).symm, hne, hzero⟩

def catchAll : Pad where
  id := 1
  isCleanup := false
  clauses := [.catchClause .nullValue]
  cleanup_of_no_clause := by simp
  serializes := ⟨_, rfl⟩

def cleanupOnly : Pad where
  id := 2
  isCleanup := true
  clauses := []
  cleanup_of_no_clause := fun _ => rfl
  serializes := ⟨_, rfl⟩

end Unwinding

end CgsKlee
