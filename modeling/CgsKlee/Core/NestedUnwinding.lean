import CgsKlee.Core.Unwinding

/-!
# Exceptions inside a cleanup

The code of a landing pad on the way to the handler may raise exceptions of its own and catch them.  A state has one
record of an unwinding only: a raise overwrites the record of the exception that is being cleaned up after, and the
handler of the inner exception erases it.  The `resume` at the end of the cleanup then finds no record and terminates
the state, so it goes on with the outer exception exactly if the cleanup has raised none (`resumesAlike_iff`).
-/

namespace CgsKlee

namespace Unwinding

mutual

/-- Steps of the unwinding of an exception.  The code of its cleanups may raise further exceptions. -/
inductive Protocol (answer : Pad → BitVec 32) : State → State → Prop
  | refl (s : State) : Protocol answer s s
  | personality {s s' s'' : State} {pad : Pad} (hlive : s.terminated = none) (hpc : s.pc = .personality)
      (htop : s.stack.getLast? = some (.personality pad)) (hret : s.executePersonalityRet (answer pad) = some s')
      (hrest : Protocol answer s' s'') : Protocol answer s s''
  | landingPad {s s' : State} {pad : Pad} (hlive : s.terminated = none) (hpc : s.pc = .unwindDest pad)
      (hrest : Protocol answer (s.executeLandingPad pad) s') : Protocol answer s s'
  | cleanup {s s₁ s' s'' : State} {e n : Nat} {v : BitVec 32} (hlive : s.terminated = none) (hpc : s.pc = .code)
      (hvalue : s.landingpadValue = some (e, v)) (hcode : CleanupCode answer s.stack.length n s s₁)
      (hback : s₁.stack.length = s.stack.length) (hresume : s₁.executeResume (some e) (some v) = some s')
      (hrest : Protocol answer s' s'') : Protocol answer s s''

/-- Code that runs in and above the frame below `base` and raises `n` exceptions, each of them caught at an `invoke` of a
frame above. -/
inductive CleanupCode (answer : Pad → BitVec 32) : Nat → Nat → State → State → Prop
  | done (base : Nat) (s : State) : CleanupCode answer base 0 s s
  | calls {base n : Nat} {s s' : State} {stack : List Frame} (hlive : s.terminated = none) (hpc : s.pc = .code)
      (hstep : CallStep base s.stack stack) (hrest : CleanupCode answer base n { s with stack := stack } s') :
      CleanupCode answer base n s s'
  | caught {base n : Nat} {s s₁ s₂ s' : State} {e k : Nat} {v : BitVec 32} {pad : Pad} (hlive : s.terminated = none)
      (hpc : s.pc = .code) (hraise : s.handleEhUnwindRaiseExceptionImpl (some e) = some s₁)
      (hprotocol : Protocol answer s₁ s₂) (hlive₂ : s₂.terminated = none) (hpc₂ : s₂.pc = .unwindDest pad)
      (hui : s₂.unwindingInformation = some (.cleanup e v k)) (hcatching : s₂.stack.length - 1 = k)
      (hinside : base < s₂.stack.length) (hrest : CleanupCode answer base n (s₂.executeLandingPad pad) s') :
      CleanupCode answer base (n + 1) s s'

end

/-- The `resume` goes on with the outer exception in the second state as in the first one. -/
def ResumesAlike (e : Nat) (s s' : State) : Prop :=
  ∃ r r', s.executeResume (some e) (some 0) = some r ∧ s'.executeResume (some e) (some 0) = some r' ∧
    r'.stack = r.stack ∧ r'.unwindingInformation = r.unwindingInformation ∧ r'.pc = r.pc ∧ r'.terminated = r.terminated

variable {answer : Pad → BitVec 32}

theorem executeLandingPad_caught {s : State} {pad : Pad} {e k : Nat} {v : BitVec 32}
    (hui : s.unwindingInformation = some (.cleanup e v k)) (hk : s.stack.length - 1 = k) :
    (s.executeLandingPad pad).unwindingInformation = none := by
  simp [State.executeLandingPad, hui, hk]

theorem CleanupCode.of_none {base : Nat} : ∀ {n : Nat} {s s' : State}, CleanupCode answer base n s s' → n = 0 →
    s' = { s with stack := s'.stack } ∧ Relation.ReflTransGen (CallStep base) s.stack s'.stack
  | _, _, _, .done _ _, _ => ⟨rfl, .refl⟩
  | _, _, _, .calls _ _ hstep hrest, hn => by
    obtain ⟨heq, hsteps⟩ := CleanupCode.of_none hrest hn
    exact ⟨heq, .head hstep hsteps⟩
  | _, _, _, .caught .., hn => absurd hn (Nat.succ_ne_zero _)

theorem CleanupCode.unwindingInformation_eq {base : Nat} : ∀ {n : Nat} {s s' : State},
    CleanupCode answer base n s s' → 0 < n ∨ s.unwindingInformation = none → s'.unwindingInformation = none
  | _, _, _, .done _ _, h => h.resolve_left (Nat.lt_irrefl 0)
  | _, _, _, .calls _ _ _ hrest, h => CleanupCode.unwindingInformation_eq hrest h
  | _, _, _, .caught _ _ _ _ _ _ hui hk _ hrest, _ =>
    CleanupCode.unwindingInformation_eq hrest (Or.inr (executeLandingPad_caught hui hk))

/-- The message of a `resume` without a record. -/
def resumeOutside : String := "resume-instruction executed outside of cleanup phase unwinding"

theorem executeResume_of_none {s : State} (hui : s.unwindingInformation = none) (p : Option Nat)
    (v : Option (BitVec 32)) : s.executeResume p v = some (s.terminateStateOnExecError resumeOutside) := by
  unfold State.executeResume
  rw [hui]
  rfl

theorem exists_unwind_cleanup {e k : Nat} {v : BitVec 32} {callers : List Caller} {s : State}
    (hstack : s.stack = stackOf callers) (hlive : s.terminated = none)
    (hui : s.unwindingInformation = some (.cleanup e v k)) (hk : k ≤ callers.length) :
    ∃ r, s.unwindToNextLandingpad = some r ∧ r.terminated ≠ some resumeOutside := by
  induction callers using List.reverseRecOn generalizing s with
  | nil =>
    obtain rfl : k = 0 := Nat.le_zero.mp hk
    refine ⟨s.terminateStateOnExecError "Missing landingpad in phase 2 of unwinding", ?_, ?_⟩
    · unfold State.unwindToNextLandingpad
      rw [hui, hstack]
      rfl
    · simp [State.terminateStateOnExecError, resumeOutside]
  | append_singleton front c ih =>
    rcases Nat.lt_or_ge front.length k with hlt | hle
    · have hlen : s.stack.length - 1 = k := by
        rw [hstack, stackOf_length]
        rw [List.length_append, List.length_singleton] at hk ⊢
        omega
      refine ⟨s.terminateStateOnExecError "Missing landingpad in phase 2 of unwinding", ?_, ?_⟩
      · unfold State.unwindToNextLandingpad
        rw [hui]
        dsimp only
        rw [hlen]
        cases k with
        | zero => rfl
        | succ k =>
          rw [State.unwindLoop, if_neg (Nat.lt_irrefl _)]
          rfl
      · simp [State.terminateStateOnExecError, resumeOutside]
    · rw [unwind_cleanup hstack hui hle]
      cases c.pad with
      | none => exact ih (s := { s with stack := stackOf front }) rfl hlive hui hle
      | some q =>
        refine ⟨_, rfl, ?_⟩
        simp [hlive]

theorem not_resumesAlike {e k n base : Nat} {v : BitVec 32} {callers : List Caller} {s s' : State}
    (hstack : s.stack = stackOf callers) (hlive : s.terminated = none)
    (hui : s.unwindingInformation = some (.cleanup e v k)) (hk : k < s.stack.length - 1)
    (hcode : CleanupCode answer base n s s') (hn : 0 < n) : ¬ ResumesAlike e s s' := by
  rintro ⟨r, r', hr, hr', -, -, -, hterminated⟩
  have hlen : k ≤ callers.length := by
    rw [hstack, stackOf_length] at hk
    omega
  obtain ⟨r₀, hr₀, hmessage⟩ := exists_unwind_cleanup hstack hlive hui hlen
  rw [executeResume_cleanup hui, hr₀] at hr
  obtain rfl := Option.some.inj hr
  rw [executeResume_of_none (hcode.unwindingInformation_eq (Or.inl hn))] at hr'
  obtain rfl := Option.some.inj hr'
  exact hmessage hterminated.symm

/-- The cleanup of an exception, on its way to a frame further out, runs code that raises `n` exceptions, each of them
caught in a frame above, and comes back.  Its `resume` goes on with the outer exception as it would have before
exactly if there were none. -/
theorem resumesAlike_iff (answer : Pad → BitVec 32) {e k n : Nat} {v : BitVec 32} {callers : List Caller} {s s' : State}
    (hstack : s.stack = stackOf callers) (hlive : s.terminated = none)
    (hui : s.unwindingInformation = some (.cleanup e v k)) (hk : k < s.stack.length - 1)
    (hcode : CleanupCode answer s.stack.length n s s') (hback : s'.stack.length = s.stack.length) :
    ResumesAlike e s s' ↔ n = 0 := by
  constructor
  · intro h
    rcases Nat.eq_zero_or_pos n with hn | hn
    · exact hn
    · exact absurd h (not_resumesAlike hstack hlive hui hk hcode hn)
  · rintro rfl
    obtain ⟨heq, hsteps⟩ := hcode.of_none rfl
    have hsame : s'.stack = s.stack := Comes.eq ⟨hsteps, hback⟩
    rw [hsame] at heq
    have hlen : k ≤ callers.length := by
      rw [hstack, stackOf_length] at hk
      omega
    obtain ⟨r, hr, -⟩ := exists_unwind_cleanup hstack hlive hui hlen
    rw [← executeResume_cleanup hui 0] at hr
    exact ⟨r, r, hr, heq ▸ hr, rfl, rfl, rfl, rfl⟩

/-- A cleanup that calls a function and comes back. -/
theorem resumesAlike_iff_call :
    let s : State :=
      { stack := stackOf [.invoke catchAll], unwindingInformation := some (.cleanup 16 1 0)
        landingpadValue := some (16, 0) }
    ResumesAlike 16 s s ↔ 0 = 0 := by
  intro s
  have hstack : s.stack = stackOf [.invoke catchAll] := rfl
  have hcall : CallStep 2 s.stack (stackOf [.invoke catchAll, .call]) := .call _ _ (Nat.le_refl _)
  have hret : CallStep 2 (stackOf [.invoke catchAll, .call]) s.stack := .ret _ (by decide)
  exact resumesAlike_iff (fun _ => 1) hstack rfl rfl (by decide)
    (.calls rfl rfl hcall (.calls rfl rfl hret (.done _ _))) rfl

/-- In the cleanup of the exception `16` a function calls another one by an `invoke`, which raises `32`, catches it and
returns. -/
theorem resume_fails_after_caught :
    ∃ s s' : State, s.stack = stackOf [.invoke catchAll] ∧ s.terminated = none ∧
      s.unwindingInformation = some (.cleanup 16 1 0) ∧ 0 < s.stack.length - 1 ∧
      CleanupCode (fun _ => 1) s.stack.length 1 s s' ∧ s'.stack.length = s.stack.length ∧ ¬ ResumesAlike 16 s s' := by
  let s : State :=
    { stack := stackOf [.invoke catchAll], unwindingInformation := some (.cleanup 16 1 0)
      landingpadValue := some (16, 0) }
  let pushed : State := { s with stack := stackOf [.invoke catchAll, .call, .invoke catchAll] }
  let asked : State := { pushed with
    stack := pushed.stack ++ [.personality catchAll], pc := .personality, trace := [.asked catchAll]
    unwindingInformation := some (.search 32 2 (some [0, 0, 0, 0, 0, 0, 0, 0, 0])) }
  let found : State := { pushed with
    stack := stackOf [.invoke catchAll, .call], pc := .unwindDest catchAll, trace := [.asked catchAll]
    unwindingInformation := some (.cleanup 32 1 2) }
  let s' : State := { found.executeLandingPad catchAll with stack := stackOf [.invoke catchAll] }
  have hcode : CleanupCode (fun _ => 1) s.stack.length 1 s s' := by
    have hcall : CallStep 2 s.stack (stackOf [.invoke catchAll, .call]) := .call _ _ (Nat.le_refl _)
    have hinvoke : CallStep 2 (stackOf [.invoke catchAll, .call]) pushed.stack := .call _ _ (by decide)
    have hret : CallStep 2 (found.executeLandingPad catchAll).stack s'.stack := .ret _ (by decide)
    have hraise : pushed.handleEhUnwindRaiseExceptionImpl (some 32) = some asked := rfl
    have hprotocol : Protocol (fun _ => 1) asked found := .personality rfl rfl rfl rfl (.refl _)
    exact .calls rfl rfl hcall (.calls rfl rfl hinvoke
      (.caught rfl rfl hraise hprotocol rfl rfl rfl rfl (by decide) (.calls rfl rfl hret (.done _ _))))
  have hstack : s.stack = stackOf [.invoke catchAll] := rfl
  exact ⟨s, s', hstack, rfl, rfl, by decide, hcode, rfl,
    not_resumesAlike hstack rfl rfl (by decide) hcode Nat.one_pos⟩

end Unwinding

end CgsKlee
