import CgsKlee.Core.StatsTracker
import Mathlib.Data.DFinsupp.WellFounded

/-!
# Distances to returns

The first loop of `computeReachableUncovered` ends, with the shortest path to a return for every instruction and the
shortest path through every function, if no course through a function is too long for an `unsigned` (`Fits`).
-/

namespace CgsKlee

open Derivations

namespace TrackedModule

variable {Inst Fn : Type} (m : TrackedModule Inst Fn)

/-- The steps to a return of the function, where a called function is run through. -/
inductive ReturnRule : Inst → Rule Inst → Prop
  | ret {i : Inst} : m.kind i = .ret → ReturnRule i (.leaf 1)
  | step {i j : Inst} : (∀ operand, m.kind i ≠ .call operand) → j ∈ m.getSuccs i → ReturnRule i (.one 1 j)
  | declared {i j : Inst} {operand : CalledOperand Fn} {f : Fn} : m.kind i = .call operand →
    f ∈ m.callTargets operand → m.body f = .declaration false → j ∈ m.getSuccs i → ReturnRule i (.one 2 j)
  | defined {i j first : Inst} {operand : CalledOperand Fn} {f : Fn} : m.kind i = .call operand →
    f ∈ m.callTargets operand → m.body f = .definition first → j ∈ m.getSuccs i → ReturnRule i (.two 1 first j)

def returnRules (i : Inst) : Set (Rule Inst) := Set.ofPred (m.ReturnRule i)

theorem returnRules_positive : Positive m.returnRules := by
  intro i r hr
  cases hr <;> exact Nat.succ_pos _

/-- The courses through the functions are short enough for an `unsigned`. -/
def Fits : Prop :=
  ∀ f first, m.body f = .definition first → ∀ n nodes, Course m.returnRules first n nodes → n + 1 < 2 ^ 32

/-- `functionShortestPath` holds the shortest paths through the functions. -/
def ShortestThrough (functionShortestPath : Fn → Nat) : Prop :=
  ∀ f, functionShortestPath f + 1 < 2 ^ 32 ∧
    match m.body f with
    | .declaration doesNotReturn => functionShortestPath f = if doesNotReturn then 0 else 1
    | .definition first => IsShortest m.returnRules first (functionShortestPath f)

variable {m} {functionShortestPath : Fn → Nat}

theorem Fits.room (hfits : m.Fits) {t : Inst → Nat} (ht : Supported m.returnRules t) {f : Fn} {first : Inst}
    (hf : m.body f = .definition first) : t first + 1 < 2 ^ 32 := by
  by_cases hne : t first = 0
  · rw [hne]
    omega
  · obtain ⟨nodes, hcourse, -⟩ := ht first hne
    exact hfits f first hf _ _ hcourse

theorem bestThrough_of_not_call {i : Inst} (h : ∀ operand, m.kind i ≠ .call operand) :
    m.bestThrough functionShortestPath i = 1 := by
  unfold bestThrough
  split
  · exact absurd ‹_› (h _)
  · rfl

theorem bestThrough_call (hfits : ∀ f, functionShortestPath f + 1 < 2 ^ 32) {i : Inst} {operand : CalledOperand Fn}
    (h : m.kind i = .call operand) : m.bestThrough functionShortestPath i =
      (m.callTargets operand).foldl (fun best f => relax 1 best (functionShortestPath f)) 0 := by
  have hloop : ∀ (fs : List Fn) (best : Nat), best < 2 ^ 32 →
      fs.foldl (fun best f => relax 1 best (functionShortestPath f) % 2 ^ 32) best =
        fs.foldl (fun best f => relax 1 best (functionShortestPath f)) best := by
    intro fs
    induction fs with
    | nil => exact fun _ _ => rfl
    | cons f fs ih =>
      intro best hbest
      have hlt : relax 1 best (functionShortestPath f) < 2 ^ 32 := by
        have := hfits f
        unfold relax
        split
        · exact hbest
        · split
          · omega
          · exact hbest
      rw [List.foldl_cons, List.foldl_cons, Nat.mod_eq_of_lt hlt, ih _ hlt]
  unfold bestThrough
  rw [h]
  exact hloop _ 0 (Nat.two_pow_pos 32)

theorem exists_bestThrough (hfits : ∀ f, functionShortestPath f + 1 < 2 ^ 32) {i : Inst} {operand : CalledOperand Fn}
    (h : m.kind i = .call operand) (hne : m.bestThrough functionShortestPath i ≠ 0) :
    ∃ f ∈ m.callTargets operand, functionShortestPath f ≠ 0 ∧
      m.bestThrough functionShortestPath i = 1 + functionShortestPath f := by
  rw [bestThrough_call hfits h] at hne ⊢
  exact (foldl_relax_cases 1 0 functionShortestPath _).resolve_left hne

theorem bestThrough_le (hfits : ∀ f, functionShortestPath f + 1 < 2 ^ 32) {i : Inst} {operand : CalledOperand Fn}
    (h : m.kind i = .call operand) {f : Fn} (hf : f ∈ m.callTargets operand) (hne : functionShortestPath f ≠ 0) :
    m.bestThrough functionShortestPath i ≠ 0 ∧
      m.bestThrough functionShortestPath i ≤ 1 + functionShortestPath f := by
  rw [bestThrough_call hfits h]
  exact foldl_relax_le hf hne

theorem exists_returnRule {t : Inst → Nat} (hfits : ∀ f, functionShortestPath f + 1 < 2 ^ 32)
    (hdeclared : ∀ f doesNotReturn, m.body f = .declaration doesNotReturn →
      functionShortestPath f = if doesNotReturn then 0 else 1)
    (hdefined : ∀ f first, m.body f = .definition first → functionShortestPath f ≠ 0 →
      functionShortestPath f = t first) {i j : Inst} (hj : j ∈ m.getSuccs i) (hjne : t j ≠ 0)
    (hne : m.bestThrough functionShortestPath i ≠ 0) :
    ∃ r ∈ m.returnRules i, r.value t = m.bestThrough functionShortestPath i + t j := by
  by_cases hcall : ∃ operand, m.kind i = .call operand
  · obtain ⟨operand, hkind⟩ := hcall
    obtain ⟨f, hf, hfne, hthrough⟩ := exists_bestThrough hfits hkind hne
    rw [hthrough]
    cases hbody : m.body f with
    | declaration doesNotReturn =>
      have hpath := hdeclared f doesNotReturn hbody
      cases doesNotReturn with
      | true => exact absurd hpath hfne
      | false =>
        refine ⟨.one 2 j, ReturnRule.declared hkind hf hbody hj, ?_⟩
        rw [Rule.value, if_neg hjne, hpath]
        rfl
    | definition first =>
      have hpath := hdefined f first hbody hfne
      rw [hpath] at hfne ⊢
      refine ⟨.two 1 first j, ReturnRule.defined hkind hf hbody hj, ?_⟩
      rw [Rule.value, if_neg (not_or.mpr ⟨hfne, hjne⟩)]
  · rw [not_exists] at hcall
    refine ⟨.one 1 j, ReturnRule.step hcall hj, ?_⟩
    rw [Rule.value, if_neg hjne, bestThrough_of_not_call hcall]

theorem isFirst_iff [DecidableEq Inst] {i : Inst} : m.isFirst i = true ↔ m.body (m.parent i) = .definition i := by
  unfold isFirst
  split
  · rename_i heq
    rw [heq]
    exact ⟨nofun, nofun⟩
  · rename_i first heq
    rw [heq, decide_eq_true_iff, FunctionBody.definition.injEq, eq_comm]

variable [DecidableEq Inst] {infos : InfoTable Inst Fn} {i : Inst} {s s' : (Nat → Nat) × (Fn → Nat)}

/-- What holds in the loop: every entry belongs to a course, and the length through a function is the one of its first
instruction, but for a first instruction that is a return and has not been looked at. -/
structure ReturnInv (m : TrackedModule Inst Fn) (infos : InfoTable Inst Fn) (s : (Nat → Nat) × (Fn → Nat)) : Prop where
  supported : Supported m.returnRules (infos.row s.1)
  ret : ∀ i, m.kind i = .ret → infos.row s.1 i ≠ 0 ∧ infos.row s.1 i ≤ 1
  declared : ∀ f doesNotReturn, m.body f = .declaration doesNotReturn → s.2 f = if doesNotReturn then 0 else 1
  defined : ∀ f first, m.body f = .definition first →
    s.2 f = infos.row s.1 first ∨ s.2 f = 0 ∧ m.kind first = .ret

theorem returnInv_initial (table : Nat → Nat) :
    ReturnInv m infos (m.setAll infos m.initialReturn table, m.initialShortestPath) := by
  refine ⟨?_, fun i hi => ?_, fun f doesNotReturn hf => ?_, fun f first hf => ?_⟩
  · dsimp only
    rw [row_setAll]
    intro i hi
    cases hkind : m.kind i with
    | ret =>
      have hone : m.initialReturn i = 1 := by
        unfold initialReturn
        rw [hkind]
      rw [hone]
      refine ⟨_, .leaf (.ret hkind), List.forall_mem_singleton.mpr ?_⟩
      rw [hone]
      exact ⟨Nat.one_ne_zero, le_rfl⟩
    | call _ | other =>
      unfold initialReturn at hi
      rw [hkind] at hi
      exact absurd rfl hi
  · dsimp only
    rw [row_setAll]
    unfold initialReturn
    rw [hi]
    exact ⟨Nat.one_ne_zero, le_rfl⟩
  · dsimp only
    unfold initialShortestPath
    rw [hf]
  · dsimp only
    rw [row_setAll]
    unfold initialShortestPath initialReturn
    rw [hf]
    cases hkind : m.kind first with
    | ret => exact Or.inr ⟨rfl, rfl⟩
    | call _ | other => exact Or.inl rfl

theorem ReturnInv.room (h : ReturnInv m infos s) (hfits : m.Fits) (f : Fn) : s.2 f + 1 < 2 ^ 32 := by
  cases hf : m.body f with
  | declaration doesNotReturn =>
    rw [h.declared f doesNotReturn hf]
    split <;> omega
  | definition first =>
    rcases h.defined f first hf with heq | ⟨heq, -⟩
    · rw [heq]
      exact hfits.room h.supported hf
    · rw [heq]
      omega

theorem ReturnInv.rule (h : ReturnInv m infos s) (hfits : m.Fits) {j : Inst} (hj : j ∈ m.getSuccs i)
    (hjne : infos.row s.1 j ≠ 0) (hne : m.bestThrough s.2 i ≠ 0) :
    ∃ r ∈ m.returnRules i, r.value (infos.row s.1) = m.bestThrough s.2 i + infos.row s.1 j :=
  exists_returnRule (h.room hfits) h.declared
    (fun f first hf hfne => (h.defined f first hf).resolve_right fun h0 => hfne h0.1) hj hjne hne

variable [DecidableEq Fn]

/-- What the body of the loop does: it improves the entry of the instruction, or it only stores the entry of a first
instruction as the length through its function. -/
theorem returnStep_cases (h : m.returnStep infos i s = some s') :
    ∃ best, s' = (Function.update s.1 (infos.id i) best,
        if m.isFirst i then Function.update s.2 (m.parent i) (best % 2 ^ 32) else s.2) ∧
      (m.bestThrough s.2 i ≠ 0 ∧ (infos.row s.1 i = 0 ∨ best < infos.row s.1 i) ∧
          (∃ j ∈ m.getSuccs i, infos.row s.1 j ≠ 0 ∧ best = m.bestThrough s.2 i + infos.row s.1 j) ∨
        best = infos.row s.1 i ∧ m.isFirst i = true ∧ s.2 (m.parent i) ≠ best) := by
  unfold returnStep at h
  extract_lets through cur best f at h
  split at h
  · cases h
  · rename_i hthrough
    split at h
    · rename_i hchange
      cases h
      refine ⟨best, rfl, ?_⟩
      rcases foldl_relax_cases through cur (infos.row s.1) (m.getSuccs i) with hold | ⟨j, hj, hjne, hnew⟩
      · exact Or.inr ⟨hold, hchange.resolve_left (not_not_intro hold)⟩
      · by_cases heq : best = cur
        · exact Or.inr ⟨heq, hchange.resolve_left (not_not_intro heq)⟩
        · refine Or.inl ⟨hthrough, ?_, j, hj, hjne, hnew⟩
          by_cases hcur : cur = 0
          · exact Or.inl hcur
          · have hle : best ≤ cur := (foldl_relax_le_best hcur).2
            exact Or.inr (lt_of_le_of_ne hle heq)
    · cases h

theorem returnStep_none (h : m.returnStep infos i s = none) (hne : m.bestThrough s.2 i ≠ 0) :
    (∀ j ∈ m.getSuccs i, infos.row s.1 j ≠ 0 →
      infos.row s.1 i ≠ 0 ∧ infos.row s.1 i ≤ m.bestThrough s.2 i + infos.row s.1 j) ∧
    (m.isFirst i = true → s.2 (m.parent i) = infos.row s.1 i) := by
  unfold returnStep at h
  extract_lets through cur best f at h
  rw [if_neg hne] at h
  split at h
  · cases h
  · rename_i hsame
    rw [not_or, not_not, not_and, not_not] at hsame
    obtain ⟨hbest, hfirst⟩ := hsame
    refine ⟨fun j hj hjne => ?_, fun hi => (hfirst hi).trans hbest⟩
    have hle : best ≠ 0 ∧ best ≤ through + infos.row s.1 j := foldl_relax_le hj hjne
    rwa [hbest] at hle

theorem ReturnInv.set (h : ReturnInv m infos s) (hfits : m.Fits) {best : Nat}
    (hsupported : Supported m.returnRules (Function.update (infos.row s.1) i best))
    (hret : m.kind i = .ret → best ≠ 0 ∧ best ≤ 1) :
    ReturnInv m infos (Function.update s.1 (infos.id i) best,
      if m.isFirst i then Function.update s.2 (m.parent i) (best % 2 ^ 32) else s.2) := by
  refine ⟨?_, fun j hj => ?_, fun f doesNotReturn hf => ?_, fun f first hf => ?_⟩
  · rwa [infos.row_update]
  · dsimp only
    rw [infos.row_update]
    by_cases hji : j = i
    · subst hji
      rw [Function.update_self]
      exact hret hj
    · rw [Function.update_of_ne hji]
      exact h.ret j hj
  · dsimp only
    split
    · rename_i hfirst
      have hfi : f ≠ m.parent i := by
        rintro rfl
        rw [isFirst_iff.mp hfirst] at hf
        cases hf
      rw [Function.update_of_ne hfi]
      exact h.declared f doesNotReturn hf
    · exact h.declared f doesNotReturn hf
  · dsimp only
    rw [infos.row_update]
    have hparent : m.parent first = f := m.parent_first f first hf
    by_cases hi : first = i
    · subst hi
      have hfirst : m.isFirst first = true := by rw [isFirst_iff, hparent, hf]
      have hroom := hfits.room hsupported hf
      rw [Function.update_self] at hroom
      rw [if_pos hfirst, hparent, Function.update_self, Function.update_self, Nat.mod_eq_of_lt (by omega)]
      exact Or.inl rfl
    · rw [Function.update_of_ne hi]
      split
      · rename_i hfirst
        have hfi : f ≠ m.parent i := by
          rintro rfl
          rw [isFirst_iff.mp hfirst] at hf
          exact hi (FunctionBody.definition.inj hf).symm
        rw [Function.update_of_ne hfi]
        exact h.defined f first hf
      · exact h.defined f first hf

theorem ReturnInv.step (h : ReturnInv m infos s) (hfits : m.Fits) (hstep : m.returnStep infos i s = some s') :
    ReturnInv m infos s' := by
  obtain ⟨best, rfl, ⟨hthrough, hnew, j, hj, hjne, hbest⟩ | ⟨hbest, -, -⟩⟩ := returnStep_cases hstep
  · obtain ⟨r, hr, hvalue⟩ := h.rule hfits hj hjne hthrough
    rw [← hbest] at hvalue
    have hne : r.value (infos.row s.1) ≠ 0 := by omega
    have hsupported := h.supported.improve m.returnRules_positive hr hne (hvalue ▸ hnew)
    rw [hvalue] at hsupported
    refine h.set hfits hsupported fun hret => ⟨hvalue ▸ hne, ?_⟩
    have := h.ret i hret
    omega
  · refine h.set hfits ?_ fun hret => hbest ▸ h.ret i hret
    rw [hbest, Function.update_eq_self]
    exact h.supported

/-- What gets smaller: the entries of the instructions, and for first instructions whether the length through the
function is still to be stored. -/
def returnMeasure (m : TrackedModule Inst Fn) (infos : InfoTable Inst Fn) (s : (Nat → Nat) × (Fn → Nat)) :
    Inst → Lex (ℕ∞ × Nat) :=
  fun i => toLex (length (infos.row s.1 i), if m.isFirst i = true ∧ s.2 (m.parent i) ≠ infos.row s.1 i then 1 else 0)

theorem returnMeasure_lt (h : ReturnInv m infos s) (hfits : m.Fits) (hstep : m.returnStep infos i s = some s') :
    returnMeasure m infos s' < returnMeasure m infos s := by
  obtain ⟨best, rfl, hcases⟩ := returnStep_cases hstep
  -- nothing changes for other instructions
  have hother : ∀ j, j ≠ i → returnMeasure m infos (Function.update s.1 (infos.id i) best,
      if m.isFirst i then Function.update s.2 (m.parent i) (best % 2 ^ 32) else s.2) j =
        returnMeasure m infos s j := by
    intro j hj
    unfold returnMeasure
    dsimp only
    rw [infos.row_update, Function.update_of_ne hj]
    by_cases hfirst : m.isFirst i = true
    · by_cases hparent : m.parent j = m.parent i
      · have hjfirst : ¬m.isFirst j = true := by
          rw [isFirst_iff, hparent, isFirst_iff.mp hfirst]
          exact fun heq => hj (FunctionBody.definition.inj heq).symm
        rw [if_neg fun hand => hjfirst hand.1, if_neg fun hand => hjfirst hand.1]
      · simp only [if_pos hfirst, Function.update_of_ne hparent]
    · simp only [if_neg hfirst]
  have hself : returnMeasure m infos (Function.update s.1 (infos.id i) best,
      if m.isFirst i then Function.update s.2 (m.parent i) (best % 2 ^ 32) else s.2) i <
        returnMeasure m infos s i := by
    unfold returnMeasure
    dsimp only
    rw [infos.row_update, Function.update_self, Prod.Lex.toLex_lt_toLex]
    rcases hcases with ⟨hthrough, hnew, j, hj, hjne, hbest⟩ | ⟨hbest, hfirst, hlag⟩
    · exact Or.inl (length_lt (by omega) hnew)
    · refine Or.inr ⟨congrArg length hbest, ?_⟩
      have hstored : ¬(m.isFirst i = true ∧ best % 2 ^ 32 ≠ best) := by
        have hroom := hfits.room h.supported (isFirst_iff.mp hfirst)
        rw [hbest, Nat.mod_eq_of_lt (by omega)]
        exact fun hand => hand.2 rfl
      simp only [if_pos hfirst, Function.update_self, if_neg hstored]
      rw [if_pos ⟨hfirst, hbest ▸ hlag⟩]
      exact Nat.one_pos
  refine Pi.lt_def.mpr ⟨fun j => ?_, i, hself⟩
  by_cases hj : j = i
  · subst hj
    exact hself.le
  · exact (hother j hj).le

omit [DecidableEq Inst] [DecidableEq Fn] in
theorem finite_inst (m : TrackedModule Inst Fn) : Finite Inst :=
  Set.finite_univ_iff.mp (m.instructions.finite_toSet.subset fun i _ => m.mem_instructions i)

theorem returnStep_decreases (hfits : m.Fits) (i : Inst) (s s' : (Nat → Nat) × (Fn → Nat)) (h : ReturnInv m infos s)
    (hstep : m.returnStep infos i s = some s') :
    ReturnInv m infos s' ∧ returnMeasure m infos s' < returnMeasure m infos s :=
  ⟨h.step hfits hstep, returnMeasure_lt h hfits hstep⟩

theorem exists_returns (hfits : m.Fits) (infos : InfoTable Inst Fn) (table : Nat → Nat) :
    ∃ fuel s', Passes.repeatPass (m.returnStep infos) m.instructions.reverse fuel
      (m.setAll infos m.initialReturn table, m.initialShortestPath) = some s' := by
  have := m.finite_inst
  exact Passes.exists_repeatPass (returnStep_decreases hfits) (returnInv_initial table)

theorem ReturnInv.stored (h : ReturnInv m infos s) (hnone : ∀ i, m.returnStep infos i s = none) {f : Fn} {first : Inst}
    (hf : m.body f = .definition first) : s.2 f = infos.row s.1 first := by
  rcases h.defined f first hf with heq | ⟨-, hret⟩
  · exact heq
  · have hparent : m.parent first = f := m.parent_first f first hf
    have hthrough : m.bestThrough s.2 first = 1 := bestThrough_of_not_call fun operand hcall => by
      rw [hret] at hcall
      cases hcall
    have hstored := (returnStep_none (hnone first) (by rw [hthrough]; exact Nat.one_ne_zero)).2
    rw [hparent] at hstored
    exact hstored (isFirst_iff.mpr (by rw [hparent, hf]))

theorem ReturnInv.closed (h : ReturnInv m infos s) (hfits : m.Fits) (hnone : ∀ i, m.returnStep infos i s = none) :
    Closed m.returnRules (infos.row s.1) := by
  have hroom := h.room hfits
  -- a way through the instruction to a successor
  have hway : ∀ i j k, j ∈ m.getSuccs i → infos.row s.1 j ≠ 0 → m.bestThrough s.2 i ≠ 0 →
      m.bestThrough s.2 i ≤ k → infos.row s.1 i ≠ 0 ∧ infos.row s.1 i ≤ k + infos.row s.1 j := by
    intro i j k hj hjne hne hk
    obtain ⟨hine, hle⟩ := (returnStep_none (hnone i) hne).1 j hj hjne
    exact ⟨hine, by omega⟩
  intro i r hr hvalue
  cases hr with
  | ret hkind => exact h.ret i hkind
  | @step j hkind hj =>
    have hjne : infos.row s.1 j ≠ 0 := fun hj0 => hvalue (if_pos hj0)
    rw [Rule.value, if_neg hjne]
    have hthrough : m.bestThrough s.2 i = 1 := bestThrough_of_not_call hkind
    exact hway i j 1 hj hjne (by omega) hthrough.le
  | @declared j operand f hkind hf hbody hj =>
    have hjne : infos.row s.1 j ≠ 0 := fun hj0 => hvalue (if_pos hj0)
    rw [Rule.value, if_neg hjne]
    have hpath : s.2 f = 1 := h.declared f false hbody
    obtain ⟨hne, hle⟩ := bestThrough_le hroom hkind hf (by omega)
    exact hway i j 2 hj hjne hne (by omega)
  | @defined j first operand f hkind hf hbody hj =>
    have hnot : ¬(infos.row s.1 first = 0 ∨ infos.row s.1 j = 0) := fun h0 => hvalue (if_pos h0)
    rw [Rule.value, if_neg hnot]
    rw [not_or] at hnot
    have hpath := h.stored hnone hbody
    obtain ⟨hne, hle⟩ := bestThrough_le hroom hkind hf (by omega)
    exact hway i j (1 + infos.row s.1 first) hj hnot.2 hne (by omega)

theorem returns_spec (hfits : m.Fits) {table : Nat → Nat} {fuel : Nat}
    (hrun : Passes.repeatPass (m.returnStep infos) m.instructions.reverse fuel
      (m.setAll infos m.initialReturn table, m.initialShortestPath) = some s') :
    m.ShortestThrough s'.2 ∧ ∀ i, IsShortest m.returnRules i (infos.row s'.1 i) := by
  obtain ⟨hinv, hnone⟩ := Passes.repeatPass_spec (returnStep_decreases hfits) (returnInv_initial table) hrun
  have hnone' : ∀ i, m.returnStep infos i s' = none :=
    fun i => hnone i (List.mem_reverse.mpr (m.mem_instructions i))
  have hshortest := isShortest_of_sound_of_closed hinv.supported.sound (hinv.closed hfits hnone')
    m.returnRules_positive
  refine ⟨fun f => ⟨hinv.room hfits f, ?_⟩, hshortest⟩
  split
  · exact hinv.declared f _ ‹_›
  · rw [hinv.stored hnone' ‹_›]
    exact hshortest _

end TrackedModule

end CgsKlee
