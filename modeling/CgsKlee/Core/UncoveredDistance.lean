import CgsKlee.Core.ReturnDistance
import Mathlib.Data.Fin.VecNotation

/-!
# Distances to uncovered instructions are local

The second loop of `computeReachableUncovered` looks the distance of a callee up under the id of the function, where no
distance is ever stored: the calls are stepped over, never into.  So the table holds the shortest paths that stay in
the activation (`localRules`), and these are the shortest paths of the claim (`pathRules`) only where no path through a
callee is shorter.
-/

namespace CgsKlee

open Derivations

namespace TrackedModule

variable {Inst Fn : Type} (m : TrackedModule Inst Fn)

/-- The lengths of the paths through a function. -/
def Through (f : Fn) (k : Nat) : Prop :=
  match m.body f with
  | .declaration doesNotReturn => doesNotReturn = false ∧ k = 1
  | .definition first => Derives m.returnRules first k

variable (uncovered : Inst → Bool)

/-- The steps to an uncovered instruction that stay in the activation. -/
inductive LocalRule : Inst → Rule Inst → Prop
  | here {i : Inst} : uncovered i = true → LocalRule i (.leaf 1)
  | step {i j : Inst} : (∀ operand, m.kind i ≠ .call operand) → j ∈ m.getSuccs i → LocalRule i (.one 1 j)
  | stepOver {i j : Inst} {operand : CalledOperand Fn} {f : Fn} {k : Nat} : m.kind i = .call operand →
    f ∈ m.callTargets operand → m.Through f k → j ∈ m.getSuccs i → LocalRule i (.one (1 + k) j)

/-- The steps to an uncovered instruction in the activation and its callees. -/
inductive PathRule : Inst → Rule Inst → Prop
  | inside {i : Inst} {r : Rule Inst} : m.LocalRule uncovered i r → PathRule i r
  | stepInto {i first : Inst} {operand : CalledOperand Fn} {f : Fn} : m.kind i = .call operand →
    f ∈ m.callTargets operand → m.body f = .definition first → PathRule i (.one 1 first)

def localRules (i : Inst) : Set (Rule Inst) := Set.ofPred (m.LocalRule uncovered i)

def pathRules (i : Inst) : Set (Rule Inst) := Set.ofPred (m.PathRule uncovered i)

theorem localRules_subset (i : Inst) : m.localRules uncovered i ⊆ m.pathRules uncovered i :=
  fun _ hr => .inside hr

theorem localRules_positive : Positive (m.localRules uncovered) := by
  intro i r hr
  cases hr with
  | here | step => exact Nat.one_pos
  | stepOver => exact Nat.add_pos_left Nat.one_pos _

variable {m uncovered} {functionShortestPath : Fn → Nat}

theorem ShortestThrough.through (h : m.ShortestThrough functionShortestPath) {f : Fn}
    (hne : functionShortestPath f ≠ 0) : m.Through f (functionShortestPath f) := by
  have hf := (h f).2
  unfold Through
  cases hbody : m.body f with
  | declaration doesNotReturn =>
    rw [hbody] at hf
    cases doesNotReturn with
    | true => exact absurd hf hne
    | false => exact ⟨rfl, hf⟩
  | definition first =>
    rw [hbody] at hf
    exact hf.derives hne

theorem ShortestThrough.le (h : m.ShortestThrough functionShortestPath) {f : Fn} {k : Nat} (hk : m.Through f k) :
    functionShortestPath f ≠ 0 ∧ functionShortestPath f ≤ k := by
  have hf := (h f).2
  unfold Through at hk
  cases hbody : m.body f with
  | declaration doesNotReturn =>
    rw [hbody] at hf hk
    obtain ⟨rfl, rfl⟩ := hk
    rw [hf]
    exact ⟨Nat.one_ne_zero, le_rfl⟩
  | definition first =>
    rw [hbody] at hf hk
    exact ⟨hf.ne_zero hk, (hf.2 k hk).1⟩

theorem ShortestThrough.rule (h : m.ShortestThrough functionShortestPath) {i j : Inst} (hj : j ∈ m.getSuccs i)
    (hne : m.bestThrough functionShortestPath i ≠ 0) :
    .one (m.bestThrough functionShortestPath i) j ∈ m.localRules uncovered i := by
  by_cases hcall : ∃ operand, m.kind i = .call operand
  · obtain ⟨operand, hkind⟩ := hcall
    obtain ⟨f, hf, hfne, hthrough⟩ := exists_bestThrough (fun f => (h f).1) hkind hne
    rw [hthrough]
    exact LocalRule.stepOver hkind hf (h.through hfne) hj
  · rw [not_exists] at hcall
    rw [bestThrough_of_not_call hcall]
    exact LocalRule.step hcall hj

variable [DecidableEq Inst] [DecidableEq Fn] {infos : InfoTable Inst Fn} {i : Inst} {table table' : Nat → Nat}

theorem uncoveredStep_eq (h : ∀ f, table (infos.functionId f) = 0) :
    m.uncoveredStep infos functionShortestPath i table =
      let cur := infos.row table i
      let through := m.bestThrough functionShortestPath i
      let best :=
        if through = 0 then cur
        else (m.getSuccs i).foldl (fun best j => relax through best (infos.row table j)) cur
      if best ≠ cur then some (Function.update table (infos.id i) best) else none := by
  unfold uncoveredStep
  cases m.kind i with
  | call operand =>
    have hnothing : ∀ f, (match m.body f with
        | .declaration _ => infos.row table i
        | .definition _ => relax 1 (infos.row table i) (table (infos.functionId f))) = infos.row table i := by
      intro f
      split
      · rfl
      · rw [h f]
        rfl
    dsimp only
    rw [List.foldl_fixed' hnothing]
  | ret | other => rfl

theorem uncoveredStep_cases (h : ∀ f, table (infos.functionId f) = 0)
    (hstep : m.uncoveredStep infos functionShortestPath i table = some table') :
    ∃ best, table' = Function.update table (infos.id i) best ∧ m.bestThrough functionShortestPath i ≠ 0 ∧
      (infos.row table i = 0 ∨ best < infos.row table i) ∧
      ∃ j ∈ m.getSuccs i, infos.row table j ≠ 0 ∧
        best = m.bestThrough functionShortestPath i + infos.row table j := by
  rw [uncoveredStep_eq h] at hstep
  extract_lets cur through best at hstep
  split at hstep
  · rename_i hne
    cases hstep
    have hthrough : through ≠ 0 := fun h0 => hne (if_pos h0)
    have hbest : best = (m.getSuccs i).foldl (fun best j => relax through best (infos.row table j)) cur :=
      if_neg hthrough
    obtain ⟨j, hj, hjne, hnew⟩ :=
      (foldl_relax_cases through cur (infos.row table) (m.getSuccs i)).resolve_left (hbest ▸ hne)
    refine ⟨best, rfl, hthrough, ?_, j, hj, hjne, hbest.trans hnew⟩
    by_cases hcur : cur = 0
    · exact Or.inl hcur
    · have hle : best ≤ cur := hbest ▸ (foldl_relax_le_best hcur).2
      exact Or.inr (lt_of_le_of_ne hle hne)
  · cases hstep

theorem uncoveredStep_none (h : ∀ f, table (infos.functionId f) = 0)
    (hstep : m.uncoveredStep infos functionShortestPath i table = none)
    (hne : m.bestThrough functionShortestPath i ≠ 0) {j : Inst} (hj : j ∈ m.getSuccs i)
    (hjne : infos.row table j ≠ 0) :
    infos.row table i ≠ 0 ∧ infos.row table i ≤ m.bestThrough functionShortestPath i + infos.row table j := by
  rw [uncoveredStep_eq h] at hstep
  extract_lets cur through best at hstep
  split at hstep
  · cases hstep
  · rename_i hsame
    rw [not_not] at hsame
    have hle : best ≠ 0 ∧ best ≤ through + infos.row table j := by
      unfold best
      rw [if_neg hne]
      exact foldl_relax_le hj hjne
    rwa [hsame] at hle

structure UncoveredInv (m : TrackedModule Inst Fn) (infos : InfoTable Inst Fn) (uncovered : Inst → Bool)
    (table : Nat → Nat) : Prop where
  sound : Sound (m.localRules uncovered) (infos.row table)
  here : ∀ i, uncovered i = true → infos.row table i ≠ 0 ∧ infos.row table i ≤ 1
  entries : ∀ f, table (infos.functionId f) = 0

theorem uncoveredInv_initial (h : ∀ f, table (infos.functionId f) = 0) :
    UncoveredInv m infos uncovered
      (m.setAll infos (infos.row (infos.uncoveredInstructions uncovered)) table) := by
  have hrow : ∀ i, infos.row (m.setAll infos (infos.row (infos.uncoveredInstructions uncovered)) table) i =
      if uncovered i = true then 1 else 0 := by
    intro i
    rw [row_setAll, infos.row_uncoveredInstructions]
  refine ⟨fun i hi => ?_, fun i hi => ?_, fun f => ?_⟩
  · rw [hrow] at hi ⊢
    split at hi
    · rename_i hu
      rw [if_pos hu]
      exact .leaf (.here hu)
    · exact absurd rfl hi
  · rw [hrow, if_pos hi]
    exact ⟨Nat.one_ne_zero, le_rfl⟩
  · rw [setAll_functionId]
    exact h f

theorem UncoveredInv.step (h : UncoveredInv m infos uncovered table) (hthrough : m.ShortestThrough functionShortestPath)
    (hstep : m.uncoveredStep infos functionShortestPath i table = some table') :
    UncoveredInv m infos uncovered table' := by
  obtain ⟨best, rfl, hne, hnew, j, hj, hjne, hbest⟩ := uncoveredStep_cases h.entries hstep
  refine ⟨?_, fun k hk => ?_, fun f => ?_⟩
  · rw [infos.row_update]
    refine h.sound.improve ?_
    rw [hbest]
    exact .one (hthrough.rule hj hne) (h.sound j hjne)
  · rw [infos.row_update]
    have hle := h.here k hk
    by_cases hki : k = i
    · subst hki
      rw [Function.update_self]
      omega
    · rw [Function.update_of_ne hki]
      exact hle
  · rw [Function.update_of_ne (infos.functionId_ne_id f i)]
    exact h.entries f

/-- What gets smaller: the entries of the instructions. -/
def uncoveredMeasure (infos : InfoTable Inst Fn) (table : Nat → Nat) : Inst → ℕ∞ :=
  fun i => length (infos.row table i)

theorem uncoveredStep_decreases (hthrough : m.ShortestThrough functionShortestPath) (i : Inst)
    (table table' : Nat → Nat) (h : UncoveredInv m infos uncovered table)
    (hstep : m.uncoveredStep infos functionShortestPath i table = some table') :
    UncoveredInv m infos uncovered table' ∧ uncoveredMeasure infos table' < uncoveredMeasure infos table := by
  refine ⟨h.step hthrough hstep, ?_⟩
  obtain ⟨best, rfl, hne, hnew, j, hj, hjne, hbest⟩ := uncoveredStep_cases h.entries hstep
  have hself : uncoveredMeasure infos (Function.update table (infos.id i) best) i < uncoveredMeasure infos table i := by
    unfold uncoveredMeasure
    rw [infos.row_update, Function.update_self]
    exact length_lt (by omega) hnew
  refine Pi.lt_def.mpr ⟨fun k => ?_, i, hself⟩
  by_cases hk : k = i
  · subst hk
    exact hself.le
  · unfold uncoveredMeasure
    rw [infos.row_update, Function.update_of_ne hk]

theorem exists_uncovered (uncovered : Inst → Bool) (hthrough : m.ShortestThrough functionShortestPath)
    (h : ∀ f, table (infos.functionId f) = 0) :
    ∃ fuel table', Passes.repeatPass (m.uncoveredStep infos functionShortestPath) m.instructions.reverse fuel
      (m.setAll infos (infos.row (infos.uncoveredInstructions uncovered)) table) = some table' := by
  have := m.finite_inst
  exact Passes.exists_repeatPass (uncoveredStep_decreases hthrough) (uncoveredInv_initial h)

theorem UncoveredInv.closed (h : UncoveredInv m infos uncovered table)
    (hthrough : m.ShortestThrough functionShortestPath)
    (hnone : ∀ i, m.uncoveredStep infos functionShortestPath i table = none) :
    Closed (m.localRules uncovered) (infos.row table) := by
  intro i r hr hvalue
  cases hr with
  | here hu => exact h.here i hu
  | @step j hkind hj =>
    have hjne : infos.row table j ≠ 0 := fun hj0 => hvalue (if_pos hj0)
    have hone : m.bestThrough functionShortestPath i = 1 := bestThrough_of_not_call hkind
    obtain ⟨hine, hle⟩ := uncoveredStep_none h.entries (hnone i) (by omega) hj hjne
    rw [Rule.value, if_neg hjne]
    exact ⟨hine, by omega⟩
  | @stepOver j operand f k hkind hf hk hj =>
    have hjne : infos.row table j ≠ 0 := fun hj0 => hvalue (if_pos hj0)
    obtain ⟨hfne, hfk⟩ := hthrough.le hk
    obtain ⟨hne, hle⟩ := bestThrough_le (fun f => (hthrough f).1) hkind hf hfne
    obtain ⟨hine, hle'⟩ := uncoveredStep_none h.entries (hnone i) hne hj hjne
    rw [Rule.value, if_neg hjne]
    exact ⟨hine, by omega⟩

theorem uncovered_spec (hthrough : m.ShortestThrough functionShortestPath)
    (h : ∀ f, table (infos.functionId f) = 0) {fuel : Nat}
    (hrun : Passes.repeatPass (m.uncoveredStep infos functionShortestPath) m.instructions.reverse fuel
      (m.setAll infos (infos.row (infos.uncoveredInstructions uncovered)) table) = some table') :
    (∀ f, table' (infos.functionId f) = 0) ∧
      ∀ i, IsShortest (m.localRules uncovered) i (infos.row table' i) := by
  obtain ⟨hinv, hnone⟩ :=
    Passes.repeatPass_spec (uncoveredStep_decreases hthrough) (uncoveredInv_initial h) hrun
  have hclosed := hinv.closed hthrough fun i => hnone i (List.mem_reverse.mpr (m.mem_instructions i))
  exact ⟨hinv.entries, isShortest_of_sound_of_closed hinv.sound hclosed (m.localRules_positive uncovered)⟩

variable {s s' s₁ s₂ : StatsTables Fn}

/-- The tables before the first call and after any calls. -/
inductive Reached (m : TrackedModule Inst Fn) (infos : InfoTable Inst Fn) : StatsTables Fn → Prop
  | start : Reached m infos .start
  | call {s s' : StatsTables Fn} {fuel : Nat} {uncovered : Inst → Bool} : Reached m infos s →
    m.computeReachableUncovered infos fuel uncovered s = some s' → Reached m infos s'

/-- What holds of the tables: nothing is stored under the ids of functions, and after the first call the distances to
returns are the shortest. -/
structure TablesInv (m : TrackedModule Inst Fn) (infos : InfoTable Inst Fn) (s : StatsTables Fn) : Prop where
  entries : ∀ f, s.minDistToUncovered (infos.functionId f) = 0
  returns : s.init = false →
    m.ShortestThrough s.functionShortestPath ∧ ∀ i, IsShortest m.returnRules i (infos.row s.minDistToReturn i)

theorem computeReachableUncovered_cases {fuel : Nat}
    (h : m.computeReachableUncovered infos fuel uncovered s = some s') :
    ∃ minDistToReturn functionShortestPath minDistToUncovered,
      s' = ⟨false, functionShortestPath, minDistToReturn, minDistToUncovered⟩ ∧
      (s.init = true ∧ Passes.repeatPass (m.returnStep infos) m.instructions.reverse fuel
          (m.setAll infos m.initialReturn s.minDistToReturn, m.initialShortestPath) =
            some (minDistToReturn, functionShortestPath) ∨
        s.init = false ∧ minDistToReturn = s.minDistToReturn ∧ functionShortestPath = s.functionShortestPath) ∧
      Passes.repeatPass (m.uncoveredStep infos functionShortestPath) m.instructions.reverse fuel
        (m.setAll infos (infos.row (infos.uncoveredInstructions uncovered)) s.minDistToUncovered) =
          some minDistToUncovered := by
  unfold computeReachableUncovered at h
  dsimp only at h
  split at h
  · rename_i hinit
    obtain ⟨⟨minDistToReturn, functionShortestPath⟩, hrun, hrest⟩ := Option.bind_eq_some_iff.mp h
    obtain ⟨t, ht, hrest⟩ := Option.bind_eq_some_iff.mp hrest
    cases ht
    obtain ⟨minDistToUncovered, huncovered, hs'⟩ := Option.bind_eq_some_iff.mp hrest
    cases hs'
    exact ⟨_, _, _, rfl, Or.inl ⟨hinit, hrun⟩, huncovered⟩
  · rename_i hinit
    obtain ⟨t, ht, hrest⟩ := Option.bind_eq_some_iff.mp h
    cases ht
    obtain ⟨minDistToUncovered, huncovered, hs'⟩ := Option.bind_eq_some_iff.mp hrest
    cases hs'
    rw [Bool.not_eq_true] at hinit
    refine ⟨s.minDistToReturn, s.functionShortestPath, minDistToUncovered, ?_, Or.inr ⟨hinit, rfl, rfl⟩, huncovered⟩
    rw [← hinit]

theorem TablesInv.through (h : TablesInv m infos s) (hfits : m.Fits) {fuel : Nat} {minDistToReturn : Nat → Nat}
    (hreturns : s.init = true ∧ Passes.repeatPass (m.returnStep infos) m.instructions.reverse fuel
        (m.setAll infos m.initialReturn s.minDistToReturn, m.initialShortestPath) =
          some (minDistToReturn, functionShortestPath) ∨
      s.init = false ∧ minDistToReturn = s.minDistToReturn ∧ functionShortestPath = s.functionShortestPath) :
    m.ShortestThrough functionShortestPath ∧ ∀ i, IsShortest m.returnRules i (infos.row minDistToReturn i) := by
  rcases hreturns with ⟨-, hrun⟩ | ⟨hinit, rfl, rfl⟩
  · exact returns_spec hfits hrun
  · exact h.returns hinit

theorem TablesInv.call (h : TablesInv m infos s) (hfits : m.Fits) {fuel : Nat}
    (hcall : m.computeReachableUncovered infos fuel uncovered s = some s') :
    TablesInv m infos s' ∧ s'.init = false ∧
      ∀ i, IsShortest (m.localRules uncovered) i (infos.row s'.minDistToUncovered i) := by
  obtain ⟨minDistToReturn, functionShortestPath, minDistToUncovered, rfl, hreturns, huncovered⟩ :=
    computeReachableUncovered_cases hcall
  have hthrough := h.through hfits hreturns
  obtain ⟨hentries, hshortest⟩ := uncovered_spec hthrough.1 h.entries huncovered
  exact ⟨⟨hentries, fun _ => hthrough⟩, rfl, hshortest⟩

theorem Reached.inv (h : Reached m infos s) (hfits : m.Fits) : TablesInv m infos s := by
  induction h with
  | start => exact ⟨fun _ => rfl, nofun⟩
  | call _ hcall ih => exact (ih.call hfits hcall).1

theorem TablesInv.exists_call (h : TablesInv m infos s) (hfits : m.Fits) (uncovered : Inst → Bool) :
    ∃ fuel s', m.computeReachableUncovered infos fuel uncovered s = some s' := by
  unfold computeReachableUncovered
  cases hinit : s.init with
  | true =>
    obtain ⟨fuel, t, hreturns⟩ := exists_returns hfits infos s.minDistToReturn
    have hthrough := (returns_spec hfits hreturns).1
    obtain ⟨fuel', table, huncovered⟩ := exists_uncovered uncovered hthrough h.entries
    have hreturns' := Passes.repeatPass_mono hreturns (Nat.le_max_left fuel fuel')
    have huncovered' := Passes.repeatPass_mono huncovered (Nat.le_max_right fuel fuel')
    refine ⟨max fuel fuel', ⟨false, t.2, t.1, table⟩, ?_⟩
    dsimp only
    rw [if_pos rfl, hreturns']
    dsimp only [Option.bind_some, Option.bind_eq_bind]
    rw [huncovered']
    rfl
  | false =>
    obtain ⟨fuel, table, huncovered⟩ := exists_uncovered uncovered (h.returns hinit).1 h.entries
    refine ⟨fuel, ⟨s.init, s.functionShortestPath, s.minDistToReturn, table⟩, ?_⟩
    dsimp only
    rw [if_neg Bool.false_ne_true]
    dsimp only [Option.bind_some, Option.bind_eq_bind]
    rw [huncovered]
    rfl

theorem computeReachableUncovered_unique {fuel fuel' : Nat}
    (h₁ : m.computeReachableUncovered infos fuel uncovered s = some s₁)
    (h₂ : m.computeReachableUncovered infos fuel' uncovered s = some s₂) : s₁ = s₂ := by
  obtain ⟨r₁, p₁, t₁, rfl, hreturns₁, huncovered₁⟩ := computeReachableUncovered_cases h₁
  obtain ⟨r₂, p₂, t₂, rfl, hreturns₂, huncovered₂⟩ := computeReachableUncovered_cases h₂
  have hreturns : (r₁, p₁) = (r₂, p₂) := by
    rcases hreturns₁ with ⟨hinit, hrun₁⟩ | ⟨hinit, rfl, rfl⟩
    · rcases hreturns₂ with ⟨-, hrun₂⟩ | ⟨hinit', -, -⟩
      · exact Passes.repeatPass_unique hrun₁ hrun₂
      · rw [hinit] at hinit'
        cases hinit'
    · rcases hreturns₂ with ⟨hinit', -⟩ | ⟨-, rfl, rfl⟩
      · rw [hinit] at hinit'
        cases hinit'
      · rfl
  cases hreturns
  rw [Passes.repeatPass_unique huncovered₁ huncovered₂]

/-- `computeReachableUncovered` leaves the shortest distances, if and only if for every path that steps into callees
there is one that does not and is no longer. -/
theorem computeReachableUncovered_iff (hfits : m.Fits) (hs : Reached m infos s) (uncovered : Inst → Bool) :
    (∃ fuel s', m.computeReachableUncovered infos fuel uncovered s = some s' ∧
      ∀ i, IsShortest (m.pathRules uncovered) i (infos.row s'.minDistToUncovered i)) ↔
    ∀ i k, Derives (m.pathRules uncovered) i k → ∃ k' ≤ k, Derives (m.localRules uncovered) i k' := by
  have hinv := hs.inv hfits
  obtain ⟨fuel, s', hcall⟩ := hinv.exists_call hfits uncovered
  obtain ⟨-, -, hlocal⟩ := hinv.call hfits hcall
  rw [← forall_isShortest_iff (m.localRules_subset uncovered) hlocal]
  constructor
  · rintro ⟨fuel', s'', hcall', hshortest⟩
    rwa [computeReachableUncovered_unique hcall' hcall] at hshortest
  · exact fun hshortest => ⟨fuel, s', hcall, hshortest⟩

/-- A first function that calls a second one and returns, and the second one, a single return. -/
def callAndReturn : TrackedModule (Fin 3) (Fin 2) where
  instructions := [0, 1, 2]
  mem_instructions := by decide
  kind := ![.call (.direct 1), .ret, .ret]
  getSuccs := ![[1], [], []]
  parent := ![0, 0, 1]
  body := ![.definition 0, .definition 2]
  parent_first := by decide
  escapingFunctions := []

def callAndReturnInfos : InfoTable (Fin 3) (Fin 2) where
  infos := [0, 1, 2]
  functionInfos := [0, 1]
  mem_infos := by decide
  mem_functionInfos := by decide

theorem callAndReturn_returns {i : Fin 3} {n : Nat} (h : Derives callAndReturn.returnRules i n) :
    n ≤ ![3, 1, 1] i := by
  have hsuccs : ∀ i j, j ∈ callAndReturn.getSuccs i → i = 0 ∧ j = 1 := by decide
  induction h with
  | @leaf i w hr =>
    have hone : ∀ i : Fin 3, 1 ≤ (![3, 1, 1] : Fin 3 → Nat) i := by decide
    cases hr
    exact hone i
  | @one i j w n hr _ ih =>
    cases hr with
    | step hkind hj =>
      obtain ⟨rfl, -⟩ := hsuccs i j hj
      exact absurd rfl (hkind (.direct 1))
    | @declared _ _ f _ _ hbody _ =>
      have hdefined : ∀ f, callAndReturn.body f ≠ .declaration false := by decide
      exact absurd hbody (hdefined f)
  | @two i first j w m n hr _ _ ih ih' =>
    cases hr with
    | defined hkind hf hbody hj =>
      obtain ⟨rfl, rfl⟩ := hsuccs i j hj
      cases hkind
      cases List.mem_singleton.mp hf
      cases hbody
      have hm : m ≤ 1 := ih
      have hn : n ≤ 1 := ih'
      have : 1 + m + n ≤ 3 := by omega
      exact this

theorem callAndReturn_fits : callAndReturn.Fits := by
  intro f first _ n nodes hcourse
  have hthree : ∀ i : Fin 3, (![3, 1, 1] : Fin 3 → Nat) i ≤ 3 := by decide
  have := (callAndReturn_returns hcourse.derives).trans (hthree first)
  omega

/-- The instance in which only the return of the first function is uncovered. -/
theorem computeReachableUncovered_iff_callAndReturn :
    (∃ fuel s', callAndReturn.computeReachableUncovered callAndReturnInfos fuel (decide <| · = 1) .start = some s' ∧
      ∀ i, IsShortest (callAndReturn.pathRules (decide <| · = 1)) i (callAndReturnInfos.row s'.minDistToUncovered i)) ↔
    ∀ i k, Derives (callAndReturn.pathRules (decide <| · = 1)) i k →
      ∃ k' ≤ k, Derives (callAndReturn.localRules (decide <| · = 1)) i k' :=
  computeReachableUncovered_iff callAndReturn_fits .start _

/-- Only the instruction of the second function is uncovered: the call is left without a distance. -/
theorem computeReachableUncovered_callee : ¬∃ fuel s',
    callAndReturn.computeReachableUncovered callAndReturnInfos fuel (decide <| · = 2) .start = some s' ∧
      ∀ i, IsShortest (callAndReturn.pathRules (decide <| · = 2)) i
        (callAndReturnInfos.row s'.minDistToUncovered i) := by
  rintro ⟨fuel, s', hcall, hshortest⟩
  have hrun : (callAndReturn.computeReachableUncovered callAndReturnInfos 3 (decide <| · = 2) .start).map
      (fun s => s.minDistToUncovered 0) = some 0 := by decide
  obtain ⟨s'', hcall', hzero⟩ := Option.map_eq_some_iff.mp hrun
  have hpath : Derives (callAndReturn.pathRules (decide <| · = 2)) 0 2 :=
    .one (PathRule.stepInto rfl (List.mem_singleton.mpr rfl) rfl) (.leaf (.inside (.here rfl)))
  refine (hshortest 0).ne_zero hpath ?_
  rw [computeReachableUncovered_unique hcall hcall']
  exact hzero

end TrackedModule

end CgsKlee
