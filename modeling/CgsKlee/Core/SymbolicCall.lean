import CgsKlee.Core.ForkModels
import Mathlib.Data.List.Perm.Subperm

/-!
# Calls through symbolic function pointers

The handler of a call whose function pointer is symbolic asks for one value of the pointer after the other, forks off
the state in which the pointer has it, and enters the function at that address.  If there is none, it terminates the
state that executed the call, which is the one that was forked off only for the first value; and it does so once.
`executeSymbolicCall_iff` says when no input is lost.
-/

namespace CgsKlee

open Symbolic

namespace SymbolicCall

variable {T : ExprTheory} {F : Type}

/-- The call stack of a state, functions with their arguments, and the message it was terminated with. -/
structure CallData (T : ExprTheory) (F : Type) where
  stack : List (F × List T.Expr)
  terminated : Option String

abbrev CallState (T : ExprTheory) (F : Type) := SymState T (CallData T F)

def executeCall (f : F) (arguments : List T.Expr) (state : CallState T F) : CallState T F :=
  { state with data := { state.data with stack := (f, arguments) :: state.data.stack } }

def terminateStateOnExecError (message : String) (state : CallState T F) : CallState T F :=
  { state with data := { state.data with terminated := some message } }

/-- The variables of the loop.  The states are the one that executes the call and those forked off, in the order of
their creation; `free` is the position of the one that is left. -/
structure CallLoop (T : ExprTheory) (F : Type) where
  states : List (CallState T F)
  free : Option Nat
  hasInvalid : Bool

section Handler

variable (B : Backend T) (legalFunctions : Nat → Option F) (v : T.Expr) (arguments : List T.Expr)

/-- What is done for one value of the function pointer, with the state at the position `i` forked off. -/
def handleValue (hasInvalid : Bool) (value i : Nat) (states : List (CallState T F)) : List (CallState T F) :=
  match legalFunctions value with
  | some f => states.modify i (executeCall f arguments)
  | none =>
    -- the state that executed the call is at the beginning
    if hasInvalid then states else states.modify 0 (terminateStateOnExecError "invalid function pointer")

def step (env : ForkEnv) (coin : Bool) (loop : CallLoop T F) : Option (CallLoop T F) := do
  let i ← loop.free
  let current ← loop.states[i]?
  let value := B.getValue current.constraints v
  let res ← fork B env coin current (T.eq v (T.const value (T.width v)))
  match res.trueState, res.falseState with
  | some trueState, falseState =>
    let states := handleValue legalFunctions arguments loop.hasInvalid value i (loop.states.set i trueState)
    let hasInvalid := loop.hasInvalid || (legalFunctions value).isNone
    match falseState with
    | some falseState => some { states := states ++ [falseState], free := some states.length, hasInvalid }
    | none => some { states, free := none, hasInvalid }
  | none, some falseState => some { loop with states := loop.states.set i falseState }
  -- both sides were terminated by the fork
  | none, none => some { loop with states := loop.states.eraseIdx i, free := none }

/-- The loop from the iteration `n` on, for a number of iterations at most. -/
def run (env : Nat → ForkEnv) (coins : Nat → Bool) : Nat → Nat → CallLoop T F → Option (List (CallState T F))
  | fuel, n, loop =>
    match loop.free, fuel with
    | none, _ => some loop.states
    | some _, 0 => none
    | some _, fuel + 1 => do
      let loop ← step B legalFunctions v arguments (env n) (coins n) loop
      run env coins fuel (n + 1) loop

/-- The handler of a call through the function pointer `v`, with a bound on the iterations. -/
def executeSymbolicCall (env : Nat → ForkEnv) (coins : Nat → Bool) (fuel : Nat) (state : CallState T F) :
    Option (List (CallState T F)) :=
  run B legalFunctions v arguments env coins fuel 0 { states := [state], free := some 0, hasInvalid := false }

end Handler

section Spec

variable (legalFunctions : Nat → Option F) (v : T.Expr) (arguments : List T.Expr) (s : CallState T F)

/-- Every model of the state is one of exactly one result; there the function at the address is entered, or the state
is terminated if there is none. -/
def LosesNobody (results : List (CallState T F)) : Prop :=
  ∀ m ∈ T.models s.constraints, ∃ (i : Nat) (t : CallState T F), results[i]? = some t ∧ m ∈ T.models t.constraints ∧
    (∀ (j : Nat) (t' : CallState T F), results[j]? = some t' → m ∈ T.models t'.constraints → j = i) ∧
    match legalFunctions (T.eval m v) with
    | some f => t.data = ⟨(f, arguments) :: s.data.stack, none⟩
    | none => t.data.terminated = some "invalid function pointer"

/-- The data of the state forked off for the value at a position of the values so far. -/
def dataOf (values : List Nat) (i : Nat) : CallData T F where
  stack :=
    match values[i]?.bind legalFunctions with
    | some f => (f, arguments) :: s.data.stack
    | none => s.data.stack
  terminated := if i = 0 ∧ values.any (legalFunctions · |>.isNone) then some "invalid function pointer" else s.data.terminated

structure Handled (B : Backend T) (values : List Nat) (loop : CallLoop T F) : Prop where
  nodup : values.Nodup
  feasible : ∀ value ∈ values, ∃ m ∈ T.models s.constraints, T.eval m v = value
  first : ∀ value ∈ values.head?, value = B.getValue s.constraints v
  hasInvalid : loop.hasInvalid = values.any (legalFunctions · |>.isNone)
  states : ∀ i value, values[i]? = some value → ∃ t, loop.states[i]? = some t ∧
    T.models t.constraints = {m | m ∈ T.models s.constraints ∧ T.eval m v = value} ∧
    t.data = dataOf legalFunctions arguments s values i
  rest : (loop.free = none ∧ loop.states.length = values.length ∧ ∀ m ∈ T.models s.constraints, T.eval m v ∈ values) ∨
    (loop.free = some values.length ∧ loop.states.length = values.length + 1 ∧
      ∃ t, loop.states[values.length]? = some t ∧
        T.models t.constraints = {m | m ∈ T.models s.constraints ∧ T.eval m v ∉ values} ∧
        (T.models t.constraints).Nonempty ∧ t.data = s.data ∧ t.forkDisabled = s.forkDisabled ∧
        t.depth ≤ s.depth + values.length ∧ (values = [] → t.constraints = s.constraints))

end Spec

section Proofs

variable {B : Backend T} {legalFunctions : Nat → Option F} {v : T.Expr} {arguments : List T.Expr}
  {s : CallState T F} {values : List Nat} {loop : CallLoop T F}

/-- What happens to the state at the position `j` when the one at `i` was forked off for a value. -/
def effect (legalFunctions : Nat → Option F) (arguments : List T.Expr) (hasInvalid : Bool) (value i j : Nat)
    (t : CallState T F) : CallState T F :=
  match legalFunctions value with
  | some f => if i = j then executeCall f arguments t else t
  | none => if hasInvalid = false ∧ 0 = j then terminateStateOnExecError "invalid function pointer" t else t

theorem effect_constraints (hasInvalid : Bool) (value i j : Nat) (t : CallState T F) :
    (effect legalFunctions arguments hasInvalid value i j t).constraints = t.constraints := by
  unfold effect
  split <;> split <;> rfl

theorem handleValue_getElem? (hasInvalid : Bool) (value i j : Nat) (states : List (CallState T F)) :
    (handleValue legalFunctions arguments hasInvalid value i states)[j]? =
      states[j]?.map (effect legalFunctions arguments hasInvalid value i j) := by
  unfold handleValue effect
  cases legalFunctions value with
  | some f => simp only [List.getElem?_modify, Option.map_eq_map]
  | none =>
    cases hasInvalid with
    | true => simp
    | false => simp only [Bool.false_eq_true, if_false, List.getElem?_modify, Option.map_eq_map, true_and]

theorem handleValue_length (hasInvalid : Bool) (value i : Nat) (states : List (CallState T F)) :
    (handleValue legalFunctions arguments hasInvalid value i states).length = states.length := by
  unfold handleValue
  split
  · exact List.length_modify _ _ _
  · split
    · rfl
    · exact List.length_modify _ _ _

theorem dataOf_append_left {i : Nat} (value k : Nat) (h : i < values.length) (hk : k = values.length) {t : CallState T F}
    (ht : t.data = dataOf legalFunctions arguments s values i) :
    (effect legalFunctions arguments (values.any (legalFunctions · |>.isNone)) value k i t).data =
      dataOf legalFunctions arguments s (values ++ [value]) i := by
  have hget : (values ++ [value])[i]? = values[i]? := List.getElem?_append_left h
  have hne : k ≠ i := by omega
  unfold effect dataOf
  rw [hget, List.any_append]
  cases hlegal : legalFunctions value with
  | some f =>
    dsimp only
    rw [if_neg hne, ht]
    simp [dataOf, hlegal]
  | none =>
    cases hany : values.any (legalFunctions · |>.isNone) with
    | true => simp [ht, dataOf, hany]
    | false =>
      simp only [hlegal, Bool.false_or, List.any_cons, Option.isNone_none, List.any_nil, Bool.or_false, and_true, true_and]
      split
      next hzero => simp [terminateStateOnExecError, ht, dataOf, hzero.symm]
      next hzero => simp [ht, dataOf, hany, Ne.symm hzero]

theorem dataOf_append_right (value k : Nat) (hk : k = values.length) {t : CallState T F} (ht : t.data = s.data) :
    (effect legalFunctions arguments (values.any (legalFunctions · |>.isNone)) value k k t).data =
      dataOf legalFunctions arguments s (values ++ [value]) k := by
  subst hk
  have hget : (values ++ [value])[values.length]? = some value := List.getElem?_concat_length
  unfold effect dataOf
  rw [hget, List.any_append]
  cases hlegal : legalFunctions value with
  | some f =>
    cases values with
    | nil => simp [executeCall, ht, hlegal]
    | cons first values => simp [executeCall, ht, hlegal]
  | none =>
    cases values with
    | nil => simp [terminateStateOnExecError, ht, hlegal]
    | cons first values => simp [ht, hlegal]

theorem handled_states {states : List (CallState T F)} {value : Nat} {t : CallState T F}
    (hlength : values.length < states.length)
    (hstates : ∀ i w, values[i]? = some w → ∃ t, states[i]? = some t ∧
      T.models t.constraints = {m | m ∈ T.models s.constraints ∧ T.eval m v = w} ∧
      t.data = dataOf legalFunctions arguments s values i)
    (hmodels : T.models t.constraints = {m | m ∈ T.models s.constraints ∧ T.eval m v = value}) (hdata : t.data = s.data) :
    ∀ i w, (values ++ [value])[i]? = some w → ∃ t',
      (handleValue legalFunctions arguments (values.any (legalFunctions · |>.isNone)) value values.length
        (states.set values.length t))[i]? = some t' ∧
      T.models t'.constraints = {m | m ∈ T.models s.constraints ∧ T.eval m v = w} ∧
      t'.data = dataOf legalFunctions arguments s (values ++ [value]) i := by
  intro i w hi
  rw [handleValue_getElem?]
  rcases Nat.lt_or_ge i values.length with hlt | hge
  · rw [List.getElem?_append_left hlt] at hi
    obtain ⟨t', ht', hmodels', hdata'⟩ := hstates i w hi
    rw [List.getElem?_set_ne (by omega), ht', Option.map_some]
    exact ⟨_, rfl, by rw [effect_constraints, hmodels'], dataOf_append_left value _ hlt rfl hdata'⟩
  · have hlast : i = values.length := by
      have hlt := (List.getElem?_eq_some_iff.mp hi).1
      rw [List.length_append, List.length_singleton] at hlt
      omega
    subst hlast
    rw [List.getElem?_concat_length, Option.some.injEq] at hi
    subst hi
    rw [List.getElem?_set_self hlength, Option.map_some]
    exact ⟨_, rfl, by rw [effect_constraints, hmodels], dataOf_append_right value _ rfl hdata⟩

theorem step_handled (hB : B.Exact) {env : ForkEnv} (coin : Bool)
    (henv : ∀ t : CallState T F, t.forkDisabled = s.forkDisabled → t.depth ≤ s.depth + values.length → env.Unlimited t)
    (h : Handled legalFunctions v arguments s B values loop) (hfree : loop.free ≠ none) :
    ∃ loop' value, step B legalFunctions v arguments env coin loop = some loop' ∧
      Handled legalFunctions v arguments s B (values ++ [value]) loop' := by
  rcases h.rest with ⟨hnone, -⟩ | ⟨hsome, hlength, t, ht, hmodels, hne, hdata, hdisabled, hdepth, hempty⟩
  · exact absurd hnone hfree
  obtain ⟨m₀, hm₀, heval₀⟩ := hB.getValue (e := v) hne
  have hvalue : B.getValue t.constraints v < 2 ^ T.width v := heval₀ ▸ T.eval_lt m₀ v
  obtain ⟨hm₀s, hm₀v⟩ : m₀ ∈ T.models s.constraints ∧ T.eval m₀ v ∉ values := by
    rw [hmodels] at hm₀
    exact hm₀
  obtain ⟨res, hres, hforked⟩ := fork_forked hB (henv t hdisabled hdepth) hne
    (T.width_eq v (T.const (B.getValue t.constraints v) (T.width v))) coin
  generalize hget : B.getValue t.constraints v = value at *
  have hholds : ∀ m, T.Holds m (T.eq v (T.const value (T.width v))) ↔ T.eval m v = value := fun m =>
    ExprTheory.holds_eq_const hvalue
  have hnew : value ∉ values := heval₀ ▸ hm₀v
  -- the models of the two sides
  have htrue : modelsOf res.trueState = {m | m ∈ T.models s.constraints ∧ T.eval m v = value} := by
    rw [hforked.trueModels, hmodels]
    ext m
    constructor
    · rintro ⟨⟨hm, -⟩, hv⟩
      exact ⟨hm, (hholds m).mp hv⟩
    · rintro ⟨hm, hv⟩
      exact ⟨⟨hm, hv ▸ hnew⟩, (hholds m).mpr hv⟩
  have hfalse : modelsOf res.falseState = {m | m ∈ T.models s.constraints ∧ T.eval m v ∉ values ++ [value]} := by
    rw [hforked.falseModels, hmodels]
    ext m
    simp only [Set.mem_ofPred_eq, List.mem_append, List.mem_singleton, not_or, hholds, and_assoc]
  obtain ⟨trueState, htrueState⟩ : ∃ trueState, res.trueState = some trueState := by
    cases hcase : res.trueState with
    | some trueState => exact ⟨trueState, rfl⟩
    | none =>
      rw [hcase] at htrue
      have hmem : m₀ ∈ modelsOf (none : Option (CallState T F)) := htrue ▸ ⟨hm₀s, heval₀⟩
      exact hmem.elim
  rw [htrueState] at htrue
  have hstates := @handled_states T F legalFunctions v arguments s values loop.states value trueState (by omega) h.states htrue
    ((hforked.trueData trueState htrueState).1.trans hdata)
  rw [← h.hasInvalid] at hstates
  have hnodup : (values ++ [value]).Nodup :=
    h.nodup.append (List.nodup_singleton value) (List.disjoint_singleton.mpr hnew)
  have hfeasible : ∀ w ∈ values ++ [value], ∃ m ∈ T.models s.constraints, T.eval m v = w := by
    intro w hw
    rcases List.mem_append.mp hw with hw | hw
    · exact h.feasible w hw
    · exact ⟨m₀, hm₀s, heval₀.trans (List.mem_singleton.mp hw).symm⟩
  have hfirst : ∀ w ∈ (values ++ [value]).head?, w = B.getValue s.constraints v := by
    intro w hw
    cases values with
    | nil =>
      rw [← hempty rfl, hget]
      exact (Option.some.inj hw).symm
    | cons first values => exact h.first w hw
  have hinvalid : (loop.hasInvalid || (legalFunctions value).isNone) =
      (values ++ [value]).any (legalFunctions · |>.isNone) := by
    rw [h.hasInvalid, List.any_append]
    simp
  have hcount : (handleValue legalFunctions arguments loop.hasInvalid value values.length
      (loop.states.set values.length trueState)).length = (values ++ [value]).length := by
    rw [handleValue_length, List.length_set, hlength, List.length_append, List.length_singleton]
  unfold step
  rw [hsome]
  simp only [Option.bind_eq_bind, Option.bind_some, ht, hget, hres, htrueState]
  cases hcase : res.falseState with
  | none =>
    refine ⟨_, value, rfl, hnodup, hfeasible, hfirst, hinvalid, hstates, .inl ⟨rfl, hcount, fun m hm => ?_⟩⟩
    rw [hcase] at hfalse
    by_contra hmem
    have hlost : m ∈ modelsOf (none : Option (CallState T F)) := hfalse ▸ ⟨hm, hmem⟩
    exact hlost.elim
  | some falseState =>
    rw [hcase] at hfalse
    refine ⟨_, value, rfl, hnodup, hfeasible, hfirst, hinvalid, ?_, .inr ⟨congrArg some hcount, ?_, falseState, ?_,
      hfalse, hforked.nonempty.2 falseState hcase, (hforked.falseData falseState hcase).1.trans hdata,
      (hforked.falseData falseState hcase).2.trans hdisabled, ?_, fun hnil => absurd hnil (by simp)⟩⟩
    · intro i w hi
      obtain ⟨t', ht', hrest⟩ := hstates i w hi
      exact ⟨t', (List.getElem?_append_left (List.getElem?_eq_some_iff.mp ht').1).trans ht', hrest⟩
    · rw [List.length_append, hcount, List.length_singleton]
    · rw [← hcount, List.getElem?_concat_length]
    · have hlimit := hforked.depth.2 falseState hcase
      rw [List.length_append, List.length_singleton]
      omega

/-- As long as a state is left there is a value left: the values are different numbers of the width of the function
pointer. -/
theorem Handled.length_lt (h : Handled legalFunctions v arguments s B values loop) (hfree : loop.free ≠ none) :
    values.length < 2 ^ T.width v := by
  rcases h.rest with ⟨hnone, -⟩ | ⟨-, -, t, -, hmodels, ⟨m, hm⟩, -⟩
  · exact absurd hnone hfree
  rw [hmodels] at hm
  have hnodup : (T.eval m v :: values).Nodup := List.nodup_cons.mpr ⟨hm.2, h.nodup⟩
  have hsub : T.eval m v :: values ⊆ List.range (2 ^ T.width v) := by
    intro w hw
    rcases List.mem_cons.mp hw with heq | hmem
    · exact heq ▸ List.mem_range.mpr (T.eval_lt m v)
    · obtain ⟨m', -, rfl⟩ := h.feasible w hmem
      exact List.mem_range.mpr (T.eval_lt m' v)
  have hle := (hnodup.subperm hsub).length_le
  rw [List.length_range] at hle
  exact hle

theorem run_of_free_none (fuel n : Nat) (env : Nat → ForkEnv) (coins : Nat → Bool) (h : loop.free = none) :
    run B legalFunctions v arguments env coins fuel n loop = some loop.states := by
  unfold run
  rw [h]

/-- The loop ends, by induction on the number of values that are left. -/
theorem run_handled (hB : B.Exact) {env : Nat → ForkEnv} (coins : Nat → Bool)
    (henv : ForksUnlimited env s (2 ^ T.width v)) : ∀ (left : Nat) {values : List Nat} {loop : CallLoop T F},
    2 ^ T.width v - values.length ≤ left → Handled legalFunctions v arguments s B values loop →
    ∃ values' loop', Handled legalFunctions v arguments s B values' loop' ∧ loop'.free = none ∧
      ∀ fuel ≥ left, run B legalFunctions v arguments env coins fuel values.length loop = some loop'.states := by
  intro left
  induction left with
  | zero =>
    intro values loop hleft h
    have hfree : loop.free = none := by
      by_contra hfree
      have hlt := h.length_lt hfree
      omega
    exact ⟨values, loop, h, hfree, fun fuel _ => run_of_free_none fuel _ env coins hfree⟩
  | succ left ih =>
    intro values loop hleft h
    cases hfree : loop.free with
    | none => exact ⟨values, loop, h, hfree, fun fuel _ => run_of_free_none fuel _ env coins hfree⟩
    | some i =>
      have hsome : loop.free ≠ none := by simp [hfree]
      have hlt := h.length_lt hsome
      obtain ⟨loop₁, value, hstep, h₁⟩ := step_handled hB (coins values.length)
        (fun t hdisabled hdepth => henv.unlimited hlt hdisabled hdepth) h hsome
      have hcount : (values ++ [value]).length = values.length + 1 := List.length_append
      obtain ⟨values', loop', h', hfree', hrun⟩ := ih (by omega) h₁
      refine ⟨values', loop', h', hfree', fun fuel hfuel => ?_⟩
      obtain ⟨k, rfl⟩ := Nat.exists_eq_add_of_le' (Nat.le_trans (Nat.le_add_left 1 left) hfuel)
      unfold run
      rw [hfree]
      dsimp only
      rw [hstep, Option.bind_eq_bind, Option.bind_some, ← hcount]
      exact hrun k (Nat.le_of_succ_le_succ hfuel)

theorem handled_nil (B : Backend T) (legalFunctions : Nat → Option F) (v : T.Expr) (arguments : List T.Expr)
    (hs : (T.models s.constraints).Nonempty) :
    Handled legalFunctions v arguments s B [] { states := [s], free := some 0, hasInvalid := false } where
  nodup := List.nodup_nil
  feasible := fun _ h => absurd h List.not_mem_nil
  first := fun _ h => by simp at h
  hasInvalid := rfl
  states := fun _ _ h => by simp at h
  rest := .inr ⟨rfl, rfl, s, rfl, by simp, hs, rfl, rfl, Nat.le_refl _, fun _ => rfl⟩

theorem Handled.getElem?_zero (h : Handled legalFunctions v arguments s B values loop) {value : Nat}
    (hvalue : values[0]? = some value) : value = B.getValue s.constraints v :=
  h.first value (List.head?_eq_getElem? ▸ hvalue)

theorem Handled.position (h : Handled legalFunctions v arguments s B values loop) (hfree : loop.free = none)
    {m : T.Model} (hm : m ∈ T.models s.constraints) : ∃ i t, values[i]? = some (T.eval m v) ∧
      loop.states[i]? = some t ∧ m ∈ T.models t.constraints ∧ t.data = dataOf legalFunctions arguments s values i ∧
      ∀ (j : Nat) (t' : CallState T F), loop.states[j]? = some t' → m ∈ T.models t'.constraints → j = i := by
  rcases h.rest with ⟨-, hlength, hall⟩ | ⟨hsome, -⟩
  · obtain ⟨i, hi⟩ := List.mem_iff_getElem?.mp (hall m hm)
    obtain ⟨t, ht, hmodels, hdata⟩ := h.states i _ hi
    refine ⟨i, t, hi, ht, hmodels ▸ ⟨hm, rfl⟩, hdata, fun j t' ht' hmem => ?_⟩
    have hj : j < values.length := hlength ▸ (List.getElem?_eq_some_iff.mp ht').1
    obtain ⟨w, hw⟩ : ∃ w, values[j]? = some w := ⟨_, List.getElem?_eq_getElem hj⟩
    obtain ⟨t'', ht'', hmodels'', -⟩ := h.states j w hw
    obtain rfl := Option.some.inj (ht'.symm.trans ht'')
    rw [hmodels''] at hmem
    have heq : values[j]? = values[i]? := by rw [hw, hi, ← hmem.2]
    exact (List.getElem?_inj hj h.nodup).mp heq
  · rw [hfree] at hsome
    cases hsome

theorem Handled.losesNobody_iff (h : Handled legalFunctions v arguments s B values loop) (hfree : loop.free = none)
    (hlive : s.data.terminated = none) :
    LosesNobody legalFunctions v arguments s loop.states ↔
      ∀ m ∈ T.models s.constraints, legalFunctions (T.eval m v) = none → T.eval m v = B.getValue s.constraints v := by
  constructor
  · intro hloses m hm hinvalid
    obtain ⟨i, t, hi, ht, hmem, hdata, -⟩ := h.position hfree hm
    obtain ⟨i', t', ht', -, honly, hend⟩ := hloses m hm
    obtain rfl := honly i t ht hmem
    obtain rfl := Option.some.inj (ht'.symm.trans ht)
    rw [hinvalid, hdata] at hend
    by_cases hzero : i = 0
    · subst hzero
      exact h.getElem?_zero hi
    · -- only the state of the call is terminated
      simp [dataOf, hzero, hlive] at hend
  · intro honly m hm
    obtain ⟨i, t, hi, ht, hmem, hdata, hunique⟩ := h.position hfree hm
    refine ⟨i, t, ht, hmem, hunique, ?_⟩
    cases hlegal : legalFunctions (T.eval m v) with
    | some f =>
      have hvalid : ¬(i = 0 ∧ values.any (legalFunctions · |>.isNone) = true) := by
        rintro ⟨rfl, hany⟩
        obtain ⟨w, hw, hnone⟩ := List.any_eq_true.mp hany
        obtain ⟨m', hm', rfl⟩ := h.feasible w hw
        have hfirst := honly m' hm' (Option.isNone_iff_eq_none.mp hnone)
        rw [hfirst, ← h.getElem?_zero hi, hlegal] at hnone
        cases hnone
      rw [hdata, dataOf, if_neg hvalid, hi, hlive]
      simp only [Option.bind_some, hlegal]
    | none =>
      have hvalues : 0 < values.length := Nat.lt_of_le_of_lt (Nat.zero_le i) (List.getElem?_eq_some_iff.mp hi).1
      have hhead : values[0]? = values[i]? := by
        rw [hi, honly m hm hlegal, List.getElem?_eq_getElem hvalues,
          h.getElem?_zero (List.getElem?_eq_getElem hvalues)]
      have hzero : i = 0 := ((List.getElem?_inj hvalues h.nodup).mp hhead).symm
      have hany : values.any (legalFunctions · |>.isNone) = true :=
        List.any_eq_true.mpr ⟨_, List.mem_of_getElem? hi, by rw [hlegal]; rfl⟩
      rw [hdata, dataOf, if_pos ⟨hzero, hany⟩]

/-- The loop ends, and no input is lost exactly if all addresses that the function pointer can have but the first one
that the solver gives are addresses of functions. -/
theorem executeSymbolicCall_iff (hB : B.Exact) (legalFunctions : Nat → Option F) (v : T.Expr)
    (arguments : List T.Expr) (s : CallState T F) (hs : (T.models s.constraints).Nonempty)
    (hlive : s.data.terminated = none) (env : Nat → ForkEnv) (coins : Nat → Bool)
    (henv : ForksUnlimited env s (2 ^ T.width v)) :
    ∃ bound results,
      (∀ fuel ≥ bound, executeSymbolicCall B legalFunctions v arguments env coins fuel s = some results) ∧
      (LosesNobody legalFunctions v arguments s results ↔
        ∀ m ∈ T.models s.constraints, legalFunctions (T.eval m v) = none →
          T.eval m v = B.getValue s.constraints v) := by
  obtain ⟨values, loop, h, hfree, hrun⟩ := run_handled hB coins henv _ (Nat.le_refl _)
    (handled_nil B legalFunctions v arguments hs)
  exact ⟨_, loop.states, hrun, h.losesNobody_iff hfree hlive⟩

end Proofs

def callsPointer : CallState (shallow 1) Nat := ⟨[], 0, false, ⟨[], none⟩⟩

theorem callsPointer_nonempty : ((shallow 1).models callsPointer.constraints).Nonempty :=
  ⟨(0 : Fin 2), fun _ h => nomatch h⟩

def functionAtOne (address : Nat) : Option Nat := if address = 1 then some 7 else none

def functionAtZero (address : Nat) : Option Nat := if address = 0 then some 7 else none

theorem callsPointer_unlimited (n : Nat) : ForksUnlimited (fun _ => {}) callsPointer n :=
  ⟨fun _ _ => rfl, fun _ _ => rfl, fun _ _ => .inl rfl⟩

theorem executeSymbolicCall_iff_bit : ∃ bound results,
    (∀ fuel ≥ bound, executeSymbolicCall (shallowBackend 1) functionAtOne bit [] (fun _ => {}) (fun _ => true) fuel
      callsPointer = some results) ∧
    (LosesNobody functionAtOne bit [] callsPointer results ↔
      ∀ m ∈ (shallow 1).models callsPointer.constraints, functionAtOne ((shallow 1).eval m bit) = none →
        (shallow 1).eval m bit = (shallowBackend 1).getValue callsPointer.constraints bit) :=
  executeSymbolicCall_iff (shallowBackend_exact 1) functionAtOne bit [] callsPointer callsPointer_nonempty rfl
    (fun _ => {}) (fun _ => true) (callsPointer_unlimited _)

/-- With the function at the first value, the state that has entered it is terminated for the other value, whose state
goes on as if the call had returned. -/
theorem executeSymbolicCall_loses : ∃ bound results,
    (∀ fuel ≥ bound, executeSymbolicCall (shallowBackend 1) functionAtZero bit [] (fun _ => {}) (fun _ => true) fuel
      callsPointer = some results) ∧
    results.map (fun t => (t.data.stack.map Prod.fst, t.data.terminated.isSome)) = [([7], true), ([], false)] ∧
    ¬LosesNobody functionAtZero bit [] callsPointer results := by
  obtain ⟨values, loop, h, hfree, hrun⟩ := run_handled (shallowBackend_exact 1) (fun _ => true)
    (callsPointer_unlimited _) _ (Nat.le_refl _)
    (handled_nil (shallowBackend 1) functionAtZero bit [] callsPointer_nonempty)
  refine ⟨_, loop.states, hrun, ?_, fun hloses => ?_⟩
  · have htwo : (executeSymbolicCall (shallowBackend 1) functionAtZero bit [] (fun _ => {}) (fun _ => true) 2
        callsPointer).map (List.map fun t => (t.data.stack.map Prod.fst, t.data.terminated.isSome)) =
        some [([7], true), ([], false)] := by decide
    have hstates : executeSymbolicCall (shallowBackend 1) functionAtZero bit [] (fun _ => {}) (fun _ => true) 2
        callsPointer = some loop.states := hrun 2 (by decide)
    rw [hstates] at htwo
    exact Option.some.inj htwo
  · have hone := (h.losesNobody_iff hfree rfl).mp hloses (1 : Fin 2) (fun _ hmem => nomatch hmem) (by decide)
    exact absurd hone (by decide)

end SymbolicCall

end CgsKlee
