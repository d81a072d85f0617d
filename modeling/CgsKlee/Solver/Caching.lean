import CgsKlee.Solver.SolverImpl
import Mathlib.Data.Fintype.Basic
import Mathlib.Data.Sigma.Basic

/-!
# The validity cache

`CachingSolver` keeps what it has learned about a query under the smaller one of the query and its negation.  An entry
is never replaced: `insert` keeps the first answer, so that a partial answer stays partial and the solver below is
asked again.  Every entry is true of its key, and every answer is the one that the solver below would give.

The order of expressions only decides which of the two polarities is the canonical one; nothing is assumed of it.
-/

namespace CgsKlee

open Symbolic

variable {T : ExprTheory} {A : Type}

inductive SolverCall (E A : Type)
  | validity (query : Query E)
  | truth (query : Query E)
  | value (query : Query E)
  | initialValues (query : Query E) (objects : List A)

inductive SolverAnswer (E : Type)
  | validity (result : Validity)
  | truth (isValid : Bool)
  | value (result : E)
  | initialValues (values : Option (List (List Nat)))

def SolverImpl.answer {E : Type} (S : SolverImpl E A) : SolverCall E A → Option (SolverAnswer E)
  | .validity query => (S.computeValidity query).map .validity
  | .truth query => (S.computeTruth query).map .truth
  | .value query => (S.computeValue query).map .value
  | .initialValues query objects => (S.computeInitialValues query objects).map .initialValues

def SolverCall.query {E : Type} : SolverCall E A → Query E
  | .validity query | .truth query | .value query | .initialValues query _ => query

/-- `cache_map`: pairs of a `CacheEntry` and a partial validity, in no particular order. -/
abbrev ValidityCache (E : Type) := List (Query E × PartialValidity)

namespace CachingSolver

variable [DecidableEq T.Expr] (compareLt : T.Expr → T.Expr → Bool)

def canonicalizeQuery (originalQuery : T.Expr) : T.Expr × Bool :=
  let negatedQuery := T.isZero originalQuery
  -- select the "smaller" query to the be canonical representation
  if compareLt originalQuery negatedQuery then (originalQuery, false) else (negatedQuery, true)

/-- `cache.find`; entries are compared by their constraints and their query. -/
def find (cache : ValidityCache T.Expr) (key : Query T.Expr) : Option PartialValidity :=
  (cache.find? fun entry => decide (entry.1.constraints = key.constraints ∧ entry.1.expr = key.expr)).map (·.2)

/-- `CachingSolver::cacheLookup`: an assertion may fail, and there may be no entry. -/
def cacheLookup (cache : ValidityCache T.Expr) (query : Query T.Expr) : Option (Option PartialValidity) :=
  let (canonicalQuery, negationUsed) := canonicalizeQuery compareLt query.expr
  match find cache ⟨query.constraints, canonicalQuery⟩ with
  | none => some none
  | some result => if negationUsed then result.negate.map some else some (some result)

/-- `CachingSolver::cacheInsert`; an entry that is already there stays. -/
def cacheInsert (cache : ValidityCache T.Expr) (query : Query T.Expr) (result : PartialValidity) :
    Option (ValidityCache T.Expr) := do
  let (canonicalQuery, negationUsed) := canonicalizeQuery compareLt query.expr
  let cachedResult ← if negationUsed then result.negate else some result
  let key : Query T.Expr := ⟨query.constraints, canonicalQuery⟩
  some (if (find cache key).isSome then cache else (key, cachedResult) :: cache)

/-- An answer is put into the cache and returned.  The outcome of a call is its answer, or none if the solver below
fails, and the cache afterwards. -/
def remember {R : Type} (cache : ValidityCache T.Expr) (query : Query T.Expr) (cached : PartialValidity)
    (result : R) : Option (Option R × ValidityCache T.Expr) :=
  (cacheInsert compareLt cache query cached).map fun cache => (some result, cache)

def computeValidity (S : SolverImpl T.Expr A) (cache : ValidityCache T.Expr) (query : Query T.Expr) :
    Option (Option Validity × ValidityCache T.Expr) := do
  match ← cacheLookup compareLt cache query with
  | some .mustBeTrue => some (some .true, cache)
  | some .mustBeFalse => some (some .false, cache)
  | some .trueOrFalse => some (some .unknown, cache)
  | some .mayBeTrue =>
    match S.computeTruth query with
    | none => some (none, cache)
    | some true => remember compareLt cache query .mustBeTrue .true
    | some false => remember compareLt cache query .trueOrFalse .unknown
  | some .mayBeFalse =>
    match S.computeTruth query.negateExpr with
    | none => some (none, cache)
    | some true => remember compareLt cache query .mustBeFalse .false
    | some false => remember compareLt cache query .trueOrFalse .unknown
  -- assert: unreachable
  | some .none => none
  | none =>
    match S.computeValidity query with
    | none => some (none, cache)
    | some .true => remember compareLt cache query .mustBeTrue .true
    | some .false => remember compareLt cache query .mustBeFalse .false
    | some .unknown => remember compareLt cache query .trueOrFalse .unknown

def computeTruth (S : SolverImpl T.Expr A) (cache : ValidityCache T.Expr) (query : Query T.Expr) :
    Option (Option Bool × ValidityCache T.Expr) := do
  let cachedResult ← cacheLookup compareLt cache query
  -- a cached result of MayBeTrue forces us to check whether a False assignment exists
  match cachedResult with
  | some .mustBeTrue => some (some true, cache)
  | some .mustBeFalse | some .mayBeFalse | some .trueOrFalse | some .none => some (some false, cache)
  | some .mayBeTrue =>
    match S.computeTruth query with
    | none => some (none, cache)
    | some true => remember compareLt cache query .mustBeTrue true
    | some false => remember compareLt cache query .trueOrFalse false
  | none =>
    match S.computeTruth query with
    | none => some (none, cache)
    | some true => remember compareLt cache query .mustBeTrue true
    | some false => remember compareLt cache query .mayBeFalse false

/-- A call of the caching solver over the solver `S`; values and initial values are forwarded. -/
def call (S : SolverImpl T.Expr A) (cache : ValidityCache T.Expr) (c : SolverCall T.Expr A) :
    Option (Option (SolverAnswer T.Expr) × ValidityCache T.Expr) :=
  match c with
  | .validity query => (computeValidity compareLt S cache query).map fun r => (r.1.map .validity, r.2)
  | .truth query => (computeTruth compareLt S cache query).map fun r => (r.1.map .truth, r.2)
  | .value _ | .initialValues _ _ => some (S.answer c, cache)

/-- The cache states that sequences of calls lead to; the solver below may answer each call in another way. -/
inductive Reachable : ValidityCache T.Expr → Prop
  | nil : Reachable []
  | call {cache cache' : ValidityCache T.Expr} {r : Option (SolverAnswer T.Expr)} (S : SolverImpl T.Expr A)
      (c : SolverCall T.Expr A) (h : Reachable cache) (hS : S.Correct) (hc : c.query.Proper)
      (hs : call compareLt S cache c = some (r, cache')) : Reachable cache'

/-- Every entry is known of a proper query, and true of it. -/
def EntriesTrue (cache : ValidityCache T.Expr) : Prop :=
  ∀ entry ∈ cache, entry.1.Proper ∧ entry.2 ≠ .none ∧ entry.2.TrueOf entry.1

variable {compareLt} {cache cache' : ValidityCache T.Expr} {query : Query T.Expr} {S : SolverImpl T.Expr A}

theorem find_spec (h : EntriesTrue cache) {pv : PartialValidity} (hf : find cache query = some pv) :
    pv ≠ .none ∧ pv.TrueOf query := by
  obtain ⟨entry, hentry, rfl⟩ := Option.map_eq_some_iff.1 hf
  have hkey := List.find?_some hentry
  rw [decide_eq_true_eq] at hkey
  obtain ⟨-, hne, htrue⟩ := h entry (List.mem_of_find?_eq_some hentry)
  have heq : entry.1 = query := by
    cases query
    cases hx : entry.1
    rw [hx] at hkey
    obtain ⟨rfl, rfl⟩ := hkey
    rfl
  exact ⟨hne, heq ▸ htrue⟩

theorem exists_negate {pv : PartialValidity} (h : pv ≠ .none) : ∃ pv', pv.negate = some pv' ∧ pv' ≠ .none := by
  cases pv with
  | none => exact absurd rfl h
  | _ => exact ⟨_, rfl, by simp⟩

omit [DecidableEq T.Expr] in
theorem trueOf_of_negateExpr (hq : query.Proper) {pv pv' : PartialValidity} (h : pv.TrueOf query.negateExpr)
    (hn : pv.negate = some pv') : pv'.TrueOf query := by
  have hnn := h.negate hq.negateExpr hn
  have heq := hq.valid_negateExpr_negateExpr
  have heq' := hq.negateExpr.valid_negateExpr_negateExpr
  cases pv' <;> simp only [PartialValidity.TrueOf] at hnn ⊢ <;> tauto

theorem cacheLookup_spec (compareLt : T.Expr → T.Expr → Bool) (h : EntriesTrue cache) (hq : query.Proper) :
    ∃ found, cacheLookup compareLt cache query = some found ∧ ∀ pv ∈ found, pv ≠ .none ∧ pv.TrueOf query := by
  unfold cacheLookup canonicalizeQuery
  by_cases hlt : compareLt query.expr (T.isZero query.expr) = true
  · simp only [if_pos hlt]
    cases hf : find cache ⟨query.constraints, query.expr⟩ with
    | none => exact ⟨none, rfl, by simp⟩
    | some pv =>
      refine ⟨some pv, rfl, fun pv' hpv => ?_⟩
      obtain rfl := Option.some.inj hpv
      exact find_spec h hf
  · simp only [if_neg hlt]
    cases hf : find cache ⟨query.constraints, T.isZero query.expr⟩ with
    | none => exact ⟨none, rfl, by simp⟩
    | some pv =>
      obtain ⟨hne, htrue⟩ := find_spec h hf
      obtain ⟨pv', hneg, hne'⟩ := exists_negate hne
      refine ⟨some pv', by simp [hneg], fun pv'' hpv => ?_⟩
      obtain rfl := Option.some.inj hpv
      exact ⟨hne', trueOf_of_negateExpr hq htrue hneg⟩

theorem cacheInsert_spec (compareLt : T.Expr → T.Expr → Bool) (h : EntriesTrue cache) (hq : query.Proper) {pv : PartialValidity} (hne : pv ≠ .none)
    (htrue : pv.TrueOf query) :
    ∃ cache', cacheInsert compareLt cache query pv = some cache' ∧ EntriesTrue cache' := by
  have hadd : ∀ (key : Query T.Expr) pv', key.Proper → pv' ≠ .none → pv'.TrueOf key →
      EntriesTrue (if (find cache key).isSome then cache else (key, pv') :: cache) := by
    intro key pv' hk hne' ht
    split
    · exact h
    · intro entry hentry
      rcases List.mem_cons.1 hentry with rfl | hentry
      · exact ⟨hk, hne', ht⟩
      · exact h entry hentry
  unfold cacheInsert canonicalizeQuery
  by_cases hlt : compareLt query.expr (T.isZero query.expr) = true
  · simp only [if_pos hlt]
    exact ⟨_, rfl, hadd ⟨query.constraints, query.expr⟩ pv hq hne htrue⟩
  · simp only [if_neg hlt]
    obtain ⟨pv', hneg, hne'⟩ := exists_negate hne
    simp only [hneg, if_true, Option.bind_eq_bind, Option.bind_some]
    exact ⟨_, rfl, hadd ⟨query.constraints, T.isZero query.expr⟩ pv' hq.negateExpr hne' (htrue.negate hq hneg)⟩

/-- A call has been answered well: nothing fails but the solver below, which leaves the cache as it was, and an answer
is right. -/
def Answered {R : Type} (cache : ValidityCache T.Expr) (outcome : Option (Option R × ValidityCache T.Expr))
    (Right : R → Prop) (complete : Prop) : Prop :=
  ∃ r cache', outcome = some (r, cache') ∧ EntriesTrue cache' ∧ (∀ a ∈ r, Right a) ∧
    (r = none → cache' = cache ∧ ¬complete)

theorem remember_answered {R : Type} (h : EntriesTrue cache) (hq : query.Proper) (pv : PartialValidity)
    (hne : pv ≠ .none) (htrue : pv.TrueOf query) (result : R) {Right : R → Prop} (hr : Right result)
    {complete : Prop} : Answered cache (remember compareLt cache query pv result) Right complete := by
  obtain ⟨cache', heq, h'⟩ := cacheInsert_spec compareLt h hq hne htrue
  refine ⟨some result, cache', by simp [remember, heq], h', ?_, by simp⟩
  intro a ha
  exact Option.some.inj ha ▸ hr

omit [DecidableEq T.Expr] in
theorem hit_answered {R : Type} (h : EntriesTrue cache) (result : R) {Right : R → Prop} (hr : Right result)
    {complete : Prop} : Answered cache (some (some result, cache)) Right complete := by
  refine ⟨some result, cache, rfl, h, ?_, by simp⟩
  intro a ha
  exact Option.some.inj ha ▸ hr

/-- The solver answers every question about validity. -/
def Complete (S : SolverImpl T.Expr A) : Prop :=
  ∀ q, (S.computeValidity q).isSome ∧ (S.computeTruth q).isSome

omit [DecidableEq T.Expr] in
theorem failure_answered {R : Type} (h : EntriesTrue cache) {Right : R → Prop} {complete : Prop}
    (hc : ¬complete) : Answered cache (some (none, cache)) Right complete :=
  ⟨none, cache, rfl, h, by simp, fun _ => ⟨rfl, hc⟩⟩

theorem computeValidity_answered (compareLt : T.Expr → T.Expr → Bool) (h : EntriesTrue cache) (hq : query.Proper) (hS : S.Correct) :
    Answered cache (computeValidity compareLt S cache query) (IsValidity query) (Complete S) := by
  obtain ⟨found, hfound, hspec⟩ := cacheLookup_spec compareLt h hq
  unfold computeValidity
  simp only [hfound, Option.bind_eq_bind, Option.bind_some]
  cases found with
  | none =>
    cases hv : S.computeValidity query with
    | none => exact failure_answered h fun hc => by simpa [hv] using (hc query).1
    | some v =>
      have hright := hS.computeValidity query hq v hv
      cases v with
      | true => exact remember_answered h hq .mustBeTrue (by simp) hright _ hright
      | false => exact remember_answered h hq .mustBeFalse (by simp) hright _ hright
      | unknown => exact remember_answered h hq .trueOrFalse (by simp) hright _ hright
  | some pv =>
    obtain ⟨hne, htrue⟩ := hspec pv rfl
    cases pv with
    | mustBeTrue => exact hit_answered h Validity.true htrue
    | mustBeFalse => exact hit_answered h Validity.false htrue
    | trueOrFalse => exact hit_answered h Validity.unknown htrue
    | none => exact absurd rfl hne
    | mayBeTrue =>
      cases hb : S.computeTruth query with
      | none => exact failure_answered h fun hc => by simpa [hb] using (hc query).2
      | some b =>
        have hright := hS.computeTruth query hq b hb
        cases b with
        | true =>
          have hvalid : query.Valid := hright.1 rfl
          exact remember_answered h hq .mustBeTrue (by simp) hvalid Validity.true hvalid
        | false =>
          have hboth : ¬query.Valid ∧ ¬query.negateExpr.Valid := ⟨fun hv => by simpa using hright.2 hv, htrue⟩
          exact remember_answered h hq .trueOrFalse (by simp) hboth Validity.unknown hboth
    | mayBeFalse =>
      cases hb : S.computeTruth query.negateExpr with
      | none => exact failure_answered h fun hc => by simpa [hb] using (hc query.negateExpr).2
      | some b =>
        have hright := hS.computeTruth query.negateExpr hq.negateExpr b hb
        cases b with
        | true =>
          have hvalid : query.negateExpr.Valid := hright.1 rfl
          exact remember_answered h hq .mustBeFalse (by simp) hvalid Validity.false hvalid
        | false =>
          have hboth : ¬query.Valid ∧ ¬query.negateExpr.Valid := ⟨htrue, fun hv => by simpa using hright.2 hv⟩
          exact remember_answered h hq .trueOrFalse (by simp) hboth Validity.unknown hboth

theorem computeTruth_answered (compareLt : T.Expr → T.Expr → Bool) (h : EntriesTrue cache) (hq : query.Proper) (hS : S.Correct) :
    Answered cache (computeTruth compareLt S cache query) (IsTruth query) (Complete S) := by
  obtain ⟨found, hfound, hspec⟩ := cacheLookup_spec compareLt h hq
  have hfalse : ¬query.Valid → IsTruth query false := fun hn => ⟨fun hb => (by cases hb), fun hv => absurd hv hn⟩
  unfold computeTruth
  simp only [hfound, Option.bind_eq_bind, Option.bind_some]
  cases found with
  | none =>
    cases hb : S.computeTruth query with
    | none => exact failure_answered h fun hc => by simpa [hb] using (hc query).2
    | some b =>
      have hright := hS.computeTruth query hq b hb
      cases b with
      | true => exact remember_answered h hq .mustBeTrue (by simp) (hright.1 rfl) true hright
      | false =>
        have hn : ¬query.Valid := fun hv => by simpa using hright.2 hv
        exact remember_answered h hq .mayBeFalse (by simp) hn false hright
  | some pv =>
    obtain ⟨hne, htrue⟩ := hspec pv rfl
    cases pv with
    | none => exact absurd rfl hne
    | mustBeTrue =>
      have hvalid : query.Valid := htrue
      exact hit_answered h true ⟨fun _ => hvalid, fun _ => rfl⟩
    | mustBeFalse => exact hit_answered h false (hfalse fun hv => hq.not_valid_negateExpr hv htrue)
    | mayBeFalse => exact hit_answered h false (hfalse htrue)
    | trueOrFalse => exact hit_answered h false (hfalse htrue.1)
    | mayBeTrue =>
      cases hb : S.computeTruth query with
      | none => exact failure_answered h fun hc => by simpa [hb] using (hc query).2
      | some b =>
        have hright := hS.computeTruth query hq b hb
        cases b with
        | true => exact remember_answered h hq .mustBeTrue (by simp) (hright.1 rfl) true hright
        | false =>
          have hboth : ¬query.Valid ∧ ¬query.negateExpr.Valid := ⟨fun hv => by simpa using hright.2 hv, htrue⟩
          exact remember_answered h hq .trueOrFalse (by simp) hboth false hright

/-- The answer is right about validity; values are for the solver below to get right. -/
def RightAnswer : SolverCall T.Expr A → SolverAnswer T.Expr → Prop
  | .validity query, .validity v => IsValidity query v
  | .truth query, .truth b => IsTruth query b
  | .value _, .value _ => True
  | .initialValues _ _, .initialValues _ => True
  | _, _ => False

omit [DecidableEq T.Expr] in
theorem rightAnswer_of_answer (hS : S.Correct) {c : SolverCall T.Expr A} (hc : c.query.Proper)
    {a : SolverAnswer T.Expr} (ha : S.answer c = some a) : RightAnswer c a := by
  cases c with
  | validity query =>
    obtain ⟨v, hv, rfl⟩ := Option.map_eq_some_iff.1 ha
    exact hS.computeValidity query hc v hv
  | truth query =>
    obtain ⟨b, hb, rfl⟩ := Option.map_eq_some_iff.1 ha
    exact hS.computeTruth query hc b hb
  | value query =>
    obtain ⟨e, -, rfl⟩ := Option.map_eq_some_iff.1 ha
    trivial
  | initialValues query objects =>
    obtain ⟨values, -, rfl⟩ := Option.map_eq_some_iff.1 ha
    trivial

/-- A call is answered well in a cache whose entries are true. -/
structure Transparent (S : SolverImpl T.Expr A) (cache : ValidityCache T.Expr) (c : SolverCall T.Expr A)
    (r : Option (SolverAnswer T.Expr)) (cache' : ValidityCache T.Expr) : Prop where
  entries : EntriesTrue cache'
  right : ∀ a ∈ r, RightAnswer c a
  /-- The answer is the one that the solver below gives to the same call, if it gives one. -/
  same : ∀ a ∈ r, ∀ b ∈ S.answer c, a = b
  /-- If the solver below always answers, the two are equal. -/
  equal : Complete S → r = S.answer c
  /-- A failure leaves the cache unchanged. -/
  failed : r = none → cache' = cache

theorem Answered.transparent {R : Type} {Right : R → Prop} {c : SolverCall T.Expr A} {below : Option R}
    {outcome : Option (Option R × ValidityCache T.Expr)} (ha : Answered cache outcome Right (Complete S))
    (wrap : R → SolverAnswer T.Expr)
    (hcall : call compareLt S cache c = outcome.map fun r => (r.1.map wrap, r.2))
    (hbelow : S.answer c = below.map wrap) (hright : ∀ v, Right v → RightAnswer c (wrap v))
    (hsame : ∀ v w, Right v → below = some w → v = w) (hcomplete : Complete S → below.isSome) :
    ∃ r cache', call compareLt S cache c = some (r, cache') ∧ Transparent S cache c r cache' := by
  obtain ⟨r, cache', heq, h', hr, hnone⟩ := ha
  refine ⟨r.map wrap, cache', by rw [hcall, heq]; rfl, ⟨h', ?_, ?_, ?_, ?_⟩⟩
  · intro a ha
    obtain ⟨v, hv, rfl⟩ := Option.map_eq_some_iff.1 ha
    exact hright v (hr v hv)
  · intro a ha b hb
    rw [hbelow] at hb
    obtain ⟨v, hv, rfl⟩ := Option.map_eq_some_iff.1 ha
    obtain ⟨w, hw, rfl⟩ := Option.map_eq_some_iff.1 hb
    rw [hsame v w (hr v hv) hw]
  · intro hc
    obtain ⟨w, hw⟩ := Option.isSome_iff_exists.1 (hcomplete hc)
    cases r with
    | none => exact absurd hc (hnone rfl).2
    | some v => rw [hbelow, hw, hsame v w (hr v rfl) hw]
  · intro hr'
    exact (hnone (Option.map_eq_none_iff.1 hr')).1

theorem call_transparent (compareLt : T.Expr → T.Expr → Bool) (h : EntriesTrue cache) (hS : S.Correct) {c : SolverCall T.Expr A} (hc : c.query.Proper) :
    ∃ r cache', call compareLt S cache c = some (r, cache') ∧ Transparent S cache c r cache' := by
  have hforward : call compareLt S cache c = some (S.answer c, cache) →
      ∃ r cache', call compareLt S cache c = some (r, cache') ∧ Transparent S cache c r cache' := by
    intro heq
    refine ⟨_, _, heq, ⟨h, fun a ha => rightAnswer_of_answer hS hc ha, ?_, fun _ => rfl, fun _ => rfl⟩⟩
    intro a ha b hb
    exact Option.some.inj (ha.symm.trans hb)
  cases c with
  | validity query =>
    refine (computeValidity_answered compareLt h hc hS).transparent .validity rfl rfl
      (fun _ hv => hv) (fun v w hv hw => ?_) fun hcomplete => (hcomplete query).1
    exact Query.Proper.isValidity_unique hc hv (hS.computeValidity query hc w hw)
  | truth query =>
    refine (computeTruth_answered compareLt h hc hS).transparent .truth rfl rfl
      (fun _ hb => hb) (fun b w hb hw => ?_) fun hcomplete => (hcomplete query).2
    exact Query.isTruth_unique hb (hS.computeTruth query hc w hw)
  | value query => exact hforward rfl
  | initialValues query objects => exact hforward rfl

theorem Reachable.entriesTrue (h : Reachable (A := A) compareLt cache) : EntriesTrue cache := by
  induction h with
  | nil =>
    intro entry hentry
    cases hentry
  | call S c _ hS hc hs ih =>
    obtain ⟨r, cache', heq, ht⟩ := call_transparent compareLt ih hS hc
    rw [hs] at heq
    obtain ⟨-, rfl⟩ := Prod.mk.inj (Option.some.inj heq)
    exact ht.entries

/-- After any sequence of calls the entries of the cache are true of their keys, and each further call has the answer
of the solver below; if that solver fails, the cache is as it was. -/
theorem cachingSolver_transparent (h : Reachable (A := A) compareLt cache) :
    EntriesTrue cache ∧ ∀ (S : SolverImpl T.Expr A) (c : SolverCall T.Expr A), S.Correct → c.query.Proper →
      ∃ r cache', call compareLt S cache c = some (r, cache') ∧ Transparent S cache c r cache' :=
  ⟨h.entriesTrue, fun _ _ hS hc => call_transparent compareLt h.entriesTrue hS hc⟩

instance : DecidableEq (shallow 1).Expr := inferInstanceAs (DecidableEq (Σ w : Nat, Fin 2 → BitVec w))

def twoModels : SolverImpl (shallow 1).Expr Unit where
  computeValidity q := some ((shallowBackend 1).evaluate q.constraints q.expr)
  computeTruth q := some ((shallowBackend 1).mustBeTrue q.constraints q.expr)
  computeValue q := some ((shallow 1).const ((shallowBackend 1).getValue q.constraints q.expr) q.expr.1)
  computeInitialValues _ _ := none

theorem twoModels_correct : twoModels.Correct where
  computeValidity := by
    intro q hq v hv
    obtain rfl := Option.some.inj hv
    have htrue := (shallowBackend_exact 1).evaluate_true hq.satisfiable hq.width
    have hfalse := (shallowBackend_exact 1).evaluate_false hq.satisfiable hq.width
    have hneg : q.negateExpr.Valid ↔ ∀ m ∈ (shallow 1).models q.constraints, ¬(shallow 1).Holds m q.expr :=
      forall₂_congr fun m _ => hq.holds_negateExpr m
    cases hv : (shallowBackend 1).evaluate q.constraints q.expr with
    | true => exact htrue.1 hv
    | false => exact hneg.2 (hfalse.1 hv)
    | unknown =>
      refine ⟨fun h => ?_, fun h => ?_⟩
      · rw [htrue.2 h] at hv
        cases hv
      · rw [hfalse.2 (hneg.1 h)] at hv
        cases hv
  computeTruth := by
    intro q hq b hb
    obtain rfl := Option.some.inj hb
    exact (shallowBackend_exact 1).mustBeTrue hq.satisfiable hq.width

def secondModel : Query (shallow 1).Expr := ⟨[], ⟨1, fun m => BitVec.ofNat 1 m⟩⟩

theorem secondModel_proper : secondModel.Proper := ⟨rfl, (0 : Fin 2), fun _ h => nomatch h⟩

/-- After `computeTruth` of a query, which leaves `MayBeFalse`, the validity of its negation is asked for. -/
theorem cachingSolver_transparent_negated :
    ∃ cache r cache', cache.map (·.2) = [.mayBeTrue] ∧
      call (fun _ _ => false) twoModels cache (.validity secondModel.negateExpr) = some (r, cache') ∧
      r = some (.validity .unknown) ∧ EntriesTrue cache ∧ EntriesTrue cache' := by
  have hreach : Reachable (A := Unit) (fun _ _ => false)
      [((secondModel.negateExpr, .mayBeTrue) : Query (shallow 1).Expr × PartialValidity)] :=
    .call twoModels (.truth secondModel) .nil twoModels_correct secondModel_proper (r := some (.truth false)) rfl
  obtain ⟨htrue, hcalls⟩ := cachingSolver_transparent hreach
  obtain ⟨r, cache', heq, ht⟩ := hcalls twoModels (.validity secondModel.negateExpr) twoModels_correct
    secondModel_proper.negateExpr
  refine ⟨_, r, cache', rfl, heq, ?_, htrue, ht.entries⟩
  exact ht.equal fun _ => ⟨rfl, rfl⟩

end CachingSolver

end CgsKlee
