import CgsKlee.Solver.MapOfSets
import CgsKlee.Solver.Models
import Mathlib.SetTheory.Cardinal.Order

/-!
# The counterexample cache

`CexCachingSolver` stores, under the set of the constraints of a query and its negated expression, an assignment that
satisfies them all, or null if there is none.  An answer is reused for the same set, a null answer also for larger sets,
an assignment also for smaller sets and wherever it turns out to satisfy the set.  Every entry says the truth about its
key, whatever the sequence of calls, and so every answer is right.

A call has no outcome if an assertion fails or the process is stopped; it has an outcome but no answer if the solver
below fails.  The order of expressions is any linear order.
-/

namespace CgsKlee

open Symbolic ConstantExpr

def insertElement {K : Type} [LinearOrder K] (k : K) : List K → List K
  | [] => [k]
  | x :: xs => if k < x then k :: x :: xs else if k = x then x :: xs else x :: insertElement k xs

theorem mem_insertElement {K : Type} [LinearOrder K] {k x : K} {xs : List K} :
    x ∈ insertElement k xs ↔ x = k ∨ x ∈ xs := by
  induction xs with
  | nil => simp [insertElement]
  | cons y ys ih =>
    unfold insertElement
    split
    · simp
    · split
      · rename_i h
        subst h
        simp
      · rw [List.mem_cons, ih, List.mem_cons]
        tauto

/-- The command line options; `--cex-cache-exp` is off. -/
structure CexOptions where
  constArrayOpt : Bool
  cexCacheTryAll : Bool
  cexCacheSuperSet : Bool
  debugCexCacheCheckBinding : Bool

/-- The state of a `CexCachingSolver`; null is `none`. -/
structure CexCache where
  cache : SetNode Expr (Option Assignment)
  assignmentsTable : List Assignment

namespace CexCachingSolver

def initial : CexCache := ⟨.empty, []⟩

section Operations

variable [LinearOrder Expr] (opts : CexOptions)

/-- `KeyType(begin, end)`. -/
def toKey (constraints : List Expr) : List Expr := constraints.foldl (fun key c => insertElement c key) []

def nullAssignment (a : Option Assignment) : Option Bool := some a.isNone

def nonNullAssignment (a : Option Assignment) : Option Bool := some a.isSome

def nullOrSatisfyingAssignment (key : List Expr) : Option Assignment → Option Bool
  | none => some true
  | some a => a.satisfies opts.constArrayOpt key

def tryAssignments (key : List Expr) : List Assignment → Option (Option (Option Assignment))
  | [] => some none
  | a :: as => do
    if ← a.satisfies opts.constArrayOpt key then some (some (some a)) else tryAssignments key as

/-- A satisfying assignment for a superset, if these are searched. -/
def searchSuperset (s : CexCache) (key : List Expr) : Option (Option (Option Assignment)) :=
  if opts.cexCacheSuperSet then s.cache.findSuperset nonNullAssignment key else some none

def searchForAssignment (s : CexCache) (key : List Expr) : Option (Option (Option Assignment)) :=
  match s.cache.lookup key with
  | some result => some (some result)
  | none => do
    match ← searchSuperset opts s key with
    | some result => some (some result)
    | none =>
      if opts.cexCacheTryAll then do
        match ← s.cache.findSubset nullAssignment key with
        | some result => some (some result)
        | none => tryAssignments opts key s.assignmentsTable
      else s.cache.findSubset (nullOrSatisfyingAssignment opts key) key

/-- `CexCachingSolver::lookupAssignment`: the key, and the result if one is found. -/
def lookupAssignment (s : CexCache) (query : Query Expr) : Option (List Expr × Option (Option Assignment)) := do
  let key := toKey query.constraints
  match ← query.expr.createIsZero opts.constArrayOpt with
  | .constant c =>
    if isFalse c then some (key, some none)
    else do
      let found ← searchForAssignment opts s key
      some (key, found)
  | neg => do
    let key := insertElement neg key
    let found ← searchForAssignment opts s key
    some (key, found)

/-- The pairs of two bindings are compared by the addresses of the arrays, then by the bytes. -/
def bindingLt (x y : ExprArray × List Nat) : Bool :=
  decide (x.1.id < y.1.id) || (decide (x.1.id = y.1.id) && decide (x.2 < y.2))

/-- `assignmentsTable.insert`, ordered by `AssignmentLessThan`; an equal assignment that is there is kept. -/
def insertAssignment (a : Assignment) : List Assignment → List Assignment
  | [] => [a]
  | b :: table =>
    if a = b then b :: table
    else if List.lex a.bindings b.bindings bindingLt then a :: b :: table
    else b :: insertAssignment a table

def checkBinding (binding : Assignment) (key : List Expr) : Option Bool :=
  if opts.debugCexCacheCheckBinding then binding.satisfies opts.constArrayOpt key else some true

/-- `CexCachingSolver::getAssignment`: the result, if the solver below does not fail, and the state afterwards. -/
def getAssignment (S : SolverImpl Expr ExprArray) (s : CexCache) (query : Query Expr) :
    Option (Option (Option Assignment) × CexCache) := do
  let (key, found) ← lookupAssignment opts s query
  match found with
  | some result => some (some result, s)
  | none =>
    let objects := findSymbolicObjects key
    match S.computeInitialValues query objects with
    | none => some (none, s)
    | some none => some (some none, { s with cache := s.cache.insert key none })
    | some (some values) => do
      let binding := Assignment.ofValues objects values
      -- memoize the result
      let assignmentsTable := insertAssignment binding s.assignmentsTable
      -- klee_error: generated assignment doesn't match query
      if ← checkBinding opts binding key then some (some (some binding), ⟨s.cache.insert key (some binding), assignmentsTable⟩) else none

def withFalse (query : Query Expr) : Query Expr := { query with expr := .ofBool false }

/-- The end of `computeValidity`: `validity` if nothing makes the expression false, unknown otherwise. -/
def validityIfNull (validity : Validity) (S : SolverImpl Expr ExprArray) (s : CexCache) (query : Query Expr) :
    Option (Option Validity × CexCache) := do
  match ← getAssignment opts S s query with
  | (none, s) => some (none, s)
  | (some a, s) => some (some (if a.isNone then validity else .unknown), s)

def computeValidity (S : SolverImpl Expr ExprArray) (s : CexCache) (query : Query Expr) :
    Option (Option Validity × CexCache) := do
  match ← getAssignment opts S s (withFalse query) with
  | (none, s) => some (none, s)
  -- assert: computeValidity() must have assignment
  | (some none, _) => none
  | (some (some a), s) =>
    match ← a.evaluate opts.constArrayOpt query.expr with
    | .constant q =>
      if isTrue q then validityIfNull opts .true S s query
      else do
        let neg ← query.expr.createIsZero opts.constArrayOpt
        validityIfNull opts .false S s { query with expr := neg }
    -- assert: assignment evaluation did not result in constant
    | _ => none

def computeTruth (S : SolverImpl Expr ExprArray) (s : CexCache) (query : Query Expr) :
    Option (Option Bool × CexCache) := do
  match ← getAssignment opts S s query with
  | (none, s) => some (none, s)
  | (some a, s) => some (some a.isNone, s)

def computeValue (S : SolverImpl Expr ExprArray) (s : CexCache) (query : Query Expr) :
    Option (Option Expr × CexCache) := do
  match ← getAssignment opts S s (withFalse query) with
  | (none, s) => some (none, s)
  | (some none, _) => none
  | (some (some a), s) =>
    let result ← a.evaluate opts.constArrayOpt query.expr
    if result.isConstant then some (some result, s) else none

def bytesOf (a : Assignment) (os : ExprArray) : List Nat := (a.find os).getD (List.replicate os.size 0)

def computeInitialValues (S : SolverImpl Expr ExprArray) (s : CexCache) (query : Query Expr)
    (objects : List ExprArray) : Option (Option (Option (List (List Nat))) × CexCache) := do
  match ← getAssignment opts S s query with
  | (none, s) => some (none, s)
  | (some a, s) => some (some (a.map fun a => objects.map (bytesOf a)), s)

def call (S : SolverImpl Expr ExprArray) (s : CexCache) :
    SolverCall Expr ExprArray → Option (Option (SolverAnswer Expr) × CexCache)
  | .validity query => (computeValidity opts S s query).map fun r => (r.1.map .validity, r.2)
  | .truth query => (computeTruth opts S s query).map fun r => (r.1.map .truth, r.2)
  | .value query => (computeValue opts S s query).map fun r => (r.1.map .value, r.2)
  | .initialValues query objects =>
    (computeInitialValues opts S s query objects).map fun r => (r.1.map .initialValues, r.2)

/-- The states that sequences of calls lead to; the solver below may answer each call in another way. -/
inductive Reachable : CexCache → Prop
  | initial : Reachable initial
  | call {s s' : CexCache} {r : Option (SolverAnswer Expr)} (S : SolverImpl Expr ExprArray)
      (c : SolverCall Expr ExprArray) (h : Reachable s) (hS : S.RightInitialValues opts.constArrayOpt)
      (hc : c.Admissible opts.constArrayOpt) (hs : call opts S s c = some (r, s')) : Reachable s'

end Operations

def Satisfies (m : Valuation) (key : List Expr) : Prop := ∀ e ∈ key, e.eval m = .ofBool true

/-- A null entry is stored for an unsatisfiable key, an assignment for a key that it satisfies. -/
def TrueOf (key : List Expr) : Option Assignment → Prop
  | none => ∀ m : Valuation, m.Bounded → ¬Satisfies m key
  | some a => a.Sized ∧ Satisfies a.valuation key

structure Sound (s : CexCache) : Prop where
  entry : ∀ {key r}, s.cache.Entry key r → TrueOf key r
  sized : ∀ a ∈ s.assignmentsTable, a.Sized

/-- The result for a query: nothing makes the expression false, or the assignment does. -/
def ResultFor (query : Query Expr) : Option Assignment → Prop
  | none => ¬query.Refutable
  | some a => a.Sized ∧ query.IsModel a.valuation ∧ query.expr.eval a.valuation = .ofBool false

structure KeyFor (opt : Bool) (query : Query Expr) (key : List Expr) : Prop where
  admissible : ∀ e ∈ key, e.Admissible opt
  satisfies : ∀ m : Valuation, m.Bounded →
    (Satisfies m key ↔ query.IsModel m ∧ query.expr.eval m = .ofBool false)

theorem sound_initial : Sound initial := ⟨fun h => absurd h SetNode.not_entry_empty, nofun⟩

variable {opts : CexOptions} {s s' : CexCache} {key path : List Expr} {query : Query Expr} {r : Option Assignment}

theorem Satisfies.mono {m : Valuation} (h : Satisfies m path) (hsub : key ⊆ path) : Satisfies m key :=
  fun e he => h e (hsub he)

theorem KeyFor.resultFor {opt : Bool} (h : KeyFor opt query key) (hr : TrueOf key r) : ResultFor query r := by
  cases r with
  | none =>
    rintro ⟨m, hm, hf⟩
    exact hr m hm.1 ((h.satisfies m hm.1).mpr ⟨hm, hf⟩)
  | some a => exact ⟨hr.1, (h.satisfies _ hr.1.bounded).mp hr.2⟩

theorem KeyFor.trueOf {opt : Bool} (h : KeyFor opt query key) (hr : ResultFor query r) : TrueOf key r := by
  cases r with
  | none => exact fun m hm hsat => hr ⟨m, (h.satisfies m hm).mp hsat⟩
  | some a => exact ⟨hr.1, (h.satisfies _ hr.1.bounded).mpr hr.2⟩

theorem trueOf_of_satisfies {opt : Bool} {a : Assignment} (ha : a.Sized) (hkey : ∀ e ∈ key, e.Admissible opt)
    (h : a.satisfies opt key = some true) : TrueOf key (some a) :=
  ⟨ha, ha.eval_of_satisfies (fun e he => ⟨(hkey e he).wellTyped, (hkey e he).shortIndices,
    fun ho => (hkey e he).defined ho _⟩) h⟩

section Search

theorem mem_insertAssignment {a x : Assignment} {table : List Assignment} (h : x ∈ insertAssignment a table) :
    x = a ∨ x ∈ table := by
  induction table with
  | nil => exact Or.inl (List.mem_singleton.mp h)
  | cons b table ih =>
    unfold insertAssignment at h
    split at h
    · exact Or.inr h
    · split at h
      · exact List.mem_cons.mp h
      · rcases List.mem_cons.mp h with rfl | h
        · exact Or.inr (.head _)
        · exact (ih h).imp_right (.tail _)

theorem KeyFor.ofValues {opt : Bool} (h : KeyFor opt query key) {values : List (List Nat)}
    (hv : IsInitialValues query (findSymbolicObjects key) (some values)) :
    TrueOf key (some (Assignment.ofValues (findSymbolicObjects key) values)) := by
  obtain ⟨m, hm, hf, hvalues⟩ := hv
  obtain ⟨hsized, hagree⟩ := Assignment.ofValues_spec hm.1 hvalues
  refine ⟨hsized, fun e he => ?_⟩
  rw [eval_eq_of_agree hagree he]
  exact (h.satisfies m hm.1).mpr ⟨hm, hf⟩ e he

theorem tryAssignments_spec (hkey : ∀ e ∈ key, e.Admissible opts.constArrayOpt) {table : List Assignment}
    (htable : ∀ a ∈ table, a.Sized) (h : tryAssignments opts key table = some (some r)) : TrueOf key r := by
  induction table with
  | nil => cases h
  | cons a as ih =>
    unfold tryAssignments at h
    obtain ⟨b, hb, h⟩ := Option.bind_eq_some_iff.mp h
    cases b with
    | true =>
      obtain rfl : some a = r := Option.some.inj (Option.some.inj h)
      exact trueOf_of_satisfies (htable a (.head _)) hkey hb
    | false => exact ih (fun a ha => htable a (.tail _ ha)) h

variable [LinearOrder Expr]

theorem searchForAssignment_spec (hs : Sound s) (hkey : ∀ e ∈ key, e.Admissible opts.constArrayOpt)
    (h : searchForAssignment opts s key = some (some r)) : TrueOf key r := by
  unfold searchForAssignment at h
  split at h
  · rename_i result hl
    obtain rfl : result = r := Option.some.inj (Option.some.inj h)
    exact hs.entry (SetNode.lookup_entry hl)
  · obtain ⟨superset, hsuper, h⟩ := Option.bind_eq_some_iff.mp h
    cases superset with
    | some result =>
      -- an assignment for a larger set
      obtain rfl : result = r := Option.some.inj (Option.some.inj h)
      unfold searchSuperset at hsuper
      split at hsuper
      · obtain ⟨path, hentry, hsub, hp⟩ := SetNode.findSuperset_entry _ hsuper
        cases result with
        | none => cases hp
        | some a =>
          obtain ⟨hsized, hsat⟩ := hs.entry hentry
          exact ⟨hsized, hsat.mono hsub⟩
      · cases hsuper
    | none =>
      dsimp only at h
      split at h
      · obtain ⟨subset, hsubset, h⟩ := Option.bind_eq_some_iff.mp h
        cases subset with
        | some result =>
          -- null for a smaller set
          obtain rfl : result = r := Option.some.inj (Option.some.inj h)
          obtain ⟨path, hentry, hsub, hp⟩ := SetNode.findSubset_entry _ hsubset
          cases result with
          | some a => cases hp
          | none => exact fun m hm hsat => hs.entry hentry m hm (hsat.mono hsub)
        | none => exact tryAssignments_spec hkey hs.sized h
      · obtain ⟨path, hentry, hsub, hp⟩ := SetNode.findSubset_entry _ h
        cases r with
        | none => exact fun m hm hsat => hs.entry hentry m hm (hsat.mono hsub)
        | some a => exact trueOf_of_satisfies (hs.entry hentry).1 hkey hp

theorem mem_toKey {constraints : List Expr} {e : Expr} : e ∈ toKey constraints ↔ e ∈ constraints := by
  unfold toKey
  suffices h : ∀ key : List Expr, e ∈ constraints.foldl (fun key c => insertElement c key) key ↔
      e ∈ key ∨ e ∈ constraints by simpa using h []
  induction constraints with
  | nil => simp
  | cons c cs ih =>
    intro key
    rw [List.foldl_cons, ih, mem_insertElement, List.mem_cons]
    tauto

theorem keyFor_constraints {opt : Bool} (hq : query.Admissible opt)
    (hneg : ∀ m, query.expr.eval m = .ofBool false) : KeyFor opt query (toKey query.constraints) where
  admissible e he := (hq.constraints e (mem_toKey.mp he)).1
  satisfies m hm := by
    simp only [Satisfies, mem_toKey, Query.IsModel, hneg, and_true]
    exact (and_iff_right hm).symm

theorem keyFor_negation {opt : Bool} {neg : Expr} (hq : query.Admissible opt) (hneg : neg.Admissible opt)
    (heval : ∀ m, neg.eval m = .ofBool true ↔ query.expr.eval m = .ofBool false) :
    KeyFor opt query (insertElement neg (toKey query.constraints)) where
  admissible e he := by
    rcases mem_insertElement.mp he with rfl | he
    · exact hneg
    · exact (hq.constraints e (mem_toKey.mp he)).1
  satisfies m hm := by
    simp only [Satisfies, mem_insertElement, mem_toKey, forall_eq_or_imp, heval, Query.IsModel]
    tauto

theorem lookupAssignment_spec (hs : Sound s) (hq : query.Admissible opts.constArrayOpt) (hw : query.expr.width = 1)
    {found : Option (Option Assignment)} (h : lookupAssignment opts s query = some (key, found)) :
    (∀ r, found = some r → ResultFor query r) ∧ (found = none → KeyFor opts.constArrayOpt query key) := by
  -- what is found for a key
  have hsearch : ∀ {key}, KeyFor opts.constArrayOpt query key → searchForAssignment opts s key = some found →
      (∀ r, found = some r → ResultFor query r) ∧ (found = none → KeyFor opts.constArrayOpt query key) := by
    rintro key hkey h
    refine ⟨?_, fun _ => hkey⟩
    rintro r rfl
    exact hkey.resultFor (searchForAssignment_spec hs hkey.admissible h)
  unfold lookupAssignment at h
  obtain ⟨neg, hneg, h⟩ := Option.bind_eq_some_iff.mp h
  obtain ⟨hadm, hwneg, heval⟩ := hq.expr.createIsZero hw hneg
  split at h
  · rename_i c
    split at h
    · rename_i hfalse
      obtain ⟨rfl, rfl⟩ := Prod.mk.inj (Option.some.inj h)
      refine ⟨?_, fun h => by cases h⟩
      rintro r ⟨rfl⟩
      rintro ⟨m, -, hm⟩
      have hc : c = .ofBool true := (heval m).mpr hm
      rw [hc] at hfalse
      exact absurd hfalse (by decide)
    · rename_i hfalse
      obtain ⟨found', hfound, h⟩ := Option.bind_eq_some_iff.mp h
      obtain ⟨rfl, rfl⟩ := Prod.mk.inj (Option.some.inj h)
      refine hsearch (keyFor_constraints hq fun m => (heval m).mp ?_) hfound
      refine (Expr.eval_true_or_false (e := .constant c) trivial hwneg m).resolve_right fun hc => hfalse ?_
      obtain rfl : c = .ofBool false := hc
      rfl
  · obtain ⟨found', hfound, h⟩ := Option.bind_eq_some_iff.mp h
    obtain ⟨rfl, rfl⟩ := Prod.mk.inj (Option.some.inj h)
    exact hsearch (keyFor_negation hq hadm heval) hfound

theorem Sound.insert (hs : Sound s) (hr : TrueOf key r) {table : List Assignment}
    (htable : ∀ a ∈ table, a.Sized) : Sound ⟨s.cache.insert key r, table⟩ where
  entry h := by
    rcases SetNode.entry_insert h with ⟨rfl, rfl⟩ | h
    · exact hr
    · exact hs.entry h
  sized := htable

theorem getAssignment_spec (hs : Sound s) {S : SolverImpl Expr ExprArray}
    (hS : S.RightInitialValues opts.constArrayOpt) (hq : query.Admissible opts.constArrayOpt)
    (hw : query.expr.width = 1) {result : Option (Option Assignment)}
    (h : getAssignment opts S s query = some (result, s')) :
    Sound s' ∧ ∀ r, result = some r → ResultFor query r := by
  unfold getAssignment at h
  obtain ⟨⟨key, found⟩, hl, h⟩ := Option.bind_eq_some_iff.mp h
  obtain ⟨hfound, hkey⟩ := lookupAssignment_spec hs hq hw hl
  cases found with
  | some r =>
    obtain ⟨rfl, rfl⟩ := Prod.mk.inj (Option.some.inj h)
    exact ⟨hs, hfound⟩
  | none =>
    have hkey := hkey rfl
    dsimp only at h
    split at h
    · obtain ⟨rfl, rfl⟩ := Prod.mk.inj (Option.some.inj h)
      exact ⟨hs, nofun⟩
    · rename_i hval
      obtain ⟨rfl, rfl⟩ := Prod.mk.inj (Option.some.inj h)
      have hnone : ResultFor query none := hS hq hw hval
      refine ⟨hs.insert (hkey.trueOf hnone) hs.sized, ?_⟩
      rintro r ⟨rfl⟩
      exact hnone
    · rename_i values hval
      obtain ⟨satisfied, -, h⟩ := Option.bind_eq_some_iff.mp h
      split at h
      · obtain ⟨rfl, rfl⟩ := Prod.mk.inj (Option.some.inj h)
        have htrue := hkey.ofValues (hS hq hw hval)
        refine ⟨hs.insert htrue fun a ha => ?_, ?_⟩
        · rcases mem_insertAssignment ha with rfl | ha
          · exact htrue.1
          · exact hs.sized a ha
        · rintro r ⟨rfl⟩
          exact hkey.resultFor htrue
      · cases h

end Search

section Calls

theorem admissible_withFalse {opt : Bool} (h : query.Admissible opt) : (withFalse query).Admissible opt :=
  ⟨h.constraints, trivial, trivial, fun _ _ => trivial⟩

theorem ResultFor.isModel {a : Assignment} (h : ResultFor (withFalse query) (some a)) : query.IsModel a.valuation :=
  h.2.1

variable [LinearOrder Expr] {S : SolverImpl Expr ExprArray}

theorem getAssignment_answers {β : Type} {P : β → Prop} (hs : Sound s) {S : SolverImpl Expr ExprArray}
    (hS : S.RightInitialValues opts.constArrayOpt) (hq : query.Admissible opts.constArrayOpt)
    (hw : query.expr.width = 1) {found : Option (Option Assignment)} {s₁ : CexCache}
    (hget : getAssignment opts S s query = some (found, s₁)) {g : Option Assignment → β} {result : Option β}
    (h : some (found.map g, s₁) = some (result, s')) (hP : ∀ r, ResultFor query r → P (g r)) :
    Sound s' ∧ ∀ b ∈ result, P b := by
  obtain ⟨hs₁, hresult⟩ := getAssignment_spec hs hS hq hw hget
  obtain ⟨rfl, rfl⟩ := Prod.mk.inj (Option.some.inj h)
  refine ⟨hs₁, fun b hb => ?_⟩
  obtain ⟨r, hr, rfl⟩ := Option.mem_map.mp hb
  exact hP r (hresult r hr)

theorem computeTruth_spec (hs : Sound s) (hS : S.RightInitialValues opts.constArrayOpt)
    (hq : query.Admissible opts.constArrayOpt) (hw : query.expr.width = 1) {result : Option Bool}
    (h : computeTruth opts S s query = some (result, s')) :
    Sound s' ∧ ∀ b ∈ result, b = true ↔ query.Entailed := by
  unfold computeTruth at h
  obtain ⟨⟨found, s₁⟩, hget, h⟩ := Option.bind_eq_some_iff.mp h
  refine getAssignment_answers hs hS hq hw hget (g := fun a => a.isNone) (by cases found <;> exact h) fun r hr => ?_
  rw [← Query.not_refutable hq.expr.wellTyped hw]
  cases r with
  | none => exact ⟨fun _ => hr, fun _ => rfl⟩
  | some a => exact ⟨nofun, fun hno => absurd ⟨_, hr.2⟩ hno⟩

theorem computeValue_spec (hs : Sound s) (hS : S.RightInitialValues opts.constArrayOpt)
    (hq : query.Admissible opts.constArrayOpt) {result : Option Expr}
    (h : computeValue opts S s query = some (result, s')) :
    Sound s' ∧ ∀ e ∈ result, ∃ c m, e = .constant c ∧ query.IsModel m ∧ query.expr.eval m = c := by
  unfold computeValue at h
  obtain ⟨⟨found, s₁⟩, hget, h⟩ := Option.bind_eq_some_iff.mp h
  obtain ⟨hs₁, hresult⟩ := getAssignment_spec hs hS (admissible_withFalse hq) rfl hget
  match found with
  | none =>
    obtain ⟨rfl, rfl⟩ := Prod.mk.inj (Option.some.inj h)
    exact ⟨hs₁, nofun⟩
  | some none => cases h
  | some (some a) =>
    obtain ⟨e, he, h⟩ := Option.bind_eq_some_iff.mp h
    split at h
    · rename_i hconst
      obtain ⟨rfl, rfl⟩ := Prod.mk.inj (Option.some.inj h)
      refine ⟨hs₁, ?_⟩
      rintro e' ⟨rfl⟩
      have ha := hresult _ rfl
      cases e with
      | constant c =>
        exact ⟨c, a.valuation, rfl, ha.isModel, ha.1.evaluate_constant hq.expr.wellTyped hq.expr.shortIndices
          (fun ho => hq.expr.defined ho _) he⟩
      | _ => cases hconst
    · cases h

theorem computeInitialValues_spec (hs : Sound s) (hS : S.RightInitialValues opts.constArrayOpt)
    (hq : query.Admissible opts.constArrayOpt) (hw : query.expr.width = 1) {objects : List ExprArray}
    {result : Option (Option (List (List Nat)))}
    (h : computeInitialValues opts S s query objects = some (result, s')) :
    Sound s' ∧ ∀ values ∈ result, IsInitialValues query objects values := by
  unfold computeInitialValues at h
  obtain ⟨⟨found, s₁⟩, hget, h⟩ := Option.bind_eq_some_iff.mp h
  refine getAssignment_answers hs hS hq hw hget (g := fun a => a.map fun a => objects.map (bytesOf a)) (by cases found <;> exact h) fun r hr => ?_
  cases r with
  | none => exact hr
  | some a =>
    refine ⟨a.valuation, hr.2.1, hr.2.2, ?_⟩
    refine List.forall₂_map_right_iff.mpr (List.forall₂_same.mpr fun o _ => ?_)
    unfold bytesOf Assignment.valuation
    cases hf : a.find o with
    | none =>
      refine ⟨List.length_replicate, fun i hi => ?_⟩
      simp [List.getD_eq_getElem?_getD, hi]
    | some bytes => exact ⟨hr.1 _ (Assignment.mem_of_find hf), fun _ _ => rfl⟩

theorem validityIfNull_spec (hs : Sound s) (hS : S.RightInitialValues opts.constArrayOpt)
    (hq : query.Admissible opts.constArrayOpt) (hw : query.expr.width = 1) {validity : Validity}
    {result : Option Validity} (h : validityIfNull opts validity S s query = some (result, s')) :
    Sound s' ∧ ∀ v ∈ result, (v = validity ∧ query.Entailed) ∨ (v = .unknown ∧ ¬query.Entailed) := by
  unfold validityIfNull at h
  obtain ⟨⟨found, s₁⟩, hget, h⟩ := Option.bind_eq_some_iff.mp h
  refine getAssignment_answers hs hS hq hw hget (g := fun a => if a.isNone then validity else .unknown) (by cases found <;> exact h) fun r hr => ?_
  rw [← Query.not_refutable hq.expr.wellTyped hw, not_not]
  cases r with
  | none => exact Or.inl ⟨rfl, hr⟩
  | some a => exact Or.inr ⟨rfl, _, hr.2⟩

theorem computeValidity_spec (hs : Sound s) (hS : S.RightInitialValues opts.constArrayOpt)
    (hq : query.Admissible opts.constArrayOpt) (hw : query.expr.width = 1) {result : Option Validity}
    (h : computeValidity opts S s query = some (result, s')) :
    Sound s' ∧ ∀ v ∈ result, SolverCall.RightAnswer (.validity query) (.validity v) := by
  unfold computeValidity at h
  obtain ⟨⟨found, s₁⟩, hget, h⟩ := Option.bind_eq_some_iff.mp h
  obtain ⟨hs₁, hresult⟩ := getAssignment_spec hs hS (admissible_withFalse hq) rfl hget
  have hne : ∀ {m}, query.expr.eval m ≠ .ofBool true ↔ query.expr.eval m = .ofBool false :=
    Expr.eval_ne_true hq.expr.wellTyped hw
  match found with
  | none =>
    obtain ⟨rfl, rfl⟩ := Prod.mk.inj (Option.some.inj h)
    exact ⟨hs₁, nofun⟩
  | some none => cases h
  | some (some a) =>
    have ha := hresult _ rfl
    have hmodel := ha.isModel
    obtain ⟨e, he, h⟩ := Option.bind_eq_some_iff.mp h
    cases e with
    | constant c =>
      have hc := ha.1.evaluate_constant hq.expr.wellTyped hq.expr.shortIndices (fun ho => hq.expr.defined ho _) he
      dsimp only at h
      split at h
      · -- the expression holds in one model; is there one in which it fails?
        rename_i htrue
        have hholds := hc.trans (Assignment.eq_ofBool_of_isTrue htrue)
        obtain ⟨hs₂, hv⟩ := validityIfNull_spec hs₁ hS hq hw h
        refine ⟨hs₂, fun v hmem => ?_⟩
        rcases hv v hmem with ⟨rfl, hall⟩ | ⟨rfl, hno⟩
        · exact hall
        · exact ⟨hno, fun hall => hne.mpr (hall _ hmodel) hholds⟩
      · -- the expression fails in one model; is there one in which it holds?
        rename_i htrue
        have hfails : query.expr.eval a.valuation = .ofBool false := by
          refine hne.mp fun hv => htrue ?_
          rw [← hc, hv]
          rfl
        obtain ⟨neg, hneg, h⟩ := Option.bind_eq_some_iff.mp h
        obtain ⟨hadm, hwneg, heval⟩ := hq.expr.createIsZero hw hneg
        have hq' : Query.Admissible opts.constArrayOpt { query with expr := neg } := ⟨hq.constraints, hadm⟩
        obtain ⟨hs₂, hv⟩ := validityIfNull_spec hs₁ hS hq' hwneg h
        refine ⟨hs₂, fun v hmem => ?_⟩
        rcases hv v hmem with ⟨rfl, hall⟩ | ⟨rfl, hno⟩
        · exact fun m hm => (heval m).mp (hall m hm)
        · refine ⟨fun hall => hne.mpr hfails (hall _ hmodel), fun hall => hno fun m hm => ?_⟩
          exact (heval m).mpr (hall m hm)
    | _ => cases h

theorem call_spec (hs : Sound s) (hS : S.RightInitialValues opts.constArrayOpt) {c : SolverCall Expr ExprArray}
    (hc : c.Admissible opts.constArrayOpt) {r : Option (SolverAnswer Expr)} (h : call opts S s c = some (r, s')) :
    Sound s' ∧ ∀ answer ∈ r, c.RightAnswer answer := by
  cases c with
  | validity q =>
    obtain ⟨⟨result, s₁⟩, hv, heq⟩ := Option.map_eq_some_iff.mp h
    obtain ⟨rfl, rfl⟩ := Prod.mk.inj heq
    obtain ⟨hs₁, hv⟩ := computeValidity_spec hs hS hc.1 hc.2 hv
    refine ⟨hs₁, fun answer ha => ?_⟩
    obtain ⟨v, hmem, rfl⟩ := Option.mem_map.mp ha
    exact hv v hmem
  | truth q =>
    obtain ⟨⟨result, s₁⟩, hv, heq⟩ := Option.map_eq_some_iff.mp h
    obtain ⟨rfl, rfl⟩ := Prod.mk.inj heq
    obtain ⟨hs₁, hv⟩ := computeTruth_spec hs hS hc.1 hc.2 hv
    refine ⟨hs₁, fun answer ha => ?_⟩
    obtain ⟨b, hmem, rfl⟩ := Option.mem_map.mp ha
    exact hv b hmem
  | value q =>
    obtain ⟨⟨result, s₁⟩, hv, heq⟩ := Option.map_eq_some_iff.mp h
    obtain ⟨rfl, rfl⟩ := Prod.mk.inj heq
    obtain ⟨hs₁, hv⟩ := computeValue_spec hs hS hc hv
    refine ⟨hs₁, fun answer ha => ?_⟩
    obtain ⟨e, hmem, rfl⟩ := Option.mem_map.mp ha
    exact hv e hmem
  | initialValues q objects =>
    obtain ⟨⟨result, s₁⟩, hv, heq⟩ := Option.map_eq_some_iff.mp h
    obtain ⟨rfl, rfl⟩ := Prod.mk.inj heq
    obtain ⟨hs₁, hv⟩ := computeInitialValues_spec hs hS hc.1 hc.2 hv
    refine ⟨hs₁, fun answer ha => ?_⟩
    obtain ⟨values, hmem, rfl⟩ := Option.mem_map.mp ha
    exact hv values hmem

theorem Reachable.sound (h : Reachable opts s) : Sound s := by
  induction h with
  | initial => exact sound_initial
  | call S c _ hS hc hcall ih => exact (call_spec ih hS hc hcall).1

/-- The counterexample cache changes no answer: in every state that a sequence of calls leads to, a null entry is
stored for an unsatisfiable set and an assignment for a set that it satisfies; the next call leads to such a state
again, also if the solver below fails; and what it answers is right for its query. -/
theorem cexCachingSolver_right (opts : CexOptions) (s : CexCache) (h : Reachable opts s) :
    Sound s ∧
      ∀ (S : SolverImpl Expr ExprArray) (c : SolverCall Expr ExprArray) (r : Option (SolverAnswer Expr)) (s' : CexCache),
        S.RightInitialValues opts.constArrayOpt → c.Admissible opts.constArrayOpt → call opts S s c = some (r, s') →
        Sound s' ∧ ∀ answer ∈ r, c.RightAnswer answer :=
  ⟨h.sound, fun _ _ _ _ hS hc hcall => call_spec h.sound hS hc hcall⟩

end Calls

/-- Is the first byte of an array 5, if it is known to be 5? -/
def fiveQuery : Query Expr :=
  let five := Expr.cmp .eq (.ofNat 8 5) (.read ⟨0, 4, 32, 8, []⟩ .nil (.ofNat 32 0))
  ⟨[five], five⟩

/-- A solver that knows the answer to this query only. -/
def fiveSolver : SolverImpl Expr ExprArray where
  computeValidity _ := none
  computeTruth _ := none
  computeValue _ := none
  computeInitialValues q _ := if q.constraints = fiveQuery.constraints ∧ q.expr = fiveQuery.expr then some none else none

theorem fiveSolver_right : fiveSolver.RightInitialValues false := by
  intro q objects r _ _ h
  unfold fiveSolver at h
  dsimp only at h
  split at h
  · rename_i hq
    obtain rfl := Option.some.inj h
    rintro ⟨m, hm, hf⟩
    have ht := hm.2 q.expr (by rw [hq.1, hq.2]; exact .head _)
    rw [hf] at ht
    exact absurd ht (by decide)
  · cases h

theorem fiveQuery_admissible : SolverCall.Admissible false (.truth fiveQuery) := by
  have hfive : fiveQuery.expr.Admissible false := by
    refine ⟨⟨trivial, ⟨⟨by decide, by decide, by decide⟩, trivial, trivial, rfl⟩, rfl⟩, ?_, nofun⟩
    exact ⟨trivial, by decide, trivial, trivial⟩
  refine ⟨⟨fun c hc => ?_, hfive⟩, rfl⟩
  obtain rfl := List.mem_singleton.mp hc
  exact ⟨hfive, rfl⟩

theorem searchForAssignment_initial [LinearOrder Expr] (opts : CexOptions) (key : List Expr) :
    searchForAssignment opts initial key = some none := by
  have hlookup : initial.cache.lookup key = none := by cases key <;> rfl
  have hsubset : ∀ p, initial.cache.findSubset p key = some none := by
    intro p
    cases key with
    | nil => rfl
    | cons => rfl
  have hsuperset : searchSuperset opts initial key = some none := by
    unfold searchSuperset
    split
    · cases key with
      | nil => rfl
      | cons => rfl
    · rfl
  unfold searchForAssignment
  rw [hlookup, hsuperset]
  simp only [Option.bind_eq_bind, Option.bind_some, hsubset]
  split
  · rfl
  · rfl

theorem cexCachingSolver_right_five : ∃ (order : LinearOrder Expr) (s' : CexCache),
    let opts : CexOptions := ⟨false, true, true, false⟩
    @call order opts fiveSolver initial (.truth fiveQuery) = some (some (.truth true), s') ∧ Sound s' ∧
      SolverCall.RightAnswer (.truth fiveQuery) (.truth true) := by
  let order : LinearOrder Expr := @linearOrderOfSTO Expr WellOrderingRel _ (Classical.decRel _)
  have hneg : fiveQuery.expr.createIsZero false = some (.cmp .eq (.ofBool false) fiveQuery.expr) := by
    unfold Expr.createIsZero EqExpr.create createR fiveQuery
    simp only [Expr.width, Expr.ofNat, APInt.ofNat, if_true]
    unfold EqExpr.createPartialR EqExpr.plain
    decide
  let key := insertElement (.cmp .eq (.ofBool false) fiveQuery.expr) (toKey fiveQuery.constraints)
  have hcall : call ⟨false, true, true, false⟩ fiveSolver initial (.truth fiveQuery) =
      some (some (.truth true), ⟨initial.cache.insert key none, []⟩) := by
    have hvalues : ∀ objects, fiveSolver.computeInitialValues fiveQuery objects = some none := by
      intro objects
      unfold fiveSolver
      dsimp only
      rw [if_pos ⟨rfl, rfl⟩]
    simp only [call, computeTruth, getAssignment, lookupAssignment, hneg, searchForAssignment_initial, hvalues,
      Option.bind_eq_bind, Option.bind_some, Option.map_some, Option.isNone_none]
    rfl
  have hright := (cexCachingSolver_right ⟨false, true, true, false⟩ initial .initial).2 fiveSolver (.truth fiveQuery)
    _ _ fiveSolver_right fiveQuery_admissible hcall
  exact ⟨order, _, hcall, hright.1, hright.2 _ rfl⟩

end CexCachingSolver

end CgsKlee
