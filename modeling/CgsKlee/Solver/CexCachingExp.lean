import CgsKlee.Solver.CexCaching
import CgsKlee.Solver.IndependentRight

/-!
# The experimental mode of the counterexample cache

With `--cex-cache-exp`, `computeTruth` first looks the negated query up.  If it finds that nothing satisfies the
constraints and the expression, the expression is not valid, but the call fails instead of saying so.  In all other
cases it answers as without the option.
-/

namespace CgsKlee

open Symbolic ConstantExpr

namespace CexCachingSolver

section Operations

variable [LinearOrder Expr] (opts : CexOptions)

def computeTruthExp (S : SolverImpl Expr ExprArray) (s : CexCache) (query : Query Expr) :
    Option (Option Bool × CexCache) := do
  let neg ← query.expr.createIsZero opts.constArrayOpt
  match ← lookupAssignment opts s { query with expr := neg } with
  | (_, some none) => some (none, s)
  | _ => computeTruth opts S s query

/-- A call of the solver with the option on. -/
def callExp (S : SolverImpl Expr ExprArray) (s : CexCache) :
    SolverCall Expr ExprArray → Option (Option (SolverAnswer Expr) × CexCache)
  | .truth query => (computeTruthExp opts S s query).map fun r => (r.1.map .truth, r.2)
  | c => call opts S s c

/-- The states that sequences of calls lead to with the option on. -/
inductive ReachableExp : CexCache → Prop
  | initial : ReachableExp initial
  | call {s s' : CexCache} {r : Option (SolverAnswer Expr)} (S : SolverImpl Expr ExprArray)
      (c : SolverCall Expr ExprArray) (h : ReachableExp s) (hS : S.RightInitialValues opts.constArrayOpt)
      (hc : c.Admissible opts.constArrayOpt) (hs : callExp opts S s c = some (r, s')) : ReachableExp s'

/-- The negated query is found in the cache, with nothing that satisfies it. -/
def RefutationCached (s : CexCache) (query : Query Expr) : Prop :=
  ∃ neg key, query.expr.createIsZero opts.constArrayOpt = some neg ∧
    lookupAssignment opts s { query with expr := neg } = some (key, some none)

end Operations

/-- Each expression of the query is defined under some contents of the arrays. -/
def SomewhereDefined (query : Query Expr) : Prop := ∀ e ∈ query.expr :: query.constraints, ∃ m, e.Defined m

variable {opts : CexOptions} {s s' s₀ s₀' : CexCache} {key : List Expr} {query : Query Expr}
  {S : SolverImpl Expr ExprArray}

section Ends

theorem exists_satisfies {opt : Bool} (a : Assignment) {es : List Expr}
    (hes : ∀ e ∈ es, e.Admissible opt ∧ ∃ m, e.Defined m) : ∃ b, a.satisfies opt es = some b := by
  induction es with
  | nil => exact ⟨true, rfl⟩
  | cons e es ih =>
    obtain ⟨he, m, hm⟩ := hes e (.head _)
    have hinit : ExprEvaluator.InitialRefines opt (fun _ => False) fun array index =>
        some (a.evaluateByte array index) := by
      intro root index e' _ _ _ _ he'
      obtain rfl := Option.some.inj he'
      rw [Assignment.evaluateByte_eq]
      exact ⟨trivial, rfl, fun _ _ _ => trivial, fun _ h => h.elim⟩
    obtain ⟨v, hv⟩ := ExprEvaluator.visit_some hinit (fun _ _ => rfl) he.wellTyped he.shortIndices hm
    unfold Assignment.satisfies Assignment.evaluate
    rw [hv]
    simp only [Option.bind_eq_bind, Option.bind_some]
    split
    · exact ih fun e he => hes e (.tail _ he)
    · exact ⟨false, rfl⟩

theorem exists_tryAssignments (hkey : ∀ e ∈ key, e.Admissible opts.constArrayOpt ∧ ∃ m, e.Defined m)
    (table : List Assignment) : ∃ found, tryAssignments opts key table = some found := by
  induction table with
  | nil => exact ⟨none, rfl⟩
  | cons a as ih =>
    obtain ⟨b, hb⟩ := exists_satisfies a hkey
    unfold tryAssignments
    rw [hb]
    simp only [Option.bind_eq_bind, Option.bind_some]
    split
    · exact ⟨_, rfl⟩
    · exact ih

variable [LinearOrder Expr]

theorem exists_searchForAssignment (s : CexCache)
    (hkey : ∀ e ∈ key, e.Admissible opts.constArrayOpt ∧ ∃ m, e.Defined m) :
    ∃ found, searchForAssignment opts s key = some found := by
  have hsuperset : ∃ found, searchSuperset opts s key = some found := by
    unfold searchSuperset
    split
    · exact SetNode.exists_findSuperset (fun v => ⟨_, rfl⟩) _ _
    · exact ⟨none, rfl⟩
  unfold searchForAssignment
  split
  · exact ⟨_, rfl⟩
  · obtain ⟨superset, hsuper⟩ := hsuperset
    rw [hsuper]
    cases superset with
    | some result => exact ⟨_, rfl⟩
    | none =>
      simp only [Option.bind_eq_bind, Option.bind_some]
      split
      · obtain ⟨subset, hsubset⟩ := SetNode.exists_findSubset (p := nullAssignment) (fun v => ⟨_, rfl⟩) s.cache key
        rw [hsubset]
        cases subset with
        | some result => exact ⟨_, rfl⟩
        | none => exact exists_tryAssignments hkey s.assignmentsTable
      · refine SetNode.exists_findSubset (fun v => ?_) s.cache key
        cases v with
        | none => exact ⟨true, rfl⟩
        | some a => exact exists_satisfies a hkey

theorem exists_lookupAssignment (s : CexCache) (hq : query.Admissible opts.constArrayOpt) (hw : query.expr.width = 1)
    (hd : SomewhereDefined query) : ∃ r, lookupAssignment opts s query = some r := by
  obtain ⟨neg, hneg, href⟩ := Expr.createIsZero_builds opts.constArrayOpt hq.expr.wellTyped
  obtain ⟨hadm, -, -⟩ := hq.expr.createIsZero hw hneg
  have hconstraints : ∀ e ∈ toKey query.constraints, e.Admissible opts.constArrayOpt ∧ ∃ m, e.Defined m := by
    intro e he
    have hmem := mem_toKey.mp he
    exact ⟨(hq.constraints e hmem).1, hd e (.tail _ hmem)⟩
  have hnegation : ∀ e ∈ insertElement neg (toKey query.constraints),
      e.Admissible opts.constArrayOpt ∧ ∃ m, e.Defined m := by
    intro e he
    rcases mem_insertElement.mp he with rfl | he
    · obtain ⟨m, hm⟩ := hd query.expr (.head _)
      exact ⟨hadm, m, href.defined m ⟨hm, trivial⟩⟩
    · exact hconstraints e he
  obtain ⟨found₀, hfound₀⟩ := exists_searchForAssignment s hconstraints
  obtain ⟨found₁, hfound₁⟩ := exists_searchForAssignment s hnegation
  unfold lookupAssignment
  rw [hneg]
  simp only [Option.bind_eq_bind, Option.bind_some]
  split
  · split
    · exact ⟨_, rfl⟩
    · rw [hfound₀]
      exact ⟨_, rfl⟩
  · rw [hfound₁]
    exact ⟨_, rfl⟩

theorem exists_computeTruth (s : CexCache) (hcheck : opts.debugCexCacheCheckBinding = false)
    (hq : query.Admissible opts.constArrayOpt) (hw : query.expr.width = 1) (hd : SomewhereDefined query) :
    ∃ r, computeTruth opts S s query = some r := by
  obtain ⟨⟨key, found⟩, hlookup⟩ := exists_lookupAssignment s hq hw hd
  have hget : ∃ r, getAssignment opts S s query = some r := by
    unfold getAssignment checkBinding
    rw [hlookup, hcheck]
    cases found with
    | some result => exact ⟨_, rfl⟩
    | none =>
      simp only [Option.bind_eq_bind, Option.bind_some]
      split
      · exact ⟨_, rfl⟩
      · exact ⟨_, rfl⟩
      · exact ⟨_, rfl⟩
  obtain ⟨⟨result, t⟩, hresult⟩ := hget
  unfold computeTruth
  rw [hresult]
  cases result with
  | none => exact ⟨_, rfl⟩
  | some a => exact ⟨_, rfl⟩

theorem exists_computeTruthExp (s : CexCache) (hcheck : opts.debugCexCacheCheckBinding = false)
    (hq : query.Admissible opts.constArrayOpt) (hw : query.expr.width = 1) (hd : SomewhereDefined query) :
    ∃ r, computeTruthExp opts S s query = some r := by
  obtain ⟨neg, hneg, href⟩ := Expr.createIsZero_builds opts.constArrayOpt hq.expr.wellTyped
  obtain ⟨hadm, hwneg, -⟩ := hq.expr.createIsZero hw hneg
  have hdneg : SomewhereDefined { query with expr := neg } := by
    refine List.forall_mem_cons.mpr ⟨?_, fun e he => hd e (.tail _ he)⟩
    obtain ⟨m, hm⟩ := hd query.expr (.head _)
    exact ⟨m, href.defined m ⟨hm, trivial⟩⟩
  have hends : ∃ r, lookupAssignment opts s { query with expr := neg } = some r :=
    exists_lookupAssignment s ⟨hq.constraints, hadm⟩ hwneg hdneg
  obtain ⟨⟨key, found⟩, hlookup⟩ := hends
  unfold computeTruthExp
  rw [hneg]
  simp only [Option.bind_eq_bind, Option.bind_some]
  rw [hlookup]
  simp only [Option.bind_some]
  split
  · exact ⟨_, rfl⟩
  · exact exists_computeTruth s hcheck hq hw hd

end Ends

section Modes

variable [LinearOrder Expr]

theorem computeTruthExp_cases {r : Option Bool} (h : computeTruthExp opts S s query = some (r, s')) :
    RefutationCached opts s query ∧ r = none ∧ s' = s ∨
      ¬RefutationCached opts s query ∧ computeTruth opts S s query = some (r, s') := by
  unfold computeTruthExp at h
  obtain ⟨neg, hneg, h⟩ := Option.bind_eq_some_iff.mp h
  obtain ⟨⟨key, found⟩, hlookup, h⟩ := Option.bind_eq_some_iff.mp h
  have hcached : RefutationCached opts s query ↔ found = some none := by
    constructor
    · rintro ⟨neg', key', hneg', hlookup'⟩
      obtain rfl := Option.some.inj (hneg.symm.trans hneg')
      rw [hlookup] at hlookup'
      exact (Prod.mk.inj (Option.some.inj hlookup')).2
    · rintro rfl
      exact ⟨neg, key, hneg, hlookup⟩
  rw [hcached]
  split at h
  · rename_i heq
    obtain ⟨-, rfl⟩ := Prod.mk.inj heq
    obtain ⟨rfl, rfl⟩ := Prod.mk.inj (Option.some.inj h)
    exact Or.inl ⟨rfl, rfl, rfl⟩
  · rename_i hno
    refine Or.inr ⟨?_, h⟩
    rintro rfl
    exact hno key rfl

theorem ReachableExp.sound (h : ReachableExp opts s) : Sound s := by
  induction h with
  | initial => exact sound_initial
  | call S c _ hS hc hcall ih =>
    cases c with
    | truth q =>
      obtain ⟨⟨r, t⟩, hr, heq⟩ := Option.map_eq_some_iff.mp hcall
      obtain ⟨-, rfl⟩ := Prod.mk.inj heq
      rcases computeTruthExp_cases hr with ⟨-, -, rfl⟩ | ⟨-, hr⟩
      · exact ih
      · exact (computeTruth_spec ih hS hc.1 hc.2 hr).1
    | validity q => exact (call_spec ih hS hc (c := .validity q) hcall).1
    | value q => exact (call_spec ih hS hc (c := .value q) hcall).1
    | initialValues q objects => exact (call_spec ih hS hc (c := .initialValues q objects) hcall).1

theorem computeTruth_answers (hanswers : S.AnswersInitialValues opts.constArrayOpt)
    (hq : query.Admissible opts.constArrayOpt) (hw : query.expr.width = 1) {r : Option Bool}
    (h : computeTruth opts S s query = some (r, s')) : ∃ b, r = some b := by
  unfold computeTruth at h
  obtain ⟨⟨found, t⟩, hget, h⟩ := Option.bind_eq_some_iff.mp h
  cases found with
  | some a =>
    obtain ⟨rfl, -⟩ := Prod.mk.inj (Option.some.inj h)
    exact ⟨_, rfl⟩
  | none =>
    unfold getAssignment at hget
    obtain ⟨⟨key, found⟩, hlookup, hget⟩ := Option.bind_eq_some_iff.mp hget
    cases found with
    | some result => cases hget
    | none =>
      obtain ⟨values, hvalues⟩ := hanswers query (findSymbolicObjects key) hq hw
      dsimp only at hget
      rw [hvalues] at hget
      cases values with
      | none => cases hget
      | some values =>
        obtain ⟨b, -, hget⟩ := Option.bind_eq_some_iff.mp hget
        split at hget
        · cases hget
        · cases hget

/-- With the option on, a call of `computeTruth` succeeds and reports what it reports without the option unless the
cache holds a refutation of the negated query; and where every expression of the query is defined under some contents
of the arrays, and new assignments are not checked, both calls come to an end. -/
theorem computeTruthExp_agrees_iff (h : ReachableExp opts s) (h₀ : Reachable opts s₀)
    (hS : S.RightInitialValues opts.constArrayOpt) (hanswers : S.AnswersInitialValues opts.constArrayOpt)
    (hq : (SolverCall.truth query : SolverCall Expr ExprArray).Admissible opts.constArrayOpt) :
    (∀ r s' r₀ s₀', computeTruthExp opts S s query = some (r, s') → computeTruth opts S s₀ query = some (r₀, s₀') →
        ((∃ isValid, r = some isValid ∧ r₀ = some isValid) ↔ ¬RefutationCached opts s query)) ∧
      (opts.debugCexCacheCheckBinding = false → SomewhereDefined query →
        (∃ r, computeTruthExp opts S s query = some r) ∧ ∃ r₀, computeTruth opts S s₀ query = some r₀) := by
  obtain ⟨hq, hw⟩ := hq
  refine ⟨fun r s' r₀ s₀' hr hr₀ => ?_, fun hcheck hd =>
    ⟨exists_computeTruthExp s hcheck hq hw hd, exists_computeTruth s₀ hcheck hq hw hd⟩⟩
  obtain ⟨b₀, rfl⟩ := computeTruth_answers hanswers hq hw hr₀
  rcases computeTruthExp_cases hr with ⟨hcached, rfl, -⟩ | ⟨hno, hr⟩
  · exact ⟨nofun, fun hno => absurd hcached hno⟩
  · refine ⟨fun _ => hno, fun _ => ?_⟩
    obtain ⟨b, rfl⟩ := computeTruth_answers hanswers hq hw hr
    have hb := (computeTruth_spec h.sound hS hq hw hr).2 b rfl
    have hb₀ := (computeTruth_spec h₀.sound hS hq hw hr₀).2 b₀ rfl
    rw [Bool.eq_iff_iff.mpr (hb.trans hb₀.symm)]
    exact ⟨b₀, rfl, rfl⟩

end Modes

section Example

def defaultOptions : CexOptions := ⟨false, false, false, false⟩

def notFiveQuery : Query Expr := { fiveQuery with expr := .cmp .eq (.ofBool false) fiveQuery.expr }

theorem createIsZero_five : fiveQuery.expr.createIsZero false = some notFiveQuery.expr := by
  unfold notFiveQuery Expr.createIsZero EqExpr.create createR fiveQuery
  simp only [Expr.width, Expr.ofNat, APInt.ofNat, if_true]
  unfold EqExpr.createPartialR EqExpr.plain
  decide

theorem createIsZero_notFive : notFiveQuery.expr.createIsZero false = some fiveQuery.expr := by
  unfold notFiveQuery Expr.createIsZero EqExpr.create createR fiveQuery
  simp only [Expr.width, Expr.ofNat, APInt.ofNat, if_true]
  unfold EqExpr.createPartialR
  decide

theorem notFiveQuery_admissible : (SolverCall.truth notFiveQuery : SolverCall Expr ExprArray).Admissible false := by
  obtain ⟨⟨hconstraints, hfive⟩, hw⟩ := fiveQuery_admissible
  obtain ⟨hadm, hwidth, -⟩ := hfive.createIsZero hw createIsZero_five
  exact ⟨⟨hconstraints, hadm⟩, hwidth⟩

theorem five_defined : SomewhereDefined fiveQuery := by
  have hfive : ∃ m, fiveQuery.expr.Defined m :=
    ⟨fun _ _ => 0, trivial, trivial, trivial, (by decide : (0 : Nat) < 4)⟩
  exact List.forall_mem_cons.mpr ⟨hfive, fun e he => List.mem_singleton.mp he ▸ hfive⟩

variable [LinearOrder Expr]

def fiveCached : CexCache :=
  ⟨initial.cache.insert (insertElement notFiveQuery.expr (toKey fiveQuery.constraints)) none, []⟩

open IndependentSolver in
theorem computeTruth_five : computeTruth defaultOptions oracle initial fiveQuery = some (some true, fiveCached) := by
  have hvalues : ∀ objects, oracle.computeInitialValues fiveQuery objects = some none := by
    intro objects
    have hno : ¬fiveQuery.Refutable := by
      rintro ⟨m, hm, hf⟩
      have ht := hm.2 fiveQuery.expr (.head _)
      rw [hf] at ht
      exact absurd ht (by decide)
    unfold oracle
    dsimp only
    rw [dif_neg hno]
  have hneg : fiveQuery.expr.createIsZero defaultOptions.constArrayOpt = some notFiveQuery.expr := createIsZero_five
  simp only [computeTruth, getAssignment, lookupAssignment, hneg, Option.bind_eq_bind, Option.bind_some]
  simp only [notFiveQuery, searchForAssignment_initial, hvalues, Option.bind_some, Option.isNone_none]
  rfl

theorem computeTruthExp_five : computeTruthExp defaultOptions IndependentSolver.oracle initial fiveQuery =
    some (some true, fiveCached) := by
  have hneg : fiveQuery.expr.createIsZero defaultOptions.constArrayOpt = some notFiveQuery.expr := createIsZero_five
  have hnotneg : notFiveQuery.expr.createIsZero defaultOptions.constArrayOpt = some fiveQuery.expr :=
    createIsZero_notFive
  have hlookup : lookupAssignment defaultOptions initial { fiveQuery with expr := notFiveQuery.expr } =
      some (insertElement fiveQuery.expr (toKey fiveQuery.constraints), none) := by
    simp only [lookupAssignment, hnotneg, Option.bind_eq_bind, Option.bind_some]
    simp only [fiveQuery, searchForAssignment_initial, Option.bind_some]
  unfold computeTruthExp
  rw [hneg]
  simp only [Option.bind_eq_bind, Option.bind_some]
  rw [hlookup]
  exact computeTruth_five

theorem refutationCached_notFive : RefutationCached defaultOptions fiveCached notFiveQuery := by
  have hneg : fiveQuery.expr.createIsZero defaultOptions.constArrayOpt = some notFiveQuery.expr := createIsZero_five
  refine ⟨fiveQuery.expr, insertElement notFiveQuery.expr (toKey fiveQuery.constraints), createIsZero_notFive, ?_⟩
  have hfound : searchForAssignment defaultOptions fiveCached
      (insertElement notFiveQuery.expr (toKey fiveQuery.constraints)) = some (some none) := by
    unfold searchForAssignment fiveCached
    rw [SetNode.lookup_insert]
  simp only [lookupAssignment, hneg, Option.bind_eq_bind, Option.bind_some]
  simp only [notFiveQuery] at hfound ⊢
  rw [hfound]
  rfl

end Example

open IndependentSolver in
theorem computeTruthExp_agrees_five : ∃ order : LinearOrder Expr,
    (@computeTruthExp order defaultOptions oracle initial fiveQuery).map (·.1) = some (some true) ∧
      (@computeTruth order defaultOptions oracle initial fiveQuery).map (·.1) = some (some true) ∧
      ¬@RefutationCached order defaultOptions initial fiveQuery := by
  let order : LinearOrder Expr := @linearOrderOfSTO Expr WellOrderingRel _ (Classical.decRel _)
  have hright : oracle.RightInitialValues defaultOptions.constArrayOpt := fun _ _ h => oracle_initialValues _ _ h
  have h := (computeTruthExp_agrees_iff .initial .initial hright oracle_answers fiveQuery_admissible).1 _ _ _ _
    computeTruthExp_five computeTruth_five
  refine ⟨order, ?_, ?_, h.mp ⟨true, rfl, rfl⟩⟩
  · rw [computeTruthExp_five]
    rfl
  · rw [computeTruth_five]
    rfl

open IndependentSolver in
/-- After the query whether the byte is 5, with the option on the query whether it is not 5 fails; without it the
answer is that it is not valid. -/
theorem not_computeTruthExp_agrees : ∃ (order : LinearOrder Expr) (s : CexCache),
    @ReachableExp order defaultOptions s ∧ @Reachable order defaultOptions s ∧
      (SolverCall.truth notFiveQuery : SolverCall Expr ExprArray).Admissible false ∧
      @computeTruthExp order defaultOptions oracle s notFiveQuery = some (none, s) ∧
      ∃ s', @computeTruth order defaultOptions oracle s notFiveQuery = some (some false, s') := by
  let order : LinearOrder Expr := @linearOrderOfSTO Expr WellOrderingRel _ (Classical.decRel _)
  have hright : oracle.RightInitialValues defaultOptions.constArrayOpt := fun _ _ h => oracle_initialValues _ _ h
  have hreach : Reachable defaultOptions fiveCached := by
    refine Reachable.call (r := some (.truth true)) oracle (.truth fiveQuery) .initial hright fiveQuery_admissible ?_
    unfold call
    dsimp only
    rw [computeTruth_five]
    rfl
  have hreachExp : ReachableExp defaultOptions fiveCached := by
    refine ReachableExp.call (r := some (.truth true)) oracle (.truth fiveQuery) .initial hright
      fiveQuery_admissible ?_
    unfold callExp
    dsimp only
    rw [computeTruthExp_five]
    rfl
  have hd : SomewhereDefined notFiveQuery := by
    have hfive := five_defined
    refine List.forall_mem_cons.mpr ⟨?_, fun e he => hfive e (.tail _ he)⟩
    obtain ⟨m, hm⟩ := hfive fiveQuery.expr (.head _)
    exact ⟨m, trivial, hm⟩
  refine ⟨order, fiveCached, hreachExp, hreach, notFiveQuery_admissible, ?_, ?_⟩
  · have hends : ∃ r, computeTruthExp defaultOptions oracle fiveCached notFiveQuery = some r :=
      exists_computeTruthExp fiveCached rfl notFiveQuery_admissible.1 notFiveQuery_admissible.2 hd
    obtain ⟨⟨r, t⟩, hr⟩ := hends
    rcases computeTruthExp_cases hr with ⟨-, rfl, rfl⟩ | ⟨hno, -⟩
    · exact hr
    · exact absurd refutationCached_notFive hno
  · have hends : ∃ r, computeTruth defaultOptions oracle fiveCached notFiveQuery = some r :=
      exists_computeTruth fiveCached rfl notFiveQuery_admissible.1 notFiveQuery_admissible.2 hd
    obtain ⟨⟨r, t⟩, hr⟩ := hends
    obtain ⟨b, rfl⟩ := computeTruth_answers oracle_answers notFiveQuery_admissible.1 notFiveQuery_admissible.2 hr
    have hb := (computeTruth_spec hreach.sound hright notFiveQuery_admissible.1 notFiveQuery_admissible.2 hr).2 b rfl
    have hfalse : b = false := by
      rw [Bool.eq_false_iff, Ne, hb]
      intro hall
      have hmodel : notFiveQuery.IsModel fun a i => if a.size ≤ i then 0 else 5 := by
        refine ⟨fun a i hi => if_pos hi, fun c hc => ?_⟩
        obtain rfl := List.mem_singleton.mp hc
        decide
      exact absurd (hall _ hmodel) (by decide)
    exact ⟨t, hfalse ▸ hr⟩

end CexCachingSolver

end CgsKlee
