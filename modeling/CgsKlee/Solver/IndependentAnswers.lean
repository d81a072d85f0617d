import CgsKlee.Solver.Independent

/-!
# Answers of the independent solver

The calls of `IndependentSolver`.  The first three go to the solver below with the constraints that the expression
depends on: a model of these and a model of all constraints are put together to a model of all constraints in which
the expression has the same value.  `computeInitialValues` puts the values of one factor after the other into a map.
The answers are right for all constraints, and there is an answer if the solver below has one for every factor.
-/

namespace CgsKlee

open Symbolic

/-- The answers that a solver gives are right: those about initial values always, the others if the constraints can be
satisfied. -/
structure SolverImpl.Right (opt : Bool) (S : SolverImpl Expr ExprArray) : Prop where
  answer : ∀ {c : SolverCall Expr ExprArray} {a : SolverAnswer Expr}, c.Admissible opt →
    (∃ m, c.query.IsModel m) → S.answer c = some a → c.RightAnswer a
  initialValues : S.RightInitialValues opt

namespace IndependentSolver

open IndependentElementSet

section Calls

variable (constArrayOpt : Bool) (S : SolverImpl Expr ExprArray)

def required (q : Query Expr) : Query Expr := { q with constraints := (getIndependentConstraints q).2 }

def computeValidity (q : Query Expr) : Option Validity := S.computeValidity (required q)

def computeTruth (q : Query Expr) : Option Bool := S.computeTruth (required q)

def computeValue (q : Query Expr) : Option Expr := S.computeValue (required q)

abbrev RetMap := AList fun _ : ExprArray => List Nat

/-- The values at the given indices are put in the place of the old ones; an index must be one of the array. -/
def overwrite (ds : Finset Nat) (old values : List Nat) : Option (List Nat) :=
  if ∀ i ∈ ds, i < old.length then some (old.mapIdx fun i byte => if i ∈ ds then values.getD i 0 else byte)
  else none

def store (f : IndependentElementSet) (retMap : RetMap) (b : ExprArray × List Nat) : Option RetMap :=
  match retMap.lookup b.1 with
  | some old =>
    -- assert: we're talking about the same array here
    if old.length = b.2.length then
      (overwrite ((f.elements.lookup b.1).getD ∅) old b.2).map (retMap.insert b.1)
    else none
  | none => some (retMap.insert b.1 b.2)

/-- The loop of `computeInitialValues` over the factors.  The inner options are failure of the solver below and a factor
without a solution. -/
def solveFactors (retMap : RetMap) : List IndependentElementSet → Option (Option (Option RetMap))
  | [] => some (some (some retMap))
  | f :: factors =>
    -- assert: no null/empty factors
    if f.exprs = [] then none
    else if f.calculateArrayReferences = [] then solveFactors retMap factors
    else
      match S.computeInitialValues ⟨f.exprs, .ofBool false⟩ f.calculateArrayReferences with
      | none => some none
      | some none => some (some none)
      | some (some values) =>
        -- assert: should be equal number arrays and answers
        if values.length = f.calculateArrayReferences.length then do
          let retMap ← (f.calculateArrayReferences.zip values).foldlM (store f) retMap
          solveFactors retMap factors
        else none

def objectValues (retMap : RetMap) (objects : List ExprArray) : List (List Nat) :=
  objects.map fun arr => (retMap.lookup arr).getD (List.replicate arr.size 0)

/-- `Assignment::evaluate(array, index)` with `allowFreeValues`. -/
def evaluateFreeByte (a : Assignment) (array : ExprArray) (index : Nat) : Option Expr :=
  match a.find array with
  | some bytes =>
    if h : index < bytes.length then some (.ofNat array.range bytes[index])
    else ReadExpr.create constArrayOpt array .nil (.ofNat array.domain index)
  | none => ReadExpr.create constArrayOpt array .nil (.ofNat array.domain index)

/-- The value of an expression, which is asserted to be a constant. -/
def evaluateConstant (a : Assignment) (e : Expr) : Option APInt := do
  match ← ExprEvaluator.visit constArrayOpt (evaluateFreeByte constArrayOpt a) e with
  | .constant c => some c
  | _ => none

def evaluateConstraints (a : Assignment) : List Expr → Option Bool
  | [] => some true
  | e :: es => do
    let c ← evaluateConstant constArrayOpt a e
    if ConstantExpr.isFalse c then some false else evaluateConstraints a es

/-- The assignment of the values to the objects and of the values in `retMap` to other arrays. -/
def createdPoint (objects : List ExprArray) (values : List (List Nat)) (retMap : RetMap) : Assignment :=
  ⟨retMap.entries.foldl (fun bindings b => Assignment.insertBinding b.1 b.2 bindings)
    (Assignment.ofValues objects values).bindings⟩

def assertCreatedPointEvaluatesToTrue (q : Query Expr) (objects : List ExprArray) (values : List (List Nat))
    (retMap : RetMap) : Option Bool := do
  let assign := createdPoint objects values retMap
  if ← evaluateConstraints constArrayOpt assign q.constraints then
    let neg ← q.expr.createIsZero constArrayOpt
    let c ← evaluateConstant constArrayOpt assign neg
    some (ConstantExpr.isTrue c)
  else some false

def computeInitialValues (q : Query Expr) (objects : List ExprArray) :
    Option (Option (Option (List (List Nat)))) := do
  let factors ← getAllIndependentConstraintsSets constArrayOpt q
  match ← solveFactors S ∅ factors with
  | none => some none
  | some none => some (some none)
  | some (some retMap) =>
    let values := objectValues retMap objects
    -- assert: should satisfy the equation
    if ← assertCreatedPointEvaluatesToTrue constArrayOpt q objects values retMap then some (some (some values))
    else none

end Calls

section Required

variable {opt : Bool} {q : Query Expr} {S : SolverImpl Expr ExprArray} {m m₀ : Valuation}

theorem mem_required {c : Expr} (hq : q.Admissible opt) (hc : c ∈ (required q).constraints) : c ∈ q.constraints := by
  obtain ⟨rest, hcol, -⟩ := getIndependentConstraints_spec hq
  exact hcol.constraints.subset (List.mem_append_left _ hc)

theorem required_admissible (hq : q.Admissible opt) : (required q).Admissible opt :=
  ⟨fun c hc => hq.constraints c (mem_required hq hc), hq.expr⟩

theorem isModel_required (hq : q.Admissible opt) (hm : q.IsModel m) : (required q).IsModel m :=
  ⟨hm.1, fun c hc => hm.2 c (mem_required hq hc)⟩

open Classical in
theorem exists_model_of_required (hq : q.Admissible opt) (hm₀ : q.IsModel m₀) (hm : (required q).IsModel m) :
    ∃ m', q.IsModel m' ∧ q.expr.eval m' = q.expr.eval m := by
  obtain ⟨rest, hcol, hapart⟩ := getIndependentConstraints_spec hq
  set closure := (getIndependentConstraints q).1
  let m' : Valuation := fun a i => if closure.Covers a i then m a i else m₀ a i
  have hin : ∀ a i, closure.Covers a i → m' a i = m a i := fun a i h => if_pos h
  refine ⟨m', ⟨fun a i hi => ?_, fun c hc => ?_⟩, ?_⟩
  · by_cases h : closure.Covers a i
    · exact (if_pos h).trans (hm.1 a i hi)
    · exact (if_neg h).trans (hm₀.1 a i hi)
  · rcases List.mem_append.mp (hcol.constraints.symm.subset hc) with hres | hrest
    · rw [hcol.ofExprs.eval_eq (by rw [hcol.exprs]; exact .tail _ hres) hin]
      exact hm.2 c hres
    · -- a constraint that is left out
      obtain ⟨it, hit, rfl⟩ := List.mem_map.mp hrest
      have hadm := (hq.constraints _ hc).1
      have hset := hcol.sets it hit
      have hof : it.2.OfExprs := hset ▸ ofExprs_ofExpr hadm.wellTyped hadm.shortIndices
      have hmem : it.1 ∈ it.2.exprs := by
        rw [hset, exprs_ofExpr]
        exact .head _
      have heval : it.1.eval m' = it.1.eval m₀ :=
        hof.eval_eq hmem fun a i hcov => if_neg ((hapart it hit).not_covers hcov)
      rw [heval]
      exact hm₀.2 _ hc
  · exact hcol.ofExprs.eval_eq (by rw [hcol.exprs]; exact .head _) hin

theorem rightAnswer_of_required (hq : q.Admissible opt) (hm₀ : q.IsModel m₀) :
    (∀ v, SolverCall.RightAnswer (.validity (required q)) (.validity v) →
      SolverCall.RightAnswer (.validity q) (.validity v)) ∧
    (∀ b, SolverCall.RightAnswer (.truth (required q)) (.truth b) →
      SolverCall.RightAnswer (.truth q) (.truth b)) ∧
    ∀ e, SolverCall.RightAnswer (.value (required q)) (.value e) →
      SolverCall.RightAnswer (.value q) (.value e) := by
  have hiff : ∀ v, (∀ m, (required q).IsModel m → q.expr.eval m = v) ↔ ∀ m, q.IsModel m → q.expr.eval m = v := by
    intro v
    constructor
    · exact fun h m hm => h m (isModel_required hq hm)
    · intro h m hm
      obtain ⟨m', hm', heval⟩ := exists_model_of_required hq hm₀ hm
      exact heval.symm.trans (h m' hm')
  have htrue : (required q).Entailed ↔ q.Entailed := hiff _
  have hfalse : (required q).Refuted ↔ q.Refuted := hiff _
  refine ⟨fun v => ?_, fun b => ?_, ?_⟩
  · cases v with
    | true => exact htrue.mp
    | false => exact hfalse.mp
    | unknown => exact And.imp (mt htrue.mpr) (mt hfalse.mpr)
  · exact fun h => h.trans htrue
  · rintro e ⟨c, m, rfl, hm, hc⟩
    obtain ⟨m', hm', heval⟩ := exists_model_of_required hq hm₀ hm
    exact ⟨c, m', rfl, hm', heval.trans hc⟩

end Required

section Values

variable {f : IndependentElementSet} {retMap retMap' : RetMap} {a : ExprArray} {m : Valuation}

def elementsOf (f : IndependentElementSet) (a : ExprArray) : Finset Nat := (f.elements.lookup a).getD ∅

theorem mem_elementsOf {i : Nat} : i ∈ elementsOf f a ↔ f.HasElement a i := by
  unfold elementsOf HasElement
  cases f.elements.lookup a with
  | none => simp
  | some dis => simp

/-- What the array of the pair is bound to after `store`. -/
structure Placed (f : IndependentElementSet) (retMap : RetMap) (b : ExprArray × List Nat) (bytes : List Nat) :
    Prop where
  fresh : retMap.lookup b.1 = none → bytes = b.2
  length : ∀ old, retMap.lookup b.1 = some old → bytes.length = old.length
  byte : ∀ old, retMap.lookup b.1 = some old → ∀ i,
    bytes.getD i 0 = if i ∈ elementsOf f b.1 then b.2.getD i 0 else old.getD i 0

theorem overwrite_eq_some {ds : Finset Nat} {old values bytes : List Nat} (h : overwrite ds old values = some bytes) :
    bytes.length = old.length ∧ ∀ i, bytes.getD i 0 = if i ∈ ds then values.getD i 0 else old.getD i 0 := by
  unfold overwrite at h
  split at h
  · rename_i hds
    obtain rfl := Option.some.inj h
    refine ⟨List.length_mapIdx, fun i => ?_⟩
    rw [List.getD_eq_getElem?_getD, List.getElem?_mapIdx]
    by_cases hi : i < old.length
    · simp [List.getElem?_eq_getElem hi]
    · rw [if_neg fun hmem => hi (hds i hmem), List.getElem?_eq_none (Nat.le_of_not_lt hi)]
      simp [List.getElem?_eq_none (Nat.le_of_not_lt hi)]
  · cases h

theorem store_eq_some {b : ExprArray × List Nat} (h : store f retMap b = some retMap') :
    ∃ bytes, retMap' = retMap.insert b.1 bytes ∧ Placed f retMap b bytes := by
  unfold store at h
  split at h
  · rename_i old hold
    split at h
    · obtain ⟨bytes, hbytes, rfl⟩ := Option.map_eq_some_iff.mp h
      obtain ⟨hlen, hbyte⟩ := overwrite_eq_some hbytes
      refine ⟨bytes, rfl, fun hnone => ?_, fun old' hold' => ?_, fun old' hold' => ?_⟩
      · rw [hold] at hnone
        cases hnone
      · obtain rfl := Option.some.inj (hold.symm.trans hold')
        exact hlen
      · obtain rfl := Option.some.inj (hold.symm.trans hold')
        exact hbyte
    · cases h
  · rename_i hnone
    obtain rfl := Option.some.inj h
    refine ⟨b.2, rfl, fun _ => rfl, fun old hold => ?_, fun old hold => ?_⟩
    · rw [hnone] at hold
      cases hold
    · rw [hnone] at hold
      cases hold

theorem foldlM_store {pairs : List (ExprArray × List Nat)} (hnodup : (pairs.map (·.1)).Nodup)
    (h : pairs.foldlM (store f) retMap = some retMap') :
    (∀ a ∉ pairs.map (·.1), retMap'.lookup a = retMap.lookup a) ∧
      ∀ b ∈ pairs, ∃ bytes, retMap'.lookup b.1 = some bytes ∧ Placed f retMap b bytes := by
  induction pairs generalizing retMap with
  | nil =>
    obtain rfl := Option.some.inj h
    exact ⟨fun _ _ => rfl, nofun⟩
  | cons b pairs ih =>
    rw [List.foldlM_cons] at h
    obtain ⟨retMap₁, h₁, h⟩ := Option.bind_eq_some_iff.mp h
    obtain ⟨bytes, rfl, hplaced⟩ := store_eq_some h₁
    rw [List.map_cons, List.nodup_cons] at hnodup
    obtain ⟨hother, hpairs⟩ := ih hnodup.2 h
    refine ⟨fun a ha => ?_, fun b' hb' => ?_⟩
    · rw [List.map_cons, List.mem_cons, not_or] at ha
      rw [hother a ha.2, AList.lookup_insert_ne ha.1]
    · rcases List.mem_cons.mp hb' with rfl | hb'
      · exact ⟨bytes, by rw [hother _ hnodup.1, AList.lookup_insert], hplaced⟩
      · have hne : b'.1 ≠ b.1 := fun heq => hnodup.1 (heq ▸ List.mem_map_of_mem hb')
        obtain ⟨bytes', hbytes', hplaced'⟩ := hpairs b' hb'
        refine ⟨bytes', hbytes', ?_, ?_, ?_⟩
        · rw [← AList.lookup_insert_ne hne]
          exact hplaced'.fresh
        · rw [← AList.lookup_insert_ne hne]
          exact hplaced'.length
        · rw [← AList.lookup_insert_ne hne]
          exact hplaced'.byte

theorem mem_calculateArrayReferences : a ∈ f.calculateArrayReferences ↔ f.HasArray a := by
  unfold calculateArrayReferences HasArray
  rw [List.mem_dedup, List.mem_append, AList.mem_keys, or_comm]

def contents (retMap : RetMap) : Valuation :=
  fun a i => BitVec.ofNat a.range (((retMap.lookup a).getD []).getD i 0)

def SizedMap (retMap : RetMap) : Prop := ∀ {a : ExprArray} {bytes : List Nat}, retMap.lookup a = some bytes →
  bytes.length = a.size

theorem SizedMap.bounded (h : SizedMap retMap) : (contents retMap).Bounded := by
  intro a i hi
  unfold contents
  cases hlookup : retMap.lookup a with
  | none => simp
  | some bytes =>
    have hlen := h hlookup
    simp [List.getD_eq_getElem?_getD, List.getElem?_eq_none (hlen.le.trans hi)]

/-- After the factors in `solved`: the arrays of these factors are bound, and the values agree on the bytes of each
factor with a model of its expressions. -/
structure Stitched (retMap : RetMap) (solved : List IndependentElementSet) : Prop where
  sized : SizedMap retMap
  bound : ∀ f ∈ solved, ∀ a, f.HasArray a → a ∈ retMap
  origin : ∀ a ∈ retMap, ∃ f ∈ solved, f.HasArray a
  agrees : ∀ f ∈ solved, ∃ m : Valuation, (∀ e ∈ f.exprs, e.eval m = .ofBool true) ∧
    ∀ a i, f.Covers a i → contents retMap a i = m a i

theorem stitched_empty : Stitched ∅ [] :=
  ⟨nofun, nofun, fun a ha => absurd ha (AList.notMem_empty a), nofun⟩

variable {solved : List IndependentElementSet} {values : List (List Nat)}

theorem Stitched.store (h : Stitched retMap solved) (hapart : ∀ g ∈ solved, g.Apart f)
    (hm : m.Bounded) (hexprs : ∀ e ∈ f.exprs, e.eval m = .ofBool true)
    (hvalues : Assignment.ValuesOf m f.calculateArrayReferences values)
    (hstore : (f.calculateArrayReferences.zip values).foldlM (IndependentSolver.store f) retMap = some retMap') :
    Stitched retMap' (f :: solved) := by
  have hkeys : (f.calculateArrayReferences.zip values).map (·.1) = f.calculateArrayReferences :=
    List.map_fst_zip hvalues.length_eq.le
  obtain ⟨hother, hpairs⟩ := foldlM_store (by rw [hkeys]; exact List.nodup_dedup _) hstore
  rw [hkeys] at hother
  have hplaced : ∀ a, f.HasArray a → ∃ v bytes, retMap'.lookup a = some bytes ∧ Placed f retMap (a, v) bytes ∧
      v.length = a.size ∧ ∀ i < a.size, m a i = BitVec.ofNat a.range (v.getD i 0) := by
    intro a ha
    obtain ⟨⟨a, v⟩, hmem, rfl⟩ := List.mem_map.mp (hkeys ▸ mem_calculateArrayReferences.mpr ha)
    obtain ⟨bytes, hbytes, hp⟩ := hpairs _ hmem
    exact ⟨v, bytes, hbytes, hp, (List.forall₂_iff_zip.mp hvalues).2 hmem⟩
  have hunchanged : ∀ a, ¬f.HasArray a → retMap'.lookup a = retMap.lookup a :=
    fun a ha => hother a (mt mem_calculateArrayReferences.mp ha)
  have hbound : ∀ a, f.HasArray a → a ∈ retMap' := by
    intro a ha
    obtain ⟨v, bytes, hbytes, -⟩ := hplaced a ha
    exact AList.lookup_isSome.mp (by rw [hbytes]; rfl)
  have hkept : ∀ a, a ∈ retMap → a ∈ retMap' := by
    intro a ha
    by_cases hf : f.HasArray a
    · exact hbound a hf
    · rw [← AList.lookup_isSome, hunchanged a hf, AList.lookup_isSome]
      exact ha
  refine ⟨?_, ?_, ?_, ?_⟩
  · intro a bytes hbytes
    by_cases hf : f.HasArray a
    · obtain ⟨v, bytes', hbytes', hp, hlen, -⟩ := hplaced a hf
      obtain rfl := Option.some.inj (hbytes.symm.trans hbytes')
      cases hlookup : retMap.lookup a with
      | none => rw [hp.fresh hlookup, hlen]
      | some old => rw [hp.length old hlookup, h.sized hlookup]
    · exact h.sized (hunchanged a hf ▸ hbytes)
  · intro g hg a ha
    rcases List.mem_cons.mp hg with rfl | hg
    · exact hbound a ha
    · exact hkept a (h.bound g hg a ha)
  · intro a ha
    by_cases hf : f.HasArray a
    · exact ⟨f, .head _, hf⟩
    · rw [← AList.lookup_isSome, hunchanged a hf, AList.lookup_isSome] at ha
      obtain ⟨g, hg, hga⟩ := h.origin a ha
      exact ⟨g, .tail _ hg, hga⟩
  · intro g hg
    rcases List.mem_cons.mp hg with rfl | hg
    · refine ⟨m, hexprs, fun a i hcov => ?_⟩
      obtain ⟨v, bytes, hbytes, hp, hlen, hv⟩ := hplaced a hcov.hasArray
      -- the byte is the one of the solution: the array is new or the byte is one of the elements
      have hbyte : bytes.getD i 0 = v.getD i 0 := by
        cases hlookup : retMap.lookup a with
        | none => rw [hp.fresh hlookup]
        | some old =>
          rw [hp.byte old hlookup, if_pos]
          refine mem_elementsOf.mpr (hcov.resolve_left fun hwhole => ?_)
          obtain ⟨g', hg', hg'a⟩ := h.origin a (AList.lookup_isSome.mp (by rw [hlookup]; rfl))
          exact (hapart g' hg').right a hwhole hg'a
      unfold contents
      rw [hbytes, Option.getD_some, hbyte]
      by_cases hi : i < a.size
      · exact (hv i hi).symm
      · rw [hm a i (Nat.le_of_not_lt hi), List.getD_eq_getElem?_getD,
          List.getElem?_eq_none (hlen.le.trans (Nat.le_of_not_lt hi))]
        rfl
    · obtain ⟨m', hexprs', hagree⟩ := h.agrees g hg
      refine ⟨m', hexprs', fun a i hcov => ?_⟩
      rw [← hagree a i hcov]
      unfold contents
      by_cases hf : f.HasArray a
      · -- the byte is no element of the factor
        obtain ⟨v, bytes, hbytes, hp, -⟩ := hplaced a hf
        obtain ⟨old, hold⟩ := Option.isSome_iff_exists.mp (AList.lookup_isSome.mpr (h.bound g hg a hcov.hasArray))
        rw [hbytes, hold, Option.getD_some, Option.getD_some, hp.byte old hold, if_neg]
        exact fun hmem => (hapart g hg).not_covers hcov (Or.inr (mem_elementsOf.mp hmem))
      · rw [hunchanged a hf]

theorem Stitched.exists_store (h : Stitched retMap solved)
    (hvalues : Assignment.ValuesOf m f.calculateArrayReferences values)
    (hbounds : ∀ a i, f.HasElement a i → i < a.size) :
    ∃ retMap', (f.calculateArrayReferences.zip values).foldlM (IndependentSolver.store f) retMap = some retMap' := by
  have hlen : ∀ b ∈ f.calculateArrayReferences.zip values, b.2.length = b.1.size :=
    fun b hb => ((List.forall₂_iff_zip.mp hvalues).2 hb).1
  have hsized : ∀ retMap : RetMap, SizedMap retMap → ∀ pairs : List (ExprArray × List Nat),
      (∀ b ∈ pairs, b.2.length = b.1.size) →
      ∃ retMap', pairs.foldlM (IndependentSolver.store f) retMap = some retMap' := by
    intro retMap hsized pairs hpairs
    induction pairs generalizing retMap with
    | nil => exact ⟨retMap, rfl⟩
    | cons b pairs ih =>
      have hb := hpairs b (.head _)
      have hone : ∃ retMap₁, IndependentSolver.store f retMap b = some retMap₁ := by
        unfold IndependentSolver.store
        cases hlookup : retMap.lookup b.1 with
        | none => exact ⟨_, rfl⟩
        | some old =>
          have hold := hsized hlookup
          have hroom : ∀ i ∈ (f.elements.lookup b.1).getD ∅, i < old.length := by
            intro i hi
            rw [hold]
            exact hbounds b.1 i (mem_elementsOf.mp hi)
          dsimp only
          unfold overwrite
          rw [if_pos (hold.trans hb.symm), if_pos hroom]
          exact ⟨_, rfl⟩
      obtain ⟨retMap₁, hone⟩ := hone
      obtain ⟨bytes, rfl, hplaced⟩ := store_eq_some hone
      obtain ⟨retMap', hrest⟩ := ih (retMap.insert b.1 bytes) (fun {a bytes'} hlookup => by
        by_cases ha : a = b.1
        · subst ha
          rw [AList.lookup_insert] at hlookup
          obtain rfl := Option.some.inj hlookup
          cases hold : retMap.lookup b.1 with
          | none => rw [hplaced.fresh hold, hb]
          | some old => rw [hplaced.length old hold, hsized hold]
        · rw [AList.lookup_insert_ne ha] at hlookup
          exact hsized hlookup) (fun b hb => hpairs b (.tail _ hb))
      exact ⟨retMap', by rw [List.foldlM_cons, hone]; exact hrest⟩
  exact hsized retMap h.sized _ hlen

end Values

end IndependentSolver

end CgsKlee
