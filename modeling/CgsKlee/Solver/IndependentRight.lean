import CgsKlee.Solver.IndependentAnswers

/-!
# The independent solver is right

The answers of `IndependentSolver` are right for the whole query, and the factors are a partition of the constraints and
the negated expression.  Initial values are found, or it is found that there are none, if the solver below answers for
every factor: the values that are put together satisfy every factor, and so the final assertion holds.
-/

namespace CgsKlee

open Symbolic

def SolverImpl.AnswersInitialValues (opt : Bool) (S : SolverImpl Expr ExprArray) : Prop :=
  ∀ (q : Query Expr) (objects : List ExprArray), q.Admissible opt → q.expr.width = 1 →
    ∃ r, S.computeInitialValues q objects = some r

namespace IndependentSolver

open IndependentElementSet

variable {opt : Bool} {q : Query Expr} {S : SolverImpl Expr ExprArray} {m : Valuation}

theorem eq_ofBool_of_isFalse {c : APInt} (h : ConstantExpr.isFalse c = true) : c = .ofBool false := by
  obtain ⟨w, x⟩ := c
  obtain ⟨hw, hx⟩ := of_decide_eq_true h
  obtain rfl : w = 1 := hw
  congr 1
  revert x
  decide

theorem negatedExpr_spec (hq : q.Admissible opt) (hw : q.expr.width = 1) {neg : List Expr}
    (h : negatedExpr opt q = some neg) :
    (∀ e ∈ neg, e.Admissible opt ∧ e.width = 1) ∧
      ∀ m, (∀ e ∈ neg, e.eval m = .ofBool true) ↔ q.expr.eval m = .ofBool false := by
  unfold negatedExpr at h
  split at h
  · rename_i c hc
    split at h
    · rename_i hfalse
      obtain rfl := Option.some.inj h
      refine ⟨List.forall_mem_nil _, fun m => iff_of_true (List.forall_mem_nil _) ?_⟩
      rw [hc]
      exact eq_ofBool_of_isFalse hfalse
    · cases h
  · obtain ⟨e, he, rfl⟩ := Option.map_eq_some_iff.mp h
    obtain ⟨hadm, hwidth, heval⟩ := hq.expr.createIsZero hw he
    simpa using ⟨⟨hadm, hwidth⟩, heval⟩

theorem exists_negatedExpr (hq : q.Admissible opt) (hexpr : ∀ c, q.expr = .constant c → ConstantExpr.isFalse c = true) :
    ∃ neg, negatedExpr opt q = some neg := by
  unfold negatedExpr
  split
  · rename_i c hc
    rw [if_pos (hexpr c hc)]
    exact ⟨[], rfl⟩
  · obtain ⟨e, he, -⟩ := Expr.createIsZero_builds opt hq.expr.wellTyped
    rw [he]
    exact ⟨[e], rfl⟩

theorem admissible_of_mem {neg : List Expr} (hq : q.Admissible opt) (hw : q.expr.width = 1)
    (h : negatedExpr opt q = some neg) : ∀ e ∈ neg ++ q.constraints, e.Admissible opt ∧ e.width = 1 := by
  intro e he
  rcases List.mem_append.mp he with he | he
  · exact (negatedExpr_spec hq hw h).1 e he
  · exact hq.constraints e he

variable {f : IndependentElementSet} {fs solved : List IndependentElementSet} {retMap : RetMap}

theorem factor_admissible (h : ∀ e ∈ f.exprs, e.Admissible opt ∧ e.width = 1) :
    (⟨f.exprs, .ofBool false⟩ : Query Expr).Admissible opt := ⟨h, trivial, trivial, fun _ _ => trivial⟩

/-- What the loop over the factors has found: a factor without a solution, or solutions for all factors that read an
array. -/
def Solved (fs solved : List IndependentElementSet) : Option RetMap → Prop
  | none => ∃ f ∈ fs, ∀ m : Valuation, m.Bounded → ¬∀ e ∈ f.exprs, e.eval m = .ofBool true
  | some retMap => ∃ solved', Stitched retMap solved' ∧ solved ⊆ solved' ∧
      ∀ f ∈ fs, f.calculateArrayReferences ≠ [] → f ∈ solved'

theorem solveFactors_spec (hS : S.RightInitialValues opt) {r : Option RetMap}
    (hadm : ∀ f ∈ fs, ∀ e ∈ f.exprs, e.Admissible opt ∧ e.width = 1) (hst : Stitched retMap solved)
    (hapart : fs.Pairwise Apart) (hsolved : ∀ g ∈ solved, ∀ f ∈ fs, g.Apart f)
    (h : solveFactors S retMap fs = some (some r)) : Solved fs solved r := by
  induction fs generalizing retMap solved with
  | nil =>
    obtain rfl := Option.some.inj (Option.some.inj h)
    exact ⟨solved, hst, List.Subset.refl _, nofun⟩
  | cons f fs ih =>
    obtain ⟨hf, hapart⟩ := List.pairwise_cons.mp hapart
    have hadm' : ∀ f ∈ fs, ∀ e ∈ f.exprs, e.Admissible opt ∧ e.width = 1 := fun f hf => hadm f (.tail _ hf)
    unfold solveFactors at h
    split at h
    · cases h
    · split at h
      · -- no array is read in the factor
        rename_i hnone
        have hrest := ih hadm' hst hapart (fun g hg f hf => hsolved g hg f (.tail _ hf)) h
        cases r with
        | none =>
          obtain ⟨f', hf', hno⟩ := hrest
          exact ⟨f', .tail _ hf', hno⟩
        | some retMap' =>
          obtain ⟨solved', hst', hsub, hall⟩ := hrest
          refine ⟨solved', hst', hsub, fun f' hf' hne => ?_⟩
          rcases List.mem_cons.mp hf' with rfl | hf'
          · exact absurd hnone hne
          · exact hall f' hf' hne
      · split at h
        · cases h
        · rename_i hanswer
          obtain rfl := Option.some.inj (Option.some.inj h)
          have hright := hS (factor_admissible (hadm f (.head _))) rfl hanswer
          exact ⟨f, .head _, fun m hm hall => hright ⟨m, ⟨hm, hall⟩, rfl⟩⟩
        · rename_i values hanswer
          obtain ⟨m, hm, -, hvalues⟩ := hS (factor_admissible (hadm f (.head _))) rfl hanswer
          split at h
          · obtain ⟨retMap₁, hstore, h⟩ := Option.bind_eq_some_iff.mp h
            have hst₁ := hst.store (fun g hg => hsolved g hg f (.head _)) hm.1 hm.2 hvalues hstore
            have hrest := ih hadm' hst₁ hapart (fun g hg f' hf' => by
              rcases List.mem_cons.mp hg with rfl | hg
              · exact hf f' hf'
              · exact hsolved g hg f' (.tail _ hf')) h
            cases r with
            | none =>
              obtain ⟨f', hf', hno⟩ := hrest
              exact ⟨f', .tail _ hf', hno⟩
            | some retMap' =>
              obtain ⟨solved', hst', hsub, hall⟩ := hrest
              refine ⟨solved', hst', fun g hg => hsub (.tail _ hg), fun f' hf' hne => ?_⟩
              rcases List.mem_cons.mp hf' with rfl | hf'
              · exact hsub (.head _)
              · exact hall f' hf' hne
          · cases h

theorem exists_solveFactors (hS : S.RightInitialValues opt) (hanswers : S.AnswersInitialValues opt)
    (hadm : ∀ f ∈ fs, ∀ e ∈ f.exprs, e.Admissible opt ∧ e.width = 1) (hst : Stitched retMap solved)
    (hapart : fs.Pairwise Apart) (hsolved : ∀ g ∈ solved, ∀ f ∈ fs, g.Apart f)
    (hne : ∀ f ∈ fs, f.exprs ≠ []) (hbounds : ∀ f ∈ fs, ∀ a i, f.HasElement a i → i < a.size) :
    ∃ r, solveFactors S retMap fs = some (some r) := by
  induction fs generalizing retMap solved with
  | nil => exact ⟨_, rfl⟩
  | cons f fs ih =>
    obtain ⟨hf, hapart⟩ := List.pairwise_cons.mp hapart
    have ih := @fun retMap solved hst hsolved => @ih retMap solved (fun f hf => hadm f (.tail _ hf)) hst hapart hsolved
      (fun f hf => hne f (.tail _ hf)) (fun f hf => hbounds f (.tail _ hf))
    unfold solveFactors
    rw [if_neg (hne f (.head _))]
    split
    · exact ih _ _ hst fun g hg f hf => hsolved g hg f (.tail _ hf)
    · have hq := factor_admissible (hadm f (.head _))
      obtain ⟨r, hr⟩ := hanswers _ f.calculateArrayReferences hq rfl
      rw [hr]
      cases r with
      | none => exact ⟨none, rfl⟩
      | some values =>
        obtain ⟨m, hm, -, hvalues⟩ := hS hq rfl hr
        obtain ⟨retMap₁, hstore⟩ := hst.exists_store hvalues (hbounds f (.head _))
        have hst₁ := hst.store (fun g hg => hsolved g hg f (.head _)) hm.1 hm.2 hvalues hstore
        dsimp only
        rw [if_pos hvalues.length_eq.symm, hstore]
        refine ih _ _ hst₁ fun g hg f' hf' => ?_
        rcases List.mem_cons.mp hg with rfl | hg
        · exact hf f' hf'
        · exact hsolved g hg f' (.tail _ hf')

/-- What the values of an array in the created point are. -/
def PointBinding (retMap : RetMap) (b : ExprArray × List Nat) : Prop :=
  b.2 = (retMap.lookup b.1).getD (List.replicate b.1.size 0)

theorem createdPoint_bindings (retMap : RetMap) (objects : List ExprArray) :
    let point := createdPoint objects (objectValues retMap objects) retMap
    (∀ b ∈ point.bindings, PointBinding retMap b) ∧ ∀ a ∈ retMap, ∃ v, (a, v) ∈ point.bindings := by
  have hobjects : List.Forall₂ (fun o v => PointBinding retMap (o, v)) objects (objectValues retMap objects) := by
    unfold objectValues
    rw [List.forall₂_map_right_iff]
    exact List.forall₂_same.mpr fun _ _ => rfl
  have hfold : ∀ (entries : List ((_ : ExprArray) × List Nat)) (bindings : List (ExprArray × List Nat)),
      (∀ e ∈ entries, PointBinding retMap (e.1, e.2)) → (∀ b ∈ bindings, PointBinding retMap b) →
      let bindings' := entries.foldl (fun bindings b => Assignment.insertBinding b.1 b.2 bindings) bindings
      (∀ b ∈ bindings', PointBinding retMap b) ∧ bindings ⊆ bindings' ∧ ∀ e ∈ entries, ∃ v, (e.1, v) ∈ bindings' := by
    intro entries
    induction entries with
    | nil => exact fun bindings _ hb => ⟨hb, List.Subset.refl _, nofun⟩
    | cons x entries ih =>
      intro bindings he hb
      obtain ⟨hP, hsub, hmem⟩ := ih (Assignment.insertBinding x.1 x.2 bindings) (fun e h => he e (.tail _ h))
        fun b h => by
          rcases Assignment.mem_insertBinding h with rfl | h
          · exact he x (.head _)
          · exact hb b h
      refine ⟨hP, List.Subset.trans (Assignment.subset_insertBinding x.1 x.2 bindings) hsub, fun e h => ?_⟩
      rcases List.mem_cons.mp h with rfl | h
      · obtain ⟨v, hv⟩ := Assignment.exists_mem_insertBinding e.1 e.2 bindings
        exact ⟨v, hsub hv⟩
      · exact hmem e h
  obtain ⟨hP, -, hmem⟩ := hfold retMap.entries _ (fun e he => by
    unfold PointBinding
    rw [Option.mem_def.mp (AList.mem_lookup_iff.mpr he), Option.getD_some]) (Assignment.mem_ofValues hobjects).1
  refine ⟨hP, fun a ha => ?_⟩
  obtain ⟨bytes, hbytes⟩ := Option.isSome_iff_exists.mp (AList.lookup_isSome.mpr ha)
  exact hmem ⟨a, bytes⟩ (AList.mem_lookup_iff.mp hbytes)

theorem createdPoint_spec (hs : SizedMap retMap) (objects : List ExprArray) :
    let point := createdPoint objects (objectValues retMap objects) retMap
    point.Sized ∧ point.valuation = contents retMap ∧ ∀ a ∈ retMap, ∃ bytes, point.find a = some bytes := by
  obtain ⟨hP, hmem⟩ := createdPoint_bindings retMap objects
  have hfind : ∀ a ∈ retMap, ∃ bytes, (createdPoint objects (objectValues retMap objects) retMap).find a = some bytes := by
    intro a ha
    obtain ⟨v, hv⟩ := hmem a ha
    exact Assignment.find_of_mem hv
  refine ⟨fun b hb => ?_, ?_, hfind⟩
  · rw [hP b hb]
    cases hlookup : retMap.lookup b.1 with
    | none => exact List.length_replicate
    | some bytes => exact hs hlookup
  · funext a i
    unfold Assignment.valuation contents
    congr 1
    cases hf : (createdPoint objects (objectValues retMap objects) retMap).find a with
    | none =>
      have hnone : retMap.lookup a = none := by
        rw [AList.lookup_eq_none]
        intro ha
        obtain ⟨bytes, hbytes⟩ := hfind a ha
        rw [hf] at hbytes
        cases hbytes
      rw [hnone]
    | some bytes =>
      have hbytes : PointBinding retMap (a, bytes) := hP _ (Assignment.mem_of_find hf)
      unfold PointBinding at hbytes
      dsimp only at hbytes
      rw [Option.getD_some, hbytes]
      cases retMap.lookup a with
      | none =>
        simp only [Option.getD_none, List.getD_eq_getElem?_getD, List.getElem?_nil, List.getElem?_replicate]
        split <;> rfl
      | some old => rfl

variable {a : Assignment} {e : Expr}

theorem initialRefines_free (h : a.Sized) : ExprEvaluator.InitialRefines opt (· = a.valuation)
    (evaluateFreeByte opt a) := by
  intro root index e' hroot hdom hlt hsym he'
  have hfree : ReadExpr.create opt root .nil (.ofNat root.domain index) = some e' →
      (Expr.read root .nil (.ofNat root.domain index)).RefinesOn opt (· = a.valuation) e' := by
    intro he'
    obtain ⟨e'', he'', href⟩ := ReadExpr.create_builds opt
      (show (Expr.read root .nil (.ofNat root.domain index)).WellTyped from ⟨hroot, trivial, trivial, rfl⟩)
    obtain rfl := Option.some.inj (he''.symm.trans he')
    exact href.refinesOn
  unfold evaluateFreeByte at he'
  split at he'
  · rename_i bytes hf
    split at he'
    · rename_i hlen
      have hvalue : some (a.evaluateByte root index) = some e' := by
        rw [← he']
        unfold Assignment.evaluateByte
        simp only [hf, dif_pos hlen]
      exact h.initialRefines hroot hdom hlt hsym hvalue
    · exact hfree he'
  · exact hfree he'

theorem evaluateConstant_eq_some {c : APInt} (h : a.Sized) (he : e.Admissible opt)
    (hc : evaluateConstant opt a e = some c) : e.eval a.valuation = c := by
  unfold evaluateConstant at hc
  obtain ⟨v, hv, hc⟩ := Option.bind_eq_some_iff.mp hc
  split at hc
  · obtain rfl := Option.some.inj hc
    have href := ExprEvaluator.visit_refinesOn (initialRefines_free h) he.wellTyped he.shortIndices hv
    exact (href.eval _ rfl fun ho => he.defined ho _).symm
  · cases hc

theorem eq_ofBool_of_not_isFalse {c : APInt} (hw : c.width = 1) (h : ¬ConstantExpr.isFalse c = true) :
    c = .ofBool true := by
  obtain ⟨w, x⟩ := c
  obtain rfl : w = 1 := hw
  congr 1
  revert x
  decide

theorem evaluateConstraints_eq_some (h : a.Sized) {es : List Expr} (hes : ∀ e ∈ es, e.Admissible opt ∧ e.width = 1)
    (ht : evaluateConstraints opt a es = some true) : ∀ e ∈ es, e.eval a.valuation = .ofBool true := by
  induction es with
  | nil => exact nofun
  | cons x es ih =>
    unfold evaluateConstraints at ht
    obtain ⟨c, hc, ht⟩ := Option.bind_eq_some_iff.mp ht
    split at ht
    · cases ht
    · rename_i hfalse
      obtain ⟨hx, hw⟩ := hes x (.head _)
      have heval := evaluateConstant_eq_some h hx hc
      intro e he
      rcases List.mem_cons.mp he with rfl | he
      · rw [heval]
        refine eq_ofBool_of_not_isFalse ?_ hfalse
        rw [← heval, e.width_eval _ hx.wellTyped, hw]
      · exact ih (fun e he => hes e (.tail _ he)) ht e he

theorem assertCreatedPoint_sound (hq : q.Admissible opt) (hw : q.expr.width = 1) (hs : SizedMap retMap)
    (objects : List ExprArray)
    (h : assertCreatedPointEvaluatesToTrue opt q objects (objectValues retMap objects) retMap = some true) :
    q.IsModel (contents retMap) ∧ q.expr.eval (contents retMap) = .ofBool false := by
  obtain ⟨hsized, hval, -⟩ := createdPoint_spec hs objects
  unfold assertCreatedPointEvaluatesToTrue at h
  obtain ⟨b, hb, h⟩ := Option.bind_eq_some_iff.mp h
  cases b with
  | false => cases h
  | true =>
    have hmodel := evaluateConstraints_eq_some hsized hq.constraints hb
    obtain ⟨neg, hneg, h⟩ := Option.bind_eq_some_iff.mp h
    obtain ⟨c, hc, h⟩ := Option.bind_eq_some_iff.mp h
    obtain ⟨hadm, -, heval⟩ := hq.expr.createIsZero hw hneg
    have hvalue := evaluateConstant_eq_some hsized hadm hc
    rw [hval] at hmodel hvalue
    refine ⟨⟨hs.bounded, hmodel⟩, (heval _).mp ?_⟩
    rw [hvalue]
    exact Assignment.eq_ofBool_of_isTrue (Option.some.inj h)

theorem valuesOf_objectValues (hs : SizedMap retMap) (objects : List ExprArray) :
    Assignment.ValuesOf (contents retMap) objects (objectValues retMap objects) := by
  unfold Assignment.ValuesOf objectValues
  rw [List.forall₂_map_right_iff]
  refine List.forall₂_same.mpr fun o _ => ?_
  unfold contents
  cases hlookup : retMap.lookup o with
  | none =>
    refine ⟨List.length_replicate, fun i hi => ?_⟩
    simp [hi]
  | some bytes => exact ⟨hs hlookup, fun _ _ => rfl⟩

theorem getAll_factors (hq : q.Admissible opt) (hw : q.expr.width = 1) {neg : List Expr}
    (hneg : negatedExpr opt q = some neg) :
    ∃ factors, getAllIndependentConstraintsSets opt q = some factors ∧ Factors (neg ++ q.constraints) factors := by
  refine ⟨separateAll ((neg ++ q.constraints).map ofExpr), ?_, separateAll_factors fun e he => ?_⟩
  · unfold getAllIndependentConstraintsSets
    rw [hneg]
    rfl
  · have hadm := (admissible_of_mem hq hw hneg e he).1
    exact ⟨hadm.wellTyped, hadm.shortIndices⟩

theorem Factors.mem {es : List Expr} {factors : List IndependentElementSet} (h : Factors es factors) {e : Expr} :
    e ∈ es ↔ ∃ f ∈ factors, e ∈ f.exprs := by
  rw [← h.perm.mem_iff, List.mem_flatMap]

theorem computeInitialValues_sound (hS : S.RightInitialValues opt) (hq : q.Admissible opt) (hw : q.expr.width = 1)
    {objects : List ExprArray} {r : Option (List (List Nat))}
    (h : computeInitialValues opt S q objects = some (some r)) : IsInitialValues q objects r := by
  unfold computeInitialValues at h
  obtain ⟨factors, hfactors, h⟩ := Option.bind_eq_some_iff.mp h
  obtain ⟨out, hout, h⟩ := Option.bind_eq_some_iff.mp h
  obtain ⟨neg, hneg, -⟩ := Option.bind_eq_some_iff.mp hfactors
  obtain ⟨factors', hfactors', hF⟩ := getAll_factors hq hw hneg
  obtain rfl := Option.some.inj (hfactors'.symm.trans hfactors)
  have hadm : ∀ f ∈ factors', ∀ e ∈ f.exprs, e.Admissible opt ∧ e.width = 1 :=
    fun f hf e he => admissible_of_mem hq hw hneg e (hF.mem.mpr ⟨f, hf, he⟩)
  cases out with
  | none => cases h
  | some solution =>
    have hsolved := solveFactors_spec hS hadm stitched_empty hF.apart nofun hout
    cases solution with
    | none =>
      obtain rfl := Option.some.inj (Option.some.inj h)
      obtain ⟨f, hf, hno⟩ := hsolved
      rintro ⟨m, hm, hexpr⟩
      refine hno m hm.1 fun e he => ?_
      rcases List.mem_append.mp (hF.mem.mpr ⟨f, hf, he⟩) with he | he
      · exact ((negatedExpr_spec hq hw hneg).2 m).mpr hexpr e he
      · exact hm.2 e he
    | some retMap =>
      obtain ⟨solved, hst, -, -⟩ := hsolved
      obtain ⟨b, hb, h⟩ := Option.bind_eq_some_iff.mp h
      cases b with
      | false => cases h
      | true =>
        obtain rfl := Option.some.inj (Option.some.inj h)
        obtain ⟨hm, hexpr⟩ := assertCreatedPoint_sound hq hw hst.sized objects hb
        exact ⟨_, hm, hexpr, valuesOf_objectValues hst.sized objects⟩

end IndependentSolver

mutual

theorem Expr.forallArrays_of_reads {P : ExprArray → Prop} : ∀ e : Expr, (∀ site ∈ e.findReads, P site.root) →
    e.ForallArrays P
  | .constant _, _ => trivial
  | .notOptimized src, h => src.forallArrays_of_reads h
  | .read root head index, h => by
    rw [Expr.findReads, List.forall_mem_cons, List.forall_mem_append] at h
    exact ⟨h.1, head.forallArrays_of_reads h.2.2, index.forallArrays_of_reads h.2.1⟩
  | .select c t f, h => by
    rw [Expr.findReads, List.forall_mem_append, List.forall_mem_append] at h
    exact ⟨c.forallArrays_of_reads h.1, t.forallArrays_of_reads h.2.1, f.forallArrays_of_reads h.2.2⟩
  | .concat l r, h => by
    rw [Expr.findReads, List.forall_mem_append] at h
    exact ⟨l.forallArrays_of_reads h.1, r.forallArrays_of_reads h.2⟩
  | .extract e _ _, h => e.forallArrays_of_reads h
  | .cast _ e _, h => e.forallArrays_of_reads h
  | .not e, h => e.forallArrays_of_reads h
  | .binary _ l r, h => by
    rw [Expr.findReads, List.forall_mem_append] at h
    exact ⟨l.forallArrays_of_reads h.1, r.forallArrays_of_reads h.2⟩
  | .cmp _ l r, h => by
    rw [Expr.findReads, List.forall_mem_append] at h
    exact ⟨l.forallArrays_of_reads h.1, r.forallArrays_of_reads h.2⟩

theorem UpdateNode.forallArrays_of_reads {P : ExprArray → Prop} : ∀ u : UpdateNode,
    (∀ site ∈ u.findReads, P site.root) → u.ForallArrays P
  | .nil, _ => trivial
  | .cons i v next, h => by
    rw [UpdateNode.findReads, List.forall_mem_append, List.forall_mem_append] at h
    exact ⟨i.forallArrays_of_reads h.1, v.forallArrays_of_reads h.2.1, next.forallArrays_of_reads h.2.2⟩

end

mutual

theorem Expr.Defined.constant_index_lt {m : Valuation} : ∀ {e : Expr}, e.Defined m → ∀ site ∈ e.findReads,
    ∀ c, site.index = .constant c → c.toNat < site.root.size
  | .constant _, _ => nofun
  | .notOptimized src, h => Expr.Defined.constant_index_lt (e := src) h
  | .read root head index, h => by
    rw [Expr.findReads, List.forall_mem_cons, List.forall_mem_append]
    refine ⟨?_, Expr.Defined.constant_index_lt h.2.1, UpdateNode.Defined.constant_index_lt h.1⟩
    rintro c rfl
    exact h.2.2
  | .select c t f, h => by
    rw [Expr.findReads, List.forall_mem_append, List.forall_mem_append]
    exact ⟨Expr.Defined.constant_index_lt h.1, Expr.Defined.constant_index_lt h.2.1,
      Expr.Defined.constant_index_lt h.2.2⟩
  | .concat l r, h => by
    rw [Expr.findReads, List.forall_mem_append]
    exact ⟨Expr.Defined.constant_index_lt h.1, Expr.Defined.constant_index_lt h.2⟩
  | .extract e _ _, h => Expr.Defined.constant_index_lt (e := e) h
  | .cast _ e _, h => Expr.Defined.constant_index_lt (e := e) h
  | .not e, h => Expr.Defined.constant_index_lt (e := e) h
  | .binary _ l r, h => by
    rw [Expr.findReads, List.forall_mem_append]
    exact ⟨Expr.Defined.constant_index_lt h.1, Expr.Defined.constant_index_lt h.2.1⟩
  | .cmp _ l r, h => by
    rw [Expr.findReads, List.forall_mem_append]
    exact ⟨Expr.Defined.constant_index_lt h.1, Expr.Defined.constant_index_lt h.2⟩

theorem UpdateNode.Defined.constant_index_lt {m : Valuation} : ∀ {u : UpdateNode}, u.Defined m → ∀ site ∈ u.findReads,
    ∀ c, site.index = .constant c → c.toNat < site.root.size
  | .nil, _ => nofun
  | .cons i v next, h => by
    rw [UpdateNode.findReads, List.forall_mem_append, List.forall_mem_append]
    exact ⟨Expr.Defined.constant_index_lt h.1, Expr.Defined.constant_index_lt h.2.1,
      UpdateNode.Defined.constant_index_lt h.2.2⟩

end

theorem Expr.Canonical.isConstant {m : Valuation} : ∀ {e : Expr}, e.Canonical → e.NoNotOptimized → e.Defined m →
    (∀ site ∈ e.findReads, ¬site.Aliases) → e.isConstant = true
  | .constant _, _, _, _, _ => rfl
  | .notOptimized _, _, hn, _, _ => hn.elim
  | .read root head index, h, hn, hd, hr => by
    rw [Expr.findReads, List.forall_mem_cons, List.forall_mem_append] at hr
    obtain ⟨hconst, hhead⟩ := not_not.mp hr.1
    obtain ⟨c, rfl⟩ := Expr.exists_constant (Expr.Canonical.isConstant h.2.1 hn.2 hd.2.1 hr.2.1)
    have hknown : ReadExpr.isKnown root head (.constant c) = true := decide_eq_true ⟨hd.2.2, hhead, hconst⟩
    rw [h.2.2] at hknown
    cases hknown
  | .select c t f, h, hn, hd, hr => by
    rw [Expr.findReads, List.forall_mem_append] at hr
    have hc := Expr.Canonical.isConstant h.1 hn.1 hd.1 hr.1
    rw [h.2.2.2] at hc
    cases hc
  | .concat l r, h, hn, hd, hr => by
    rw [Expr.findReads, List.forall_mem_append] at hr
    have hc := h.2.2
    rw [Expr.Canonical.isConstant h.1 hn.1 hd.1 hr.1, Expr.Canonical.isConstant h.2.1 hn.2 hd.2 hr.2] at hc
    cases hc
  | .extract e _ _, h, hn, hd, hr => by
    have hc := Expr.Canonical.isConstant (e := e) h.1 hn hd hr
    rw [h.2.1] at hc
    cases hc
  | .cast _ e _, h, hn, hd, hr => by
    have hc := Expr.Canonical.isConstant (e := e) h.1 hn hd hr
    rw [h.2.1] at hc
    cases hc
  | .not e, h, hn, hd, hr => by
    have hc := Expr.Canonical.isConstant (e := e) h.1 hn hd hr
    rw [h.2] at hc
    cases hc
  | .binary _ l r, h, hn, hd, hr => by
    rw [Expr.findReads, List.forall_mem_append] at hr
    have hc := h.2.2.1
    rw [Expr.Canonical.isConstant h.1 hn.1 hd.1 hr.1, Expr.Canonical.isConstant h.2.1 hn.2 hd.2.1 hr.2] at hc
    cases hc
  | .cmp _ l r, h, hn, hd, hr => by
    rw [Expr.findReads, List.forall_mem_append] at hr
    have hc := h.2.2.1
    rw [Expr.Canonical.isConstant h.1 hn.1 hd.1 hr.1, Expr.Canonical.isConstant h.2.1 hn.2 hd.2 hr.2] at hc
    cases hc

theorem AndExpr.eq_of_create {l r e : Expr} (hl : l.isConstant = false) (hr : r.isConstant = false)
    (he : AndExpr.create l r = some e) : e = .binary .and l r := by
  unfold AndExpr.create createR at he
  split at he
  · split at he
    · cases hl
    · cases hl
    · cases hr
    · exact (Option.some.inj he).symm
  · cases he

theorem EqExpr.createPartialR_findReads {opt : Bool} {cl : APInt} {r e' : Expr} (hcl : cl.width = 1) (hr : r.Canonical)
    (hwt : r.WellTyped) (hw : cl.width = r.width) (hc : r.isConstant = false)
    (he : EqExpr.createPartialR opt cl r = some e') : e'.isConstant = false ∧ e'.findReads = r.findReads := by
  have hplain : ∀ {cl r e'}, r.isConstant = false → EqExpr.plain (.constant cl) r = some e' →
      e'.isConstant = false ∧ e'.findReads = r.findReads := by
    intro cl r e' hc he
    unfold EqExpr.plain at he
    split at he
    · rename_i heq
      rw [← heq] at hc
      cases hc
    · obtain rfl := Option.some.inj he
      exact ⟨rfl, rfl⟩
  have hwith : ∀ {left x : Expr} {c : APInt} {y : Option Expr}, left.isConstant = false →
      EqExpr.withConstant left c y = some x → y = some x := by
    intro left x c y hleft hx
    unfold EqExpr.withConstant at hx
    split at hx
    · split at hx
      · cases hleft
      · exact hx
    · cases hx
  fun_induction EqExpr.createPartialR opt cl r generalizing e' with
  | case1 cl r h1 htrue =>
    obtain rfl := Option.some.inj he
    exact ⟨hc, rfl⟩
  | case2 cl h1 htrue c right hfalse =>
    obtain rfl := Option.some.inj he
    exact ⟨hr.2.2.1, rfl⟩
  | case4 cl h1 htrue left right ihLeft ihRight =>
    have hleft : left.width = 1 := hw.symm.trans h1
    have hright : right.width = 1 := hwt.2.2.symm.trans hleft
    obtain ⟨-, hcl, hcr⟩ := hr.2.2.2 hleft
    obtain ⟨l', hl', he⟩ := Option.bind_eq_some_iff.mp he
    obtain ⟨r', hr', he⟩ := Option.bind_eq_some_iff.mp he
    obtain ⟨hl'c, hl'r⟩ := ihLeft hleft hr.1 hwt.1 rfl hcl (hwith hcl hl')
    obtain ⟨hr'c, hr'r⟩ := ihRight hright hr.2.1 hwt.2.1 rfl hcr (hwith hcr hr')
    obtain rfl := AndExpr.eq_of_create hl'c hr'c he
    exact ⟨rfl, by rw [Expr.findReads, Expr.findReads, hl'r, hr'r]⟩
  | case3 cl | case5 cl => exact hplain hc he
  | _ => exact absurd hcl ‹_›

theorem Expr.createIsZero_findReads {opt : Bool} {e e' : Expr} (hw : e.width = 1) (hcan : e.Canonical)
    (hwt : e.WellTyped) (hc : e.isConstant = false) (he : e.createIsZero opt = some e') :
    e'.findReads = e.findReads := by
  unfold Expr.createIsZero EqExpr.create createR at he
  rw [if_pos (by simp)] at he
  cases e with
  | constant v => cases hc
  | _ => exact (EqExpr.createPartialR_findReads hw hcan hwt rfl hc he).2

theorem Expr.structural_noNotOptimized : Expr.Structural Expr.NoNotOptimized :=
  ⟨fun _ => trivial, fun hl hr => ⟨hl, hr⟩, id, Iff.rfl⟩

/-- What it takes for the final assertion to hold: nothing is kept from being optimized, in every model of the
constraints the expressions are defined, and the expression is as the constructors make it. -/
structure Query.Evaluable (q : Query Expr) : Prop where
  noNotOptimized : ∀ e ∈ q.expr :: q.constraints, e.NoNotOptimized
  defined : ∀ m, q.IsModel m → ∀ e ∈ q.expr :: q.constraints, e.Defined m
  canonical : q.expr.Canonical

namespace IndependentSolver

open IndependentElementSet

variable {opt : Bool} {q : Query Expr} {S : SolverImpl Expr ExprArray}

theorem negatedExpr_evaluable (hq : q.Admissible opt) (hw : q.expr.width = 1) (he : q.Evaluable) {m : Valuation}
    (hm : q.IsModel m) {neg : List Expr} (hneg : negatedExpr opt q = some neg) :
    ∀ e ∈ neg, e.NoNotOptimized ∧ e.Defined m ∧ ∃ site ∈ e.findReads, site.Aliases := by
  unfold negatedExpr at hneg
  split at hneg
  · split at hneg
    · obtain rfl := Option.some.inj hneg
      exact List.forall_mem_nil _
    · cases hneg
  · rename_i hconst
    obtain ⟨e, hzero, rfl⟩ := Option.map_eq_some_iff.mp hneg
    have hexpr := he.noNotOptimized q.expr (.head _)
    have hdef := he.defined m hm q.expr (.head _)
    intro e' he'
    obtain rfl := List.mem_singleton.mp he'
    obtain ⟨e'', he'', href⟩ := Expr.createIsZero_builds opt hq.expr.wellTyped
    obtain rfl := Option.some.inj (he''.symm.trans hzero)
    refine ⟨?_, href.defined m ⟨hdef, trivial⟩, ?_⟩
    · exact Expr.createIsZero_structural Expr.structural_noNotOptimized hq.expr.wellTyped hw hexpr hzero
    · have hc := Expr.isConstant_eq_false hconst
      rw [Expr.createIsZero_findReads hw he.canonical hq.expr.wellTyped hc hzero]
      by_contra hno
      have hconst := he.canonical.isConstant hexpr hdef fun site hsite halias => hno ⟨site, hsite, halias⟩
      rw [hc] at hconst
      cases hconst

theorem evaluateConstant_of_true {a : Assignment} (h : a.Sized) {e : Expr} (he : e.Admissible opt)
    (hn : e.NoNotOptimized) (hd : e.Defined a.valuation)
    (hbound : ∀ site ∈ e.findReads, site.root.isSymbolicArray = true → ∃ bytes, a.find site.root = some bytes) :
    evaluateConstant opt a e = some (e.eval a.valuation) := by
  have hconst : e.ForallArrays (ExprEvaluator.InitialConstant (evaluateFreeByte opt a)) := by
    refine e.forallArrays_of_reads fun site hsite hsym i hi => ?_
    obtain ⟨bytes, hbytes⟩ := hbound site hsite hsym
    have hlen : bytes.length = site.root.size := h _ (Assignment.mem_of_find hbytes)
    unfold FoldsTo evaluateFreeByte
    simp only [hbytes, dif_pos (hlen ▸ hi)]
    exact ⟨_, rfl⟩
  obtain ⟨c, hc⟩ := ExprEvaluator.visit_constant (initialRefines_free h) he.wellTyped he.shortIndices hn hconst hd
  have href := ExprEvaluator.visit_refinesOn (initialRefines_free h) he.wellTyped he.shortIndices hc
  have heval : c = e.eval a.valuation := href.eval _ rfl fun _ => hd
  unfold evaluateConstant
  rw [hc, ← heval]
  rfl

theorem evaluateConstraints_of_true {a : Assignment} {es : List Expr}
    (h : ∀ e ∈ es, evaluateConstant opt a e = some (.ofBool true)) : evaluateConstraints opt a es = some true := by
  induction es with
  | nil => rfl
  | cons e es ih =>
    unfold evaluateConstraints
    rw [h e (.head _)]
    exact ih fun e he => h e (.tail _ he)

theorem exists_mayRead {e : Expr} {site : ReadSite} (hsite : site ∈ e.findReads) (halias : site.Aliases) :
    ∃ i, e.MayRead site.root i := by
  by_cases hc : ∃ c, site.index = .constant c
  · obtain ⟨c, hc⟩ := hc
    refine ⟨c.toNat, site, hsite, halias, rfl, fun c' hc' => ?_⟩
    rw [hc] at hc'
    cases hc'
    rfl
  · exact ⟨0, site, hsite, halias, rfl, fun c hc' => absurd ⟨c, hc'⟩ hc⟩

theorem hasArray_of_read {f : IndependentElementSet} (hf : f.OfExprs) {e : Expr} (he : e ∈ f.exprs) {site : ReadSite}
    (hsite : site ∈ e.findReads) (halias : site.Aliases) : f.HasArray site.root := by
  obtain ⟨i, hread⟩ := exists_mayRead hsite halias
  exact (hf.covers.mpr ⟨e, he, hread⟩).hasArray

theorem Factors.element_lt {es : List Expr} {factors : List IndependentElementSet} (hF : Factors es factors)
    {m : Valuation} (hd : ∀ e ∈ es, e.Defined m) :
    ∀ f ∈ factors, ∀ a i, f.HasElement a i → i < a.size := by
  intro f hf a i helement
  obtain ⟨e, he, site, hsite, rfl, c, hc, rfl⟩ := (hF.ofExprs f hf).element helement
  exact (hd e (hF.mem.mpr ⟨f, hf, he⟩)).constant_index_lt site hsite c hc

variable {factors solved : List IndependentElementSet} {neg : List Expr} {retMap : RetMap} {m₀ : Valuation}

theorem Stitched.eval_true (hst : Stitched retMap solved) (hF : Factors (neg ++ q.constraints) factors)
    (hall : ∀ f ∈ factors, f.calculateArrayReferences ≠ [] → f ∈ solved) (hm₀ : q.IsModel m₀)
    (hneg : ∀ e ∈ neg, ∃ site ∈ e.findReads, site.Aliases) :
    ∀ e ∈ neg ++ q.constraints, e.eval (contents retMap) = .ofBool true := by
  intro e he
  obtain ⟨f, hf, hef⟩ := hF.mem.mp he
  have hof := hF.ofExprs f hf
  by_cases hnone : f.calculateArrayReferences = []
  · -- no byte of a symbolic array is read, so that the value is the one in any model of the constraints
    have hno : ∀ a, ¬f.HasArray a := by
      intro a ha
      have := mem_calculateArrayReferences.mpr ha
      rw [hnone] at this
      cases this
    rcases List.mem_append.mp he with hen | hec
    · obtain ⟨site, hsite, halias⟩ := hneg e hen
      exact absurd (hasArray_of_read hof hef hsite halias) (hno _)
    · have heval : e.eval (contents retMap) = e.eval m₀ :=
        hof.eval_eq hef fun a i hcov => absurd hcov.hasArray (hno a)
      rw [heval]
      exact hm₀.2 e hec
  · obtain ⟨m, hm, hagree⟩ := hst.agrees f (hall f hf hnone)
    rw [hof.eval_eq hef hagree]
    exact hm e hef

theorem assertCreatedPoint_of_stitched (hq : q.Admissible opt) (hw : q.expr.width = 1) (he : q.Evaluable)
    (hneg : negatedExpr opt q = some neg) (hst : Stitched retMap solved) (hF : Factors (neg ++ q.constraints) factors)
    (hall : ∀ f ∈ factors, f.calculateArrayReferences ≠ [] → f ∈ solved) (hm₀ : q.IsModel m₀)
    (objects : List ExprArray) :
    assertCreatedPointEvaluatesToTrue opt q objects (objectValues retMap objects) retMap = some true := by
  have htrue := hst.eval_true hF hall hm₀ fun e h => (negatedExpr_evaluable hq hw he hm₀ hneg e h).2.2
  have hm : q.IsModel (contents retMap) :=
    ⟨SizedMap.bounded hst.sized, fun c hc => htrue c (List.mem_append_right _ hc)⟩
  have hfalse : q.expr.eval (contents retMap) = .ofBool false :=
    ((negatedExpr_spec hq hw hneg).2 _).mp fun e h => htrue e (List.mem_append_left _ h)
  obtain ⟨hsized, hval, hfind⟩ := createdPoint_spec hst.sized objects
  have hbound : ∀ e ∈ neg ++ q.constraints, ∀ site ∈ e.findReads, site.root.isSymbolicArray = true →
      ∃ bytes, (createdPoint objects (objectValues retMap objects) retMap).find site.root = some bytes := by
    intro e hmem site hsite hsym
    obtain ⟨f, hf, hef⟩ := hF.mem.mp hmem
    have halias : site.Aliases := fun h => by
      rw [hsym] at h
      cases h.1
    have harray := hasArray_of_read (hF.ofExprs f hf) hef hsite halias
    refine hfind _ (hst.bound f (hall f hf fun hnone => ?_) _ harray)
    have := mem_calculateArrayReferences.mpr harray
    rw [hnone] at this
    cases this
  obtain ⟨n, hn, href⟩ := Expr.createIsZero_builds opt hq.expr.wellTyped
  obtain ⟨hadm, -, heval⟩ := hq.expr.createIsZero hw hn
  have hnbound : ∀ site ∈ n.findReads, site.root.isSymbolicArray = true →
      ∃ bytes, (createdPoint objects (objectValues retMap objects) retMap).find site.root = some bytes := by
    cases hexpr : q.expr with
    | constant c =>
      rw [hexpr] at hn
      obtain rfl := Option.some.inj ((if_pos rfl).symm.trans hn)
      exact nofun
    | _ =>
      refine hbound n (List.mem_append_left _ ?_)
      unfold negatedExpr at hneg
      rw [hexpr] at hneg hn
      dsimp only at hneg
      rw [hn] at hneg
      obtain rfl := Option.some.inj hneg
      exact .head _
  have hconstraints : evaluateConstraints opt (createdPoint objects (objectValues retMap objects) retMap)
      q.constraints = some true := by
    refine evaluateConstraints_of_true fun c hc => ?_
    rw [evaluateConstant_of_true hsized (hq.constraints c hc).1 (he.noNotOptimized c (.tail _ hc))
      (hval ▸ he.defined _ hm c (.tail _ hc)) (hbound c (List.mem_append_right _ hc)), hval]
    exact congrArg some (hm.2 c hc)
  have hvalue : evaluateConstant opt (createdPoint objects (objectValues retMap objects) retMap) n =
      some (.ofBool true) := by
    rw [evaluateConstant_of_true hsized hadm (Expr.createIsZero_structural Expr.structural_noNotOptimized
      hq.expr.wellTyped hw (he.noNotOptimized _ (.head _)) hn)
      (hval ▸ href.defined _ ⟨he.defined _ hm _ (.head _), trivial⟩) hnbound, hval]
    exact congrArg some ((heval _).mpr hfalse)
  unfold assertCreatedPointEvaluatesToTrue
  simp only [hconstraints, Option.bind_eq_bind, Option.bind_some, if_true, hn, hvalue]
  decide

theorem exists_computeInitialValues (hS : S.RightInitialValues opt) (hanswers : S.AnswersInitialValues opt)
    (hq : q.Admissible opt) (hw : q.expr.width = 1) (he : q.Evaluable) (hm₀ : q.IsModel m₀)
    (hexpr : ∀ c, q.expr = .constant c → ConstantExpr.isFalse c = true) (objects : List ExprArray) :
    ∃ r, computeInitialValues opt S q objects = some (some r) := by
  obtain ⟨neg, hneg⟩ := exists_negatedExpr hq hexpr
  obtain ⟨factors, hfactors, hF⟩ := getAll_factors hq hw hneg
  have hadm : ∀ f ∈ factors, ∀ e ∈ f.exprs, e.Admissible opt ∧ e.width = 1 :=
    fun f hf e he => admissible_of_mem hq hw hneg e (hF.mem.mpr ⟨f, hf, he⟩)
  have hdef : ∀ e ∈ neg ++ q.constraints, e.Defined m₀ := by
    intro e hmem
    rcases List.mem_append.mp hmem with hmem | hmem
    · exact (negatedExpr_evaluable hq hw he hm₀ hneg e hmem).2.1
    · exact he.defined m₀ hm₀ e (.tail _ hmem)
  obtain ⟨r, hr⟩ := exists_solveFactors hS hanswers hadm stitched_empty hF.apart nofun hF.nonempty
    (hF.element_lt hdef)
  have hsolved := solveFactors_spec hS hadm stitched_empty hF.apart nofun hr
  unfold computeInitialValues
  rw [hfactors]
  simp only [Option.bind_eq_bind, Option.bind_some, hr]
  cases r with
  | none => exact ⟨none, rfl⟩
  | some retMap =>
    obtain ⟨solved, hst, -, hall⟩ := hsolved
    dsimp only
    rw [assertCreatedPoint_of_stitched hq hw he hneg hst hF hall hm₀ objects]
    exact ⟨_, rfl⟩

/-- The factors are a partition of the expressions, and no two of them read a common byte. -/
structure IsPartition (es : List Expr) (factors : List IndependentElementSet) : Prop where
  perm : (factors.flatMap (·.exprs)).Perm es
  nonempty : ∀ f ∈ factors, f.exprs ≠ []
  disjoint : factors.Pairwise fun f g => ∀ e ∈ f.exprs, ∀ e' ∈ g.exprs, ∀ a i, e.MayRead a i → ¬e'.MayRead a i

theorem Factors.isPartition {es : List Expr} (h : Factors es factors) : IsPartition es factors where
  perm := h.perm
  nonempty := h.nonempty
  disjoint := by
    refine h.apart.imp_of_mem fun {f g} hf hg hapart e he e' he' a i hread hread' => ?_
    exact hapart.not_covers ((h.ofExprs f hf).covers.mpr ⟨e, he, hread⟩)
      ((h.ofExprs g hg).covers.mpr ⟨e', he', hread'⟩)

/-- The independent solver changes no answer.  Validity, truth and values are right for all constraints.  The factors
are a partition of the constraints and of what says that the expression is false, and no two of them read a common byte.
Initial values are those of a model of all constraints in which the expression is false, or there is no such model; and
there is an answer if the solver below has one for every factor and everything can be evaluated. -/
theorem independentSolver_right (hS : S.Right opt) (hq : q.Admissible opt) (hsat : ∃ m, q.IsModel m) :
    (∀ e ∈ computeValue S q, SolverCall.RightAnswer (.value q) (.value e)) ∧
    (q.expr.width = 1 →
      (∀ v ∈ computeValidity S q, SolverCall.RightAnswer (.validity q) (.validity v)) ∧
      (∀ b ∈ computeTruth S q, SolverCall.RightAnswer (.truth q) (.truth b)) ∧
      ((∀ c, q.expr = .constant c → ConstantExpr.isFalse c = true) →
        (∃ neg factors, negatedExpr opt q = some neg ∧
          (∀ m, (∀ e ∈ neg, e.eval m = .ofBool true) ↔ q.expr.eval m = .ofBool false) ∧
          getAllIndependentConstraintsSets opt q = some factors ∧ IsPartition (neg ++ q.constraints) factors) ∧
        (∀ objects r, computeInitialValues opt S q objects = some (some r) → IsInitialValues q objects r) ∧
        (S.AnswersInitialValues opt → q.Evaluable → ∀ objects, ∃ r,
          computeInitialValues opt S q objects = some (some r)))) := by
  obtain ⟨m₀, hm₀⟩ := hsat
  obtain ⟨hvalidity, htruth, hvalue⟩ := rightAnswer_of_required hq hm₀
  have hsat : ∃ m, (required q).IsModel m := ⟨m₀, isModel_required hq hm₀⟩
  have hadm := required_admissible hq
  refine ⟨fun e he => ?_, fun hw => ⟨fun v hv => ?_, fun b hb => ?_, fun hexpr => ⟨?_, ?_, ?_⟩⟩⟩
  · exact hvalue e (hS.answer (c := .value (required q)) hadm hsat (Option.map_eq_some_iff.mpr ⟨e, he, rfl⟩))
  · exact hvalidity v (hS.answer (c := .validity (required q)) ⟨hadm, hw⟩ hsat
      (Option.map_eq_some_iff.mpr ⟨v, hv, rfl⟩))
  · exact htruth b (hS.answer (c := .truth (required q)) ⟨hadm, hw⟩ hsat (Option.map_eq_some_iff.mpr ⟨b, hb, rfl⟩))
  · obtain ⟨neg, hneg⟩ := exists_negatedExpr hq hexpr
    obtain ⟨factors, hfactors, hF⟩ := getAll_factors hq hw hneg
    exact ⟨neg, factors, hneg, (negatedExpr_spec hq hw hneg).2, hfactors, hF.isPartition⟩
  · exact fun objects r h => computeInitialValues_sound hS.initialValues hq hw h
  · exact fun hanswers he objects => exists_computeInitialValues hS.initialValues hanswers hq hw he hm₀ hexpr objects

open Classical in
/-- A solver that is right and always answers. -/
noncomputable def oracle : SolverImpl Expr ExprArray where
  computeValidity q := some (if q.Entailed then .true else if q.Refuted then .false else .unknown)
  computeTruth q := some (decide q.Entailed)
  computeValue q := if h : ∃ m, q.IsModel m then some (.constant (q.expr.eval h.choose)) else none
  computeInitialValues q objects :=
    some (if h : q.Refutable then some (objects.map fun o => (List.range o.size).map fun i => (h.choose o i).toNat)
      else none)

theorem oracle_initialValues (q : Query Expr) (objects : List ExprArray) {r : Option (List (List Nat))}
    (h : oracle.computeInitialValues q objects = some r) : IsInitialValues q objects r := by
  obtain rfl := Option.some.inj h
  split
  · rename_i hr
    obtain ⟨hm, hfalse⟩ := hr.choose_spec
    refine ⟨hr.choose, hm, hfalse, ?_⟩
    unfold Assignment.ValuesOf
    rw [List.forall₂_map_right_iff]
    refine List.forall₂_same.mpr fun o _ => ⟨by simp, fun i hi => ?_⟩
    simp [hi]
  · rename_i hr
    exact hr

open Classical in
theorem oracle_computeValidity (q : Query Expr) :
    ∃ v, oracle.computeValidity q = some v ∧ SolverCall.RightAnswer (.validity q) (.validity v) := by
  refine ⟨_, rfl, ?_⟩
  by_cases hentailed : q.Entailed
  · rw [if_pos hentailed]
    exact hentailed
  · rw [if_neg hentailed]
    by_cases hrefuted : q.Refuted
    · rw [if_pos hrefuted]
      exact hrefuted
    · rw [if_neg hrefuted]
      exact ⟨hentailed, hrefuted⟩

open Classical in
theorem oracle_computeTruth (q : Query Expr) :
    ∃ b, oracle.computeTruth q = some b ∧ SolverCall.RightAnswer (.truth q) (.truth b) :=
  ⟨_, rfl, decide_eq_true_iff⟩

theorem oracle_right : oracle.Right opt := by
  refine ⟨fun {c a} _ hsat ha => ?_, fun _ _ h => oracle_initialValues _ _ h⟩
  cases c with
  | validity q =>
    obtain ⟨v, hv, hright⟩ := oracle_computeValidity q
    obtain ⟨v', hv', rfl⟩ := Option.map_eq_some_iff.mp (show (oracle.computeValidity q).map _ = _ from ha)
    obtain rfl := Option.some.inj (hv.symm.trans hv')
    exact hright
  | truth q =>
    obtain ⟨b, hb, hright⟩ := oracle_computeTruth q
    obtain ⟨b', hb', rfl⟩ := Option.map_eq_some_iff.mp (show (oracle.computeTruth q).map _ = _ from ha)
    obtain rfl := Option.some.inj (hb.symm.trans hb')
    exact hright
  | value q =>
    obtain ⟨e, he, rfl⟩ := Option.map_eq_some_iff.mp (show (oracle.computeValue q).map _ = _ from ha)
    obtain rfl := Option.some.inj ((dif_pos hsat).symm.trans he)
    exact ⟨_, hsat.choose, rfl, hsat.choose_spec, rfl⟩
  | initialValues q objects =>
    obtain ⟨r, hr, rfl⟩ :=
      Option.map_eq_some_iff.mp (show (oracle.computeInitialValues q objects).map _ = _ from ha)
    exact oracle_initialValues q objects hr

theorem oracle_answers : oracle.AnswersInitialValues opt := fun _ _ _ _ => ⟨_, rfl⟩

def fourBytes : ExprArray := ⟨0, 4, 32, 8, []⟩

def byteIs (n index : Nat) : Expr := .cmp .eq (.ofNat 8 n) (.read fourBytes .nil (.ofNat 32 index))

theorem byteIs_admissible (n index : Nat) : (byteIs n index).Admissible false := by
  refine ⟨⟨trivial, ⟨⟨by decide, by decide, by decide⟩, trivial, trivial, rfl⟩, rfl⟩, ?_, nofun⟩
  exact ⟨trivial, by decide, trivial, trivial⟩

theorem byteIs_query_admissible (n index : Nat) :
    (⟨[byteIs n index], .ofBool false⟩ : Query Expr).Admissible false := by
  refine ⟨fun c hc => ?_, trivial, trivial, fun _ _ => trivial⟩
  obtain rfl := List.mem_singleton.mp hc
  exact ⟨byteIs_admissible n index, rfl⟩

theorem eval_byteIs {m : Valuation} {n index : Nat} (h : index < 2 ^ 32) :
    (byteIs n index).eval m = .ofBool (BitVec.ofNat 8 n == m fourBytes index) := by
  have hindex : (APInt.ofNat 32 index).toNat = index := Nat.mod_eq_of_lt h
  show APInt.rel₂ CmpKind.eq.apply (.ofNat 8 n) ⟨8, fourBytes.initial m (APInt.ofNat 32 index).toNat⟩ = _
  rw [hindex]
  exact APInt.rel₂_mk _ _ _

/-- Initial values of an array whose first byte is 5. -/
theorem independentSolver_right_five :
    ∃ v, computeInitialValues false oracle ⟨[byteIs 5 0], .ofBool false⟩ [fourBytes] = some (some (some [v])) ∧
      v.length = 4 ∧ v.getD 0 0 % 256 = 5 := by
  have hmodel : (⟨[byteIs 5 0], .ofBool false⟩ : Query Expr).IsModel fun a i =>
      if i = 0 ∧ 0 < a.size then BitVec.ofNat a.range 5 else 0 := by
    refine ⟨fun a i hi => if_neg (by omega), fun c hc => ?_⟩
    obtain rfl := List.mem_singleton.mp hc
    decide
  obtain ⟨-, hbool⟩ := independentSolver_right oracle_right (byteIs_query_admissible 5 0) ⟨_, hmodel⟩
  obtain ⟨-, -, hinitial⟩ := hbool rfl
  obtain ⟨-, hright, hanswer⟩ := hinitial (by rintro c ⟨⟩; decide)
  have hevaluable : (⟨[byteIs 5 0], .ofBool false⟩ : Query Expr).Evaluable := by
    refine ⟨fun e he => ?_, fun m _ e he => ?_, trivial⟩
    · rcases List.mem_pair.mp he with rfl | rfl
      · trivial
      · exact ⟨trivial, trivial, trivial⟩
    · rcases List.mem_pair.mp he with rfl | rfl
      · trivial
      · exact ⟨trivial, trivial, trivial, show (APInt.ofNat 32 0).toNat < 4 by decide⟩
  obtain ⟨r, hr⟩ := hanswer oracle_answers hevaluable [fourBytes]
  have hvalues := hright _ r hr
  cases r with
  | none => exact absurd ⟨_, hmodel, rfl⟩ hvalues
  | some values =>
    obtain ⟨m, hm, -, hof⟩ := hvalues
    obtain ⟨v, _, ⟨hlen, hbyte⟩, hnil, rfl⟩ := List.forall₂_cons_left_iff.mp hof
    cases hnil
    refine ⟨v, hr, hlen, ?_⟩
    have hfive := hm.2 _ (.head _)
    rw [eval_byteIs (by decide)] at hfive
    have hm0 : BitVec.ofNat 8 5 = m fourBytes 0 := by
      by_contra hne
      rw [beq_eq_false_iff_ne.mpr hne] at hfive
      exact absurd hfive (by decide)
    have heq : BitVec.ofNat 8 5 = BitVec.ofNat 8 (v.getD 0 0) := hm0.trans (hbyte 0 (by decide))
    have hnat := congrArg BitVec.toNat heq
    simp only [BitVec.toNat_ofNat] at hnat
    omega

theorem separateAll_singleton (f : IndependentElementSet) : separateAll [f] = [f] := by
  unfold separateAll separate absorb
  simp only [List.foldl_nil]
  unfold separate
  rfl

/-- A query whose expression is kept from being optimized. -/
def keptQuery : Query Expr := ⟨[], .notOptimized (.ofBool true)⟩

theorem computeInitialValues_keptQuery (S : SolverImpl Expr ExprArray) :
    computeInitialValues false S keptQuery [] = none := by
  let neg : Expr := .cmp .eq (.ofBool false) (.notOptimized (.ofBool true))
  have hneg : (Expr.notOptimized (.ofBool true)).createIsZero false = some neg := by
    unfold Expr.createIsZero EqExpr.create createR
    simp only [Expr.width, Expr.ofNat, Expr.ofBool, APInt.ofNat, APInt.ofBool, if_true]
    unfold EqExpr.createPartialR EqExpr.plain
    decide
  have hfactors : getAllIndependentConstraintsSets false keptQuery = some [ofExpr neg] := by
    have hnegated : negatedExpr false keptQuery = some [neg] := congrArg (Option.map ([·])) hneg
    unfold getAllIndependentConstraintsSets
    rw [hnegated]
    exact congrArg some (separateAll_singleton _)
  have hsolve : solveFactors S ∅ [ofExpr neg] = some (some (some ∅)) := rfl
  have hvalue : ∀ a, evaluateConstant false a neg = none := by
    intro a
    unfold evaluateConstant
    simp only [neg, ExprEvaluator.visit, ExprEvaluator.visitExpr, ExprEvaluator.doChildren, Expr.kids, Expr.isConstant,
      Expr.ofBool, List.all_cons, List.all_nil, Bool.and_true, Bool.and_self, if_true, Expr.rebuild, Expr.withKids,
      Expr.recreate, NotOptimizedExpr.create, Bool.and_false, Bool.false_eq_true, if_false, Option.bind_eq_bind,
      Option.bind_some, ExprEvaluator.visitExprPost]
  have hassert : assertCreatedPointEvaluatesToTrue false keptQuery [] (objectValues ∅ []) ∅ = none := by
    unfold assertCreatedPointEvaluatesToTrue
    simp only [keptQuery, evaluateConstraints, Option.bind_eq_bind, Option.bind_some, if_true, hneg, hvalue,
      Option.bind_none]
  unfold computeInitialValues
  simp only [hfactors, hsolve, hassert, Option.bind_eq_bind, Option.bind_some, Option.bind_none]

/-- A read out of bounds, which is zero in every model. -/
def outOfBoundsQuery : Query Expr := ⟨[byteIs 0 7], .ofBool false⟩

theorem evaluateConstant_outOfBounds {a : Assignment} (h : a.Sized) : evaluateConstant false a (byteIs 0 7) = none := by
  have hread : ReadExpr.create false fourBytes .nil (.ofNat 32 7) = some (.read fourBytes .nil (.ofNat 32 7)) := rfl
  have hbyte : evaluateFreeByte false a fourBytes 7 = some (.read fourBytes .nil (.ofNat 32 7)) := by
    unfold evaluateFreeByte
    split
    · rename_i bytes hf
      have hlen : bytes.length = 4 := h _ (Assignment.mem_of_find hf)
      rw [dif_neg (by omega)]
      exact hread
    · exact hread
  have hvisit : ExprEvaluator.visit false (evaluateFreeByte false a) (.read fourBytes .nil (.ofNat 32 7)) =
      some (.read fourBytes .nil (.ofNat 32 7)) := by
    rw [ExprEvaluator.visit]
    show evaluateFreeByte false a fourBytes 7 = _
    exact hbyte
  unfold evaluateConstant byteIs
  rw [ExprEvaluator.visit, hvisit]
  simp only [ExprEvaluator.visit, ExprEvaluator.visitExpr, ExprEvaluator.doChildren, Expr.kids, Expr.isConstant,
    Expr.ofNat, List.all_cons, List.all_nil, Bool.and_true, Bool.and_false, Bool.false_eq_true, if_true, if_false,
    Option.bind_eq_bind, Option.bind_some, ExprEvaluator.visitExprPost]

theorem outOfBoundsQuery_isModel : outOfBoundsQuery.IsModel fun _ _ => 0 := by
  refine ⟨fun _ _ _ => rfl, fun c hc => ?_⟩
  obtain rfl := List.mem_singleton.mp hc
  decide

theorem computeInitialValues_outOfBoundsQuery : computeInitialValues false oracle outOfBoundsQuery [] = none := by
  have hneg : negatedExpr false outOfBoundsQuery = some [] := rfl
  have hq : outOfBoundsQuery.Admissible false := byteIs_query_admissible 0 7
  obtain ⟨factors, hfactors, hF⟩ := getAll_factors hq rfl hneg
  have hadm : ∀ f ∈ factors, ∀ e ∈ f.exprs, e.Admissible false ∧ e.width = 1 :=
    fun f hf e he => admissible_of_mem hq rfl hneg e (hF.mem.mpr ⟨f, hf, he⟩)
  have hsome : ∀ (factors : List IndependentElementSet) (retMap : RetMap),
      solveFactors oracle retMap factors ≠ some none := by
    intro factors
    induction factors with
    | nil => exact nofun
    | cons f factors ih =>
      intro retMap h
      unfold solveFactors at h
      split at h
      · cases h
      · split at h
        · exact ih _ h
        · split at h
          · rename_i hanswer
            cases hanswer
          · cases h
          · split at h
            · obtain ⟨retMap', -, h⟩ := Option.bind_eq_some_iff.mp h
              exact ih _ h
            · cases h
  unfold computeInitialValues
  rw [hfactors]
  cases hout : solveFactors oracle ∅ factors with
  | none => simp [hout]
  | some r =>
    cases r with
    | none => exact absurd hout (hsome _ _)
    | some r =>
      have hsolved := solveFactors_spec (fun _ _ h => oracle_initialValues _ _ h) hadm stitched_empty hF.apart nofun hout
      cases r with
      | none =>
        obtain ⟨f, hf, hno⟩ := hsolved
        refine absurd (fun e he => ?_) (hno _ outOfBoundsQuery_isModel.1)
        exact outOfBoundsQuery_isModel.2 e (hF.mem.mpr ⟨f, hf, he⟩)
      | some retMap =>
        obtain ⟨solved, hst, -, -⟩ := hsolved
        obtain ⟨hsized, -, -⟩ := createdPoint_spec hst.sized []
        have hassert : assertCreatedPointEvaluatesToTrue false outOfBoundsQuery [] (objectValues retMap []) retMap =
            none := by
          unfold assertCreatedPointEvaluatesToTrue
          simp only [outOfBoundsQuery, evaluateConstraints, evaluateConstant_outOfBounds hsized, Option.bind_eq_bind,
            Option.bind_none]
        simp only [Option.bind_eq_bind, Option.bind_some, hout, hassert, Option.bind_none]

/-- Two queries over satisfiable constraints in which nothing is kept from being optimized, which are given no answer
although the solver below is right and always answers. -/
theorem computeInitialValues_fails :
    oracle.Right false ∧ oracle.AnswersInitialValues false ∧
    (keptQuery.Admissible false ∧ (∃ m, keptQuery.IsModel m) ∧ (∀ c ∈ keptQuery.constraints, c.NoNotOptimized) ∧
      computeInitialValues false oracle keptQuery [] = none) ∧
    (outOfBoundsQuery.Admissible false ∧ (∃ m, outOfBoundsQuery.IsModel m) ∧
      (∀ c ∈ outOfBoundsQuery.constraints, c.NoNotOptimized) ∧
      computeInitialValues false oracle outOfBoundsQuery [] = none) := by
  refine ⟨oracle_right, oracle_answers, ⟨⟨nofun, trivial, trivial, fun _ _ => trivial⟩, ⟨fun _ _ => 0, ?_⟩, nofun,
    computeInitialValues_keptQuery oracle⟩, byteIs_query_admissible 0 7, ⟨_, outOfBoundsQuery_isModel⟩, ?_,
    computeInitialValues_outOfBoundsQuery⟩
  · exact ⟨fun _ _ _ => rfl, nofun⟩
  · intro c hc
    obtain rfl := List.mem_singleton.mp hc
    exact ⟨trivial, trivial, trivial⟩

end IndependentSolver

end CgsKlee
