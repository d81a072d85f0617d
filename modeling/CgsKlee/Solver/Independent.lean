import CgsKlee.Solver.ElementSets
import CgsKlee.Expr.Folding

/-!
# The independent solver

`IndependentSolver` asks the solver below only about the constraints that share bytes with the expression, and it looks
for initial values factor by factor.  The constraints that it leaves out, and any two factors, are apart.
-/

namespace CgsKlee

namespace IndependentElementSet

variable {s s' b b' : IndependentElementSet}

def SameBytes (s b : IndependentElementSet) : Prop := s.elements = b.elements ∧ s.wholeObjects = b.wholeObjects

theorem Apart.congr (h : s.Apart b) (hb : b'.SameBytes b) : s.Apart b' := by
  obtain ⟨elements, wholeObjects, exprs⟩ := b
  obtain ⟨elements', wholeObjects', exprs'⟩ := b'
  obtain ⟨rfl, rfl⟩ := hb
  exact ⟨h.left, h.right, h.elements⟩

theorem Apart.congr_left (h : s.Apart b) (hs : s'.SameBytes s) : s'.Apart b := (h.symm.congr hs).symm

end IndependentElementSet

namespace IndependentSolver

open IndependentElementSet

/-- What a pass of `getIndependentConstraints` over the worklist has done so far. -/
structure Scan where
  eltsClosure : IndependentElementSet
  result : List Expr
  newWorklist : List (Expr × IndependentElementSet)
  done : Bool

def Scan.step (s : Scan) (it : Expr × IndependentElementSet) : Scan :=
  if it.2.intersects s.eltsClosure then
    let added := s.eltsClosure.add it.2
    { s with eltsClosure := added.1, result := s.result ++ [it.1], done := s.done && !added.2 }
  else { s with newWorklist := s.newWorklist ++ [it] }

def scan (eltsClosure : IndependentElementSet) (result : List Expr) (worklist : List (Expr × IndependentElementSet)) :
    Scan :=
  worklist.foldl Scan.step ⟨eltsClosure, result, [], true⟩

theorem length_foldl_step (worklist : List (Expr × IndependentElementSet)) (s : Scan) :
    (worklist.foldl Scan.step s).newWorklist.length + (worklist.foldl Scan.step s).result.length =
        s.newWorklist.length + s.result.length + worklist.length ∧
      (s.done = true → (worklist.foldl Scan.step s).done = false →
        s.result.length < (worklist.foldl Scan.step s).result.length) ∧
      s.result.length ≤ (worklist.foldl Scan.step s).result.length := by
  induction worklist generalizing s with
  | nil =>
    refine ⟨rfl, fun h h' => ?_, le_rfl⟩
    rw [List.foldl_nil, h] at h'
    cases h'
  | cons it worklist ih =>
    obtain ⟨hlen, hdone, hle⟩ := ih (s.step it)
    rw [List.foldl_cons]
    unfold Scan.step at hlen hdone hle ⊢
    split at hlen
    · rename_i hint
      rw [if_pos hint] at hdone hle ⊢
      simp only [List.length_append, List.length_cons, List.length_nil] at hlen hle ⊢
      refine ⟨by omega, fun _ _ => by omega, by omega⟩
    · rename_i hint
      rw [if_neg hint] at hdone hle ⊢
      simp only [List.length_append, List.length_cons, List.length_nil] at hlen hle ⊢
      exact ⟨by omega, hdone, hle⟩

def collect (eltsClosure : IndependentElementSet) (result : List Expr)
    (worklist : List (Expr × IndependentElementSet)) : IndependentElementSet × List Expr :=
  let s := scan eltsClosure result worklist
  if s.done then (s.eltsClosure, s.result) else collect s.eltsClosure s.result s.newWorklist
termination_by worklist.length
decreasing_by
  rename_i hdone
  obtain ⟨hlen, hlt, -⟩ := length_foldl_step worklist ⟨eltsClosure, result, [], true⟩
  have hlt := hlt rfl (Bool.eq_false_iff.mpr hdone)
  simp only [List.length_nil] at hlen hlt
  unfold scan
  omega

def getIndependentConstraints (q : Query Expr) : IndependentElementSet × List Expr :=
  collect (ofExpr q.expr) [] (q.constraints.map fun c => (c, ofExpr c))

/-- What the inner loop of `getAllIndependentConstraintsSets` has done so far. -/
structure Absorption where
  current : IndependentElementSet
  keep : List IndependentElementSet
  doneLoop : Bool

def Absorption.step (s : Absorption) (compare : IndependentElementSet) : Absorption :=
  if s.current.intersects compare then
    let added := s.current.add compare
    { s with current := added.1, doneLoop := s.doneLoop && !added.2 }
  else { s with keep := s.keep ++ [compare] }

def absorb (current : IndependentElementSet) (factors : List IndependentElementSet) (doneLoop : Bool) : Absorption :=
  factors.foldl Absorption.step ⟨current, [], doneLoop⟩

theorem length_foldl_absorb (factors : List IndependentElementSet) (s : Absorption) :
    (factors.foldl Absorption.step s).keep.length ≤ s.keep.length + factors.length ∧
      (s.doneLoop = true → (factors.foldl Absorption.step s).doneLoop = false →
        (factors.foldl Absorption.step s).keep.length < s.keep.length + factors.length) := by
  induction factors generalizing s with
  | nil =>
    refine ⟨le_rfl, fun h h' => ?_⟩
    rw [List.foldl_nil, h] at h'
    cases h'
  | cons f factors ih =>
    obtain ⟨hle, hlt⟩ := ih (s.step f)
    rw [List.foldl_cons]
    unfold Absorption.step at hle hlt ⊢
    split at hle
    · rename_i hint
      rw [if_pos hint] at hlt ⊢
      simp only [List.length_cons] at hle ⊢
      refine ⟨by omega, fun _ _ => by omega⟩
    · rename_i hint
      rw [if_neg hint] at hlt ⊢
      simp only [List.length_append, List.length_cons, List.length_nil] at hle hlt ⊢
      refine ⟨by omega, fun h h' => ?_⟩
      have := hlt h h'
      omega

/-- The loop that takes one factor after the other and merges the others into it. -/
def separate (factors : List IndependentElementSet) (doneLoop : Bool) : List IndependentElementSet × Bool :=
  match factors with
  | [] => ([], doneLoop)
  | current :: factors =>
    let s := absorb current factors doneLoop
    let rest := separate s.keep s.doneLoop
    (s.current :: rest.1, rest.2)
termination_by factors.length
decreasing_by
  have hle := (length_foldl_absorb factors ⟨current, [], doneLoop⟩).1
  simp only [List.length_nil, List.length_cons] at hle ⊢
  unfold absorb
  omega

theorem length_separate (factors : List IndependentElementSet) (doneLoop : Bool) :
    (separate factors doneLoop).1.length ≤ factors.length ∧
      (doneLoop = true → (separate factors doneLoop).2 = false →
        (separate factors doneLoop).1.length < factors.length) := by
  fun_induction separate factors doneLoop with
  | case1 doneLoop =>
    refine ⟨le_rfl, fun h h' => ?_⟩
    rw [h] at h'
    cases h'
  | case2 doneLoop current factors s rest ih =>
    obtain ⟨hle, hlt⟩ := length_foldl_absorb factors ⟨current, [], doneLoop⟩
    obtain ⟨hle', hlt'⟩ : rest.1.length ≤ s.keep.length ∧
      (s.doneLoop = true → rest.2 = false → rest.1.length < s.keep.length) := ih
    simp only [List.length_nil, List.length_cons] at hle hlt ⊢
    have hkeep : s.keep.length ≤ 0 + factors.length := hle
    refine ⟨by omega, fun h h' => ?_⟩
    cases hs : s.doneLoop with
    | true =>
      have := hlt' hs h'
      omega
    | false =>
      have : s.keep.length < 0 + factors.length := hlt h hs
      omega

def separateAll (factors : List IndependentElementSet) : List IndependentElementSet :=
  let r := separate factors true
  if r.2 then r.1 else separateAll r.1
termination_by factors.length
decreasing_by
  rename_i hdone
  exact (length_separate factors true).2 rfl (Bool.eq_false_iff.mpr hdone)

variable (constArrayOpt : Bool)

/-- The expression that a solution has to satisfy besides the constraints.  A constant expression is asserted to be
false. -/
def negatedExpr (q : Query Expr) : Option (List Expr) :=
  match q.expr with
  | .constant c => if ConstantExpr.isFalse c then some [] else none
  | e => (e.createIsZero constArrayOpt).map ([·])

def getAllIndependentConstraintsSets (q : Query Expr) : Option (List IndependentElementSet) := do
  let neg ← negatedExpr constArrayOpt q
  some (separateAll ((neg ++ q.constraints).map ofExpr))

/-- What `collect` keeps: the result and the worklist are the constraints, and the closure is that of the expression
and the result. -/
structure Collected (q : Query Expr) (eltsClosure : IndependentElementSet) (result : List Expr)
    (worklist : List (Expr × IndependentElementSet)) : Prop where
  ofExprs : eltsClosure.OfExprs
  exprs : eltsClosure.exprs = q.expr :: result
  constraints : (result ++ worklist.map (·.1)).Perm q.constraints
  sets : ∀ it ∈ worklist, it.2 = ofExpr it.1

variable {q : Query Expr} {opt : Bool}

theorem Collected.step {s : Scan} {it : Expr × IndependentElementSet} {rest : List (Expr × IndependentElementSet)}
    (hq : q.Admissible opt) (h : Collected q s.eltsClosure s.result (s.newWorklist ++ it :: rest)) :
    Collected q (s.step it).eltsClosure (s.step it).result ((s.step it).newWorklist ++ rest) := by
  unfold Scan.step
  split
  · have hset : it.2 = ofExpr it.1 := h.sets it (by simp)
    have hmem : it.1 ∈ q.constraints := h.constraints.subset (by simp)
    have hadm := (hq.constraints _ hmem).1
    refine ⟨h.ofExprs.add (hset ▸ ofExprs_ofExpr hadm.wellTyped hadm.shortIndices), ?_, ?_, ?_⟩
    · rw [exprs_add, h.exprs, hset, exprs_ofExpr]
      rfl
    · refine List.Perm.trans ?_ h.constraints
      simp only [List.map_append, List.map_cons, List.append_assoc, List.singleton_append]
      exact List.Perm.append_left _ List.perm_middle.symm
    · intro it' hit'
      refine h.sets it' ?_
      simp only [List.mem_append, List.mem_cons] at hit' ⊢
      exact hit'.imp_right Or.inr
  · refine ⟨h.ofExprs, h.exprs, ?_, ?_⟩
    · simpa only [List.append_assoc, List.singleton_append] using h.constraints
    · simpa only [List.append_assoc, List.singleton_append] using h.sets

/-- The items that are kept are apart from the closure, unless another pass follows. -/
def Scan.KeptApart (s : Scan) : Prop := s.done = true → ∀ it ∈ s.newWorklist, it.2.Apart s.eltsClosure

theorem Scan.KeptApart.step {s : Scan} (h : s.KeptApart) (it : Expr × IndependentElementSet) :
    (s.step it).KeptApart := by
  unfold Scan.step
  split
  · intro hdone it' hit'
    obtain ⟨hdone, hmodified⟩ := Bool.and_eq_true_iff.mp hdone
    exact (h hdone it' hit').congr (add_unmodified (by simpa using hmodified))
  · rename_i hint
    intro hdone it' hit'
    rcases List.mem_append.mp hit' with hit' | hit'
    · exact h hdone it' hit'
    · obtain rfl := List.mem_singleton.mp hit'
      exact apart_of_intersects (Bool.eq_false_iff.mpr hint)

theorem scan_spec {eltsClosure : IndependentElementSet} {result : List Expr}
    {worklist : List (Expr × IndependentElementSet)} (hq : q.Admissible opt)
    (h : Collected q eltsClosure result worklist) :
    let s := scan eltsClosure result worklist
    Collected q s.eltsClosure s.result s.newWorklist ∧ s.KeptApart := by
  have hfold : ∀ (worklist : List (Expr × IndependentElementSet)) (s : Scan), s.KeptApart →
      Collected q s.eltsClosure s.result (s.newWorklist ++ worklist) →
      let s' := worklist.foldl Scan.step s
      Collected q s'.eltsClosure s'.result s'.newWorklist ∧ s'.KeptApart := by
    intro worklist
    induction worklist with
    | nil =>
      intro s hkept hs
      rw [List.append_nil] at hs
      exact ⟨hs, hkept⟩
    | cons it worklist ih => exact fun s hkept hs => ih _ (hkept.step it) (hs.step hq)
  exact hfold worklist ⟨eltsClosure, result, [], true⟩ (fun _ => nofun) h

theorem collect_spec {eltsClosure : IndependentElementSet} {result : List Expr}
    {worklist : List (Expr × IndependentElementSet)} (hq : q.Admissible opt)
    (h : Collected q eltsClosure result worklist) :
    let r := collect eltsClosure result worklist
    ∃ rest, Collected q r.1 r.2 rest ∧ ∀ it ∈ rest, it.2.Apart r.1 := by
  fun_induction collect eltsClosure result worklist with
  | case1 eltsClosure result worklist s hdone =>
    obtain ⟨hs, hkept⟩ := scan_spec hq h
    exact ⟨s.newWorklist, hs, hkept hdone⟩
  | case2 eltsClosure result worklist s hdone ih => exact ih (scan_spec hq h).1

theorem getIndependentConstraints_spec (hq : q.Admissible opt) :
    let r := getIndependentConstraints q
    ∃ rest, Collected q r.1 r.2 rest ∧ ∀ it ∈ rest, it.2.Apart r.1 := by
  refine collect_spec hq ⟨ofExprs_ofExpr hq.expr.wellTyped hq.expr.shortIndices, exprs_ofExpr _, ?_, ?_⟩
  · rw [List.nil_append, List.map_map]
    simp [Function.comp_def]
  · intro it hit
    obtain ⟨c, -, rfl⟩ := List.mem_map.mp hit
    rfl

/-- The second list of factors has the expressions of the first, grouped in another way. -/
structure Regroups (factors factors' : List IndependentElementSet) : Prop where
  perm : (factors'.flatMap (·.exprs)).Perm (factors.flatMap (·.exprs))
  ofExprs : (∀ f ∈ factors, f.OfExprs) → ∀ f ∈ factors', f.OfExprs
  nonempty : (∀ f ∈ factors, f.exprs ≠ []) → ∀ f ∈ factors', f.exprs ≠ []

variable {f : IndependentElementSet} {fs fs' fs'' : List IndependentElementSet} {doneLoop : Bool}

theorem Regroups.refl (fs : List IndependentElementSet) : Regroups fs fs := ⟨.refl _, id, id⟩

theorem Regroups.trans (h : Regroups fs fs') (h' : Regroups fs' fs'') : Regroups fs fs'' where
  perm := h'.perm.trans h.perm
  ofExprs hfs := h'.ofExprs (h.ofExprs hfs)
  nonempty hfs := h'.nonempty (h.nonempty hfs)

theorem Regroups.cons (f : IndependentElementSet) (h : Regroups fs fs') : Regroups (f :: fs) (f :: fs') where
  perm := by
    simp only [List.flatMap_cons]
    exact h.perm.append_left _
  ofExprs hfs := by
    rw [List.forall_mem_cons] at hfs ⊢
    exact ⟨hfs.1, h.ofExprs hfs.2⟩
  nonempty hfs := by
    rw [List.forall_mem_cons] at hfs ⊢
    exact ⟨hfs.1, h.nonempty hfs.2⟩

theorem Absorption.regroups_step (s : Absorption) (compare : IndependentElementSet)
    (rest : List IndependentElementSet) :
    Regroups (s.current :: (s.keep ++ compare :: rest))
      ((s.step compare).current :: ((s.step compare).keep ++ rest)) := by
  unfold Absorption.step
  split
  · constructor
    · simp only [List.flatMap_cons, List.flatMap_append, exprs_add, List.append_assoc]
      refine List.Perm.append_left _ ?_
      rw [← List.append_assoc, ← List.append_assoc]
      exact List.Perm.append_right _ List.perm_append_comm
    · intro hfs f hf
      rcases List.mem_cons.mp hf with rfl | hf
      · exact (hfs _ (.head _)).add (hfs _ (by simp))
      · refine hfs f ?_
        simp only [List.mem_cons, List.mem_append] at hf ⊢
        exact Or.inr (hf.imp_right Or.inr)
    · intro hfs f hf
      rcases List.mem_cons.mp hf with rfl | hf
      · rw [exprs_add]
        exact List.append_ne_nil_of_left_ne_nil (hfs _ (.head _)) _
      · refine hfs f ?_
        simp only [List.mem_cons, List.mem_append] at hf ⊢
        exact Or.inr (hf.imp_right Or.inr)
  · simp only [List.append_assoc, List.singleton_append]
    exact .refl _

/-- If nothing has been modified, the current factor has the bytes it had, and what is kept is apart from it. -/
structure Absorption.Unmodified (current : IndependentElementSet) (s : Absorption) : Prop where
  sameBytes : s.current.SameBytes current
  apart : ∀ f ∈ s.keep, s.current.Apart f

theorem Absorption.Unmodified.step {current compare : IndependentElementSet} {s : Absorption}
    (h : s.doneLoop = true → s.Unmodified current) (hdone : (s.step compare).doneLoop = true) :
    s.doneLoop = true ∧ (s.step compare).Unmodified current := by
  unfold Absorption.step at hdone ⊢
  split at hdone
  · rename_i hint
    rw [if_pos hint]
    obtain ⟨hdone, hmodified⟩ := Bool.and_eq_true_iff.mp hdone
    have hsame : (s.current.add compare).1.SameBytes s.current := add_unmodified (by simpa using hmodified)
    refine ⟨hdone, ⟨hsame.1.trans (h hdone).sameBytes.1, hsame.2.trans (h hdone).sameBytes.2⟩, fun f hf => ?_⟩
    exact ((h hdone).apart f hf).congr_left hsame
  · rename_i hint
    rw [if_neg hint]
    refine ⟨hdone, (h hdone).sameBytes, fun f hf => ?_⟩
    rcases List.mem_append.mp hf with hf | hf
    · exact (h hdone).apart f hf
    · obtain rfl := List.mem_singleton.mp hf
      exact apart_of_intersects (Bool.eq_false_iff.mpr hint)

theorem foldl_absorb_spec (current : IndependentElementSet) (fs : List IndependentElementSet) (s : Absorption)
    (h : s.doneLoop = true → s.Unmodified current) :
    let s' := fs.foldl Absorption.step s
    Regroups (s.current :: (s.keep ++ fs)) (s'.current :: s'.keep) ∧ s'.keep ⊆ s.keep ++ fs ∧
      (s'.doneLoop = true → s.doneLoop = true ∧ s'.Unmodified current) := by
  induction fs generalizing s with
  | nil =>
    rw [List.append_nil]
    exact ⟨.refl _, List.Subset.refl _, fun hdone => ⟨hdone, h hdone⟩⟩
  | cons f fs ih =>
    obtain ⟨hre, hsub, hdone⟩ := ih (s.step f) fun hdone => (Absorption.Unmodified.step h hdone).2
    refine ⟨(s.regroups_step f fs).trans hre, List.Subset.trans hsub ?_, fun hd => ?_⟩
    · unfold Absorption.step
      split
      · exact List.append_subset.mpr ⟨List.subset_append_left _ _,
          List.Subset.trans (List.subset_cons_self _ _) (List.subset_append_right _ _)⟩
      · simp only [List.append_assoc, List.singleton_append]
        exact List.Subset.refl _
    · obtain ⟨hd', hun⟩ := hdone hd
      exact ⟨(Absorption.Unmodified.step h hd').1, hun⟩

theorem absorb_spec (current : IndependentElementSet) (fs : List IndependentElementSet) (doneLoop : Bool) :
    let s := absorb current fs doneLoop
    Regroups (current :: fs) (s.current :: s.keep) ∧ s.keep ⊆ fs ∧
      (s.doneLoop = true → doneLoop = true ∧ s.Unmodified current) :=
  foldl_absorb_spec current fs ⟨current, [], doneLoop⟩ fun _ => ⟨⟨rfl, rfl⟩, nofun⟩

theorem separate_regroups (fs : List IndependentElementSet) (doneLoop : Bool) :
    Regroups fs (separate fs doneLoop).1 := by
  fun_induction separate fs doneLoop with
  | case1 doneLoop => exact .refl _
  | case2 doneLoop current fs s rest ih => exact (absorb_spec current fs doneLoop).1.trans (ih.cons _)

theorem separate_apart (fs : List IndependentElementSet) (doneLoop : Bool) (h : (separate fs doneLoop).2 = true) :
    doneLoop = true ∧ (∀ f' ∈ (separate fs doneLoop).1, ∃ f ∈ fs, f'.SameBytes f) ∧
      (separate fs doneLoop).1.Pairwise Apart := by
  fun_induction separate fs doneLoop with
  | case1 doneLoop => exact ⟨h, nofun, .nil⟩
  | case2 doneLoop current fs s rest ih =>
    obtain ⟨-, hkeep, hdone⟩ := absorb_spec current fs doneLoop
    obtain ⟨hs, hbytes, hapart⟩ := ih h
    obtain ⟨hdone, hun⟩ := hdone hs
    refine ⟨hdone, fun f' hf' => ?_, List.pairwise_cons.mpr ⟨fun f' hf' => ?_, hapart⟩⟩
    · rcases List.mem_cons.mp hf' with rfl | hf'
      · exact ⟨current, .head _, hun.sameBytes⟩
      · obtain ⟨f, hf, hsame⟩ := hbytes f' hf'
        exact ⟨f, .tail _ (hkeep hf), hsame⟩
    · obtain ⟨f, hf, hsame⟩ := hbytes f' hf'
      exact (hun.apart f hf).congr hsame

theorem separateAll_spec (fs : List IndependentElementSet) :
    Regroups fs (separateAll fs) ∧ (separateAll fs).Pairwise Apart := by
  fun_induction separateAll fs with
  | case1 fs r hdone => exact ⟨separate_regroups fs true, (separate_apart fs true hdone).2.2⟩
  | case2 fs r hdone ih => exact ⟨(separate_regroups fs true).trans ih.1, ih.2⟩

/-- The factors of some expressions: each expression is in one of them, and they are apart. -/
structure Factors (es : List Expr) (factors : List IndependentElementSet) : Prop where
  perm : (factors.flatMap (·.exprs)).Perm es
  ofExprs : ∀ f ∈ factors, f.OfExprs
  nonempty : ∀ f ∈ factors, f.exprs ≠ []
  apart : factors.Pairwise Apart

theorem separateAll_factors {es : List Expr} (h : ∀ e ∈ es, e.WellTyped ∧ e.ShortIndices) :
    Factors es (separateAll (es.map ofExpr)) := by
  obtain ⟨hre, hapart⟩ := separateAll_spec (es.map ofExpr)
  refine ⟨?_, hre.ofExprs fun f hf => ?_, hre.nonempty fun f hf => ?_, hapart⟩
  · refine hre.perm.trans (List.Perm.of_eq ?_)
    rw [List.flatMap_map]
    simp [exprs_ofExpr]
  · obtain ⟨e, he, rfl⟩ := List.mem_map.mp hf
    exact ofExprs_ofExpr (h e he).1 (h e he).2
  · obtain ⟨e, -, rfl⟩ := List.mem_map.mp hf
    rw [exprs_ofExpr]
    exact List.cons_ne_nil _ _

end IndependentSolver

end CgsKlee
