import CgsKlee.Solver.Models
import CgsKlee.Solver.RangeEvaluator

/-!
# Exact values

`FastCexSolver` propagates what the constraints and the negated expression of a query say about single bytes.  What is
propagated into an expression is always one value; it is passed on through comparisons with constants, negations and
updates until it fixes a byte of an array, or is dropped.  The bytes start with all values, and an assertion fails when
a value is propagated to a byte that does not contain it.

`fixedByte` is what the propagation of one expression comes to, without the bytes.  The propagation of a query succeeds
if and only if no two of its expressions fix a byte to different values.

The possible values, which are propagated alongside, do not enter the exact ones and are left out.
-/

namespace CgsKlee

open ValueRange RangeEvaluator

/-- `CexObjectData::exactContents` of all objects.  An object that is not there has all values, as a new one does. -/
abbrev ExactContents := ExprArray → Nat → ValueRange

namespace ExactContents

def start : ExactContents := fun _ _ => ⟨0, 255⟩

def setExactValues (cd : ExactContents) (array : ExprArray) (index : Nat) (values : ValueRange) : ExactContents :=
  fun a i => if a = array ∧ i = index then values else cd a i

end ExactContents

namespace CexData

def raiseMin (range cvd : ValueRange) : Option ValueRange := do
  if (← range.min?) > (← cvd.min?) then
    -- assert: range.min() <= cvd.max()
    if (← range.min?) ≤ (← cvd.max?) then some ⟨← range.min?, ← cvd.max?⟩ else none
  else some cvd

def lowerMax (range cvd : ValueRange) : Option ValueRange := do
  if (← range.max?) < (← cvd.max?) then
    -- assert: range.max() >= cvd.min()
    if (← range.max?) ≥ (← cvd.min?) then some ⟨← cvd.min?, ← range.max?⟩ else none
  else some cvd

def updateExact (range : ValueRange) (cd : ExactContents) (array : ExprArray) (index : Nat) : Option ExactContents := do
  let cvd ← raiseMin range (cd array index)
  let cvd ← lowerMax range cvd
  some (cd.setExactValues array index cvd)

/-- The end of the updates: the index is one of the initial contents. -/
def propagateInitial (array : ExprArray) (index range : ValueRange) (cd : ExactContents) : Option ExactContents :=
  if index.isFixed then
    if !array.isSymbolicArray then
      -- the propagation into a constant does nothing
      if index.mMin < array.constantValues.length then some cd else none
    else if index.mMin < array.size then updateExact range cd array index.mMin
    else none
  else some cd

mutual

def propagateExactValues (range : ValueRange) (cd : ExactContents) : Expr → Option ExactContents
  | .constant _ | .notOptimized _ | .select _ _ _ | .concat _ _ | .extract _ _ _ | .cast _ _ _ | .binary _ _ _ => some cd
  | .read root head index => do propagateUpdates root (← evaluate index) index range cd head
  | .cmp .eq (.constant c) right =>
    if range.isFixed ∧ c.width ≤ 64 then
      if range.mMin ≠ 0 then propagateExactValues (ofValue c.toNat) cd right
      else if right.width = 1 then propagateExactValues (ofValue (if c.toNat = 0 then 1 else 0)) cd right
      else some cd
    else some cd
  | .not expr =>
    if expr.width = 1 ∧ range.isFixed then
      propagateExactValues (ofValue (if range.mMin = 0 then 1 else 0)) cd expr
    else some cd
  | .cmp .eq _ _ | .cmp .ult _ _ | .cmp .ule _ _ | .cmp .slt _ _ | .cmp .sle _ _ => some cd
  -- assert: invalid expressions (uncanonicalized)
  | .cmp .ne _ _ | .cmp .ugt _ _ | .cmp .uge _ _ | .cmp .sgt _ _ | .cmp .sge _ _ => none

/-- The loop over the updates: those that cannot alias are passed, and the value goes into one that does. -/
def propagateUpdates (array : ExprArray) (index : ValueRange) (indexExpr : Expr) (range : ValueRange)
    (cd : ExactContents) : UpdateNode → Option ExactContents
  | .nil => propagateInitial array index range cd
  | .cons i value next => do
    let ui ← evaluate i
    if !ui.mayEqual index then propagateUpdates array index indexExpr range cd next
    else if ui.mustEqual index ∨ indexExpr = i then propagateExactValues range cd value
    else some cd

end

end CexData

/-- The exact values that `propagateValues` propagates: the constraints are true and, if it is to be checked, the
expression is false. -/
def propagateExact (query : Query Expr) (checkExpr : Bool) : Option ExactContents := do
  let cd ← query.constraints.foldlM (fun cd constraint => CexData.propagateExactValues (ofValue 1) cd constraint)
    ExactContents.start
  if checkExpr then CexData.propagateExactValues (ofValue 0) cd query.expr else some cd

/-- A value for a byte of an array. -/
structure FixedByte where
  array : ExprArray
  index : Nat
  value : Nat

/-- The byte that is fixed by the initial contents having the value at an index of the range. -/
def initialFixedByte (array : ExprArray) (index : ValueRange) (v : Nat) : Option (Option FixedByte) :=
  if index.isFixed then
    if !array.isSymbolicArray then
      if index.mMin < array.constantValues.length then some none else none
    else if index.mMin < array.size then some (some ⟨array, index.mMin, v⟩)
    else none
  else some none

mutual

/-- The byte that is fixed by the expression having the value `v`, if there is one; `none` where a range cannot be
evaluated or an index is out of bounds. -/
def Expr.fixedByte (v : Nat) : Expr → Option (Option FixedByte)
  | .constant _ | .notOptimized _ | .select _ _ _ | .concat _ _ | .extract _ _ _ | .cast _ _ _ | .binary _ _ _ => some none
  | .read root head index => do head.fixedByte root (← evaluate index) index v
  | .cmp .eq (.constant c) right =>
    if c.width ≤ 64 then
      if v ≠ 0 then right.fixedByte c.toNat
      else if right.width = 1 then right.fixedByte (if c.toNat = 0 then 1 else 0)
      else some none
    else some none
  | .not expr => if expr.width = 1 then expr.fixedByte (if v = 0 then 1 else 0) else some none
  | .cmp .eq _ _ | .cmp .ult _ _ | .cmp .ule _ _ | .cmp .slt _ _ | .cmp .sle _ _ => some none
  | .cmp .ne _ _ | .cmp .ugt _ _ | .cmp .uge _ _ | .cmp .sgt _ _ | .cmp .sge _ _ => none

/-- The byte that is fixed by a read having the value `v`. -/
def UpdateNode.fixedByte (array : ExprArray) (index : ValueRange) (indexExpr : Expr) (v : Nat) :
    UpdateNode → Option (Option FixedByte)
  | .nil => initialFixedByte array index v
  | .cons i value next => do
    let ui ← evaluate i
    if !ui.mayEqual index then next.fixedByte array index indexExpr v
    else if ui.mustEqual index ∨ indexExpr = i then value.fixedByte v
    else some none

end

def fixedBytes : List (Expr × Nat) → Option (List FixedByte)
  | [] => some []
  | (e, v) :: steps => do
    let f ← e.fixedByte v
    let fs ← fixedBytes steps
    some (f.toList ++ fs)

def Consistent (fs : List FixedByte) : Prop :=
  ∀ f ∈ fs, ∀ g ∈ fs, f.array = g.array → f.index = g.index → f.value = g.value

theorem Consistent.mono {fs gs : List FixedByte} (h : Consistent gs) (hsub : fs ⊆ gs) : Consistent fs :=
  fun f hf g hg => h f (hsub hf) g (hsub hg)

theorem consistent_cons {f : FixedByte} {fs : List FixedByte} : Consistent (f :: fs) ↔
    Consistent fs ∧ ∀ g ∈ fs, g.array = f.array → g.index = f.index → g.value = f.value := by
  constructor
  · intro h
    exact ⟨h.mono (List.subset_cons_self f fs), fun g hg => h g (List.mem_cons_of_mem f hg) f List.mem_cons_self⟩
  · rintro ⟨hfs, hf⟩ g hg g' hg' ha hi
    obtain rfl | hg1 := List.mem_cons.mp hg <;> obtain rfl | hg2 := List.mem_cons.mp hg'
    · rfl
    · exact (hf g' hg2 ha.symm hi.symm).symm
    · exact hf g hg1 ha hi
    · exact hfs g hg1 g' hg2 ha hi

namespace CexData

def fix (cd : ExactContents) : Option FixedByte → Option ExactContents
  | none => some cd
  | some f => updateExact (ofValue f.value) cd f.array f.index

theorem propagateInitial_eq (array : ExprArray) (index : ValueRange) (v : Nat) (cd : ExactContents) :
    propagateInitial array index (ofValue v) cd = (initialFixedByte array index v).bind (fix cd) := by
  unfold propagateInitial initialFixedByte
  split_ifs <;> rfl

theorem isFixed_ofValue (v : Nat) : (ofValue v).isFixed = true := by simp [isFixed, ofValue]

mutual

theorem propagateExactValues_eq (cd : ExactContents) : ∀ (e : Expr) (v : Nat),
    propagateExactValues (ofValue v) cd e = (e.fixedByte v).bind (fix cd)
  | .constant _, _ | .notOptimized _, _ | .select _ _ _, _ | .concat _ _, _ | .extract _ _ _, _ | .cast _ _ _, _
  | .binary _ _ _, _ => by
    simp only [propagateExactValues, Expr.fixedByte, Option.bind_some, fix]
  | .read root head index, v => by
    simp only [propagateExactValues, Expr.fixedByte, Option.bind_eq_bind]
    cases evaluate index with
    | none => rfl
    | some r => exact propagateUpdates_eq cd root r index head v
  | .not expr, v => by
    simp only [propagateExactValues, Expr.fixedByte, isFixed_ofValue, and_true]
    split
    · exact propagateExactValues_eq cd expr _
    · rfl
  | .cmp kind left right, v => by
    cases kind
    case eq =>
      cases left
      case constant c =>
        have hv : (ofValue v).mMin = v := rfl
        simp only [propagateExactValues, Expr.fixedByte, isFixed_ofValue, true_and, hv]
        split
        · split
          · exact propagateExactValues_eq cd right _
          · split
            · exact propagateExactValues_eq cd right _
            · rfl
        · rfl
      all_goals simp only [propagateExactValues, Expr.fixedByte, Option.bind_some, fix]
    all_goals simp only [propagateExactValues, Expr.fixedByte, Option.bind_some, Option.bind_none, fix]

theorem propagateUpdates_eq (cd : ExactContents) (array : ExprArray) (index : ValueRange) (indexExpr : Expr) :
    ∀ (u : UpdateNode) (v : Nat), propagateUpdates array index indexExpr (ofValue v) cd u =
      (u.fixedByte array index indexExpr v).bind (fix cd)
  | .nil, v => propagateInitial_eq array index v cd
  | .cons i value next, v => by
    simp only [propagateUpdates, UpdateNode.fixedByte, Option.bind_eq_bind]
    cases evaluate i with
    | none => rfl
    | some ui =>
      simp only [Option.bind_some]
      split
      · exact propagateUpdates_eq cd array index indexExpr next v
      · split
        · exact propagateExactValues_eq cd value v
        · rfl

end

def contents (fs : List FixedByte) : ExactContents := fun a i =>
  match fs.find? (fun f => f.array = a ∧ f.index = i) with
  | some f => ofValue f.value
  | none => ⟨0, 255⟩

theorem contents_cons (f : FixedByte) (fs : List FixedByte) :
    contents (f :: fs) = (contents fs).setExactValues f.array f.index (ofValue f.value) := by
  funext a i
  unfold contents ExactContents.setExactValues
  rw [List.find?_cons]
  by_cases h : f.array = a ∧ f.index = i
  · have h' : a = f.array ∧ i = f.index := ⟨h.1.symm, h.2.symm⟩
    rw [decide_eq_true h, if_pos h']
  · have h' : ¬(a = f.array ∧ i = f.index) := fun hai => h ⟨hai.1.symm, hai.2.symm⟩
    rw [decide_eq_false h, if_neg h']

theorem raiseMin_ofValue {v a b : Nat} (h : a ≤ b) :
    raiseMin (ofValue v) ⟨a, b⟩ = if v > a then if v ≤ b then some ⟨v, b⟩ else none else some ⟨a, b⟩ := by
  simp [raiseMin, min?, max?, isEmpty, ofValue, h]

theorem lowerMax_ofValue {v a b : Nat} (h : a ≤ b) :
    lowerMax (ofValue v) ⟨a, b⟩ = if v < b then if v ≥ a then some ⟨a, v⟩ else none else some ⟨a, b⟩ := by
  simp [lowerMax, min?, max?, isEmpty, ofValue, h]

theorem updateExact_eq {v a b : Nat} {cd : ExactContents} {array : ExprArray} {index : Nat}
    (h : cd array index = ⟨a, b⟩) (hab : a ≤ b) : updateExact (ofValue v) cd array index =
      if a ≤ v ∧ v ≤ b then some (cd.setExactValues array index (ofValue v)) else none := by
  have hraise : raiseMin (ofValue v) (cd array index) = if v ≤ b then some ⟨max v a, b⟩ else none := by
    rw [h, raiseMin_ofValue hab]
    split_ifs with hva hvb hvb
    · rw [max_eq_left (by omega)]
    · rfl
    · rw [max_eq_right (by omega)]
    · omega
  unfold updateExact
  rw [hraise]
  by_cases hvb : v ≤ b
  · have hlower := lowerMax_ofValue (v := v) (show max v a ≤ b by omega)
    simp only [if_pos hvb, Option.bind_eq_bind, Option.bind_some, hlower]
    by_cases hav : a ≤ v
    · have hboth : a ≤ v ∧ v ≤ b := ⟨hav, hvb⟩
      rw [max_eq_left hav, if_pos hboth]
      by_cases hlt : v < b
      · rw [if_pos hlt, if_pos (le_refl v)]
        rfl
      · rw [if_neg hlt, show b = v by omega]
        rfl
    · have hboth : ¬(a ≤ v ∧ v ≤ b) := fun hv => hav hv.1
      have hlt : v < b := by omega
      have hge : ¬v ≥ max v a := by omega
      rw [if_neg hboth, if_pos hlt, if_neg hge]
      rfl
  · rw [if_neg hvb, if_neg (fun hv => hvb hv.2)]
    rfl

theorem contents_eq {fs : List FixedByte} (hfs : Consistent fs) {f : FixedByte} (hf : f ∈ fs) :
    contents fs f.array f.index = ofValue f.value := by
  unfold contents
  cases hfind : fs.find? (fun g => g.array = f.array ∧ g.index = f.index) with
  | none => simpa using List.find?_eq_none.mp hfind f hf
  | some g =>
    have hg := List.find?_some hfind
    simp only [decide_eq_true_eq] at hg
    dsimp only
    rw [hfs g (List.mem_of_find?_eq_some hfind) f hf hg.1 hg.2]

theorem fix_contents {fs : List FixedByte} (hfs : Consistent fs) (hle : ∀ g ∈ fs, g.value ≤ 255) (f : FixedByte) :
    fix (contents fs) (some f) = if f.value ≤ 255 ∧ ∀ g ∈ fs, g.array = f.array → g.index = f.index → g.value = f.value
      then some (contents (f :: fs)) else none := by
  have hfix : fix (contents fs) (some f) = updateExact (ofValue f.value) (contents fs) f.array f.index := rfl
  rw [contents_cons, hfix]
  by_cases hfixed : ∃ g ∈ fs, g.array = f.array ∧ g.index = f.index
  · obtain ⟨g, hg, harray, hindex⟩ := hfixed
    have hcontents : contents fs f.array f.index = ofValue g.value := by
      rw [← harray, ← hindex]
      exact contents_eq hfs hg
    have hiff : (g.value ≤ f.value ∧ f.value ≤ g.value) ↔
        f.value ≤ 255 ∧ ∀ g ∈ fs, g.array = f.array → g.index = f.index → g.value = f.value := by
      have hgle := hle g hg
      constructor
      · intro h
        refine ⟨by omega, fun g' hg' harray' hindex' => ?_⟩
        have heq := hfs g' hg' g hg (harray'.trans harray.symm) (hindex'.trans hindex.symm)
        omega
      · intro h
        have heq := h.2 g hg harray hindex
        omega
    rw [updateExact_eq hcontents le_rfl]
    simp only [hiff]
  · have hcontents : contents fs f.array f.index = ⟨0, 255⟩ := by
      unfold contents
      rw [List.find?_eq_none.mpr (fun g hg => by simpa using fun ha hi => hfixed ⟨g, hg, ha, hi⟩)]
    have hiff : (0 ≤ f.value ∧ f.value ≤ 255) ↔
        f.value ≤ 255 ∧ ∀ g ∈ fs, g.array = f.array → g.index = f.index → g.value = f.value := by
      constructor
      · exact fun h => ⟨h.2, fun g hg ha hi => absurd ⟨g, hg, ha, hi⟩ hfixed⟩
      · exact fun h => ⟨Nat.zero_le _, h.1⟩
    rw [updateExact_eq hcontents (by omega)]
    simp only [hiff]

theorem foldlM_isSome_iff : ∀ (steps : List (Expr × Nat)) {fs : List FixedByte}, Consistent fs →
    (∀ f ∈ fs, f.value ≤ 255) →
    ((steps.foldlM (fun cd s => propagateExactValues (ofValue s.2) cd s.1) (contents fs)).isSome = true ↔
      ∃ gs, fixedBytes steps = some gs ∧ (∀ g ∈ gs, g.value ≤ 255) ∧ Consistent (gs ++ fs))
  | [], fs, hfs, _ => by
    constructor
    · exact fun _ => ⟨[], rfl, fun g hg => absurd hg (List.not_mem_nil), hfs⟩
    · exact fun _ => rfl
  | (e, v) :: steps, fs, hfs, hle => by
    rw [List.foldlM_cons, propagateExactValues_eq]
    simp only [fixedBytes, Option.bind_eq_bind]
    cases hf : e.fixedByte v with
    | none => simp
    | some o =>
      cases o with
      | none =>
        have ih := foldlM_isSome_iff steps hfs hle
        simpa [fix] using ih
      | some f =>
        simp only [Option.bind_some]
        rw [fix_contents hfs hle]
        by_cases hok : f.value ≤ 255 ∧ ∀ g ∈ fs, g.array = f.array → g.index = f.index → g.value = f.value
        · have hcons : Consistent (f :: fs) := consistent_cons.mpr ⟨hfs, hok.2⟩
          rw [if_pos hok, Option.bind_some,
            foldlM_isSome_iff steps hcons (List.forall_mem_cons.mpr ⟨hok.1, hle⟩)]
          cases hgs : fixedBytes steps with
          | none => simp
          | some gs =>
            have hsub : f :: (gs ++ fs) ⊆ gs ++ f :: fs := List.perm_middle.symm.subset
            have hsub' : gs ++ f :: fs ⊆ f :: (gs ++ fs) := List.perm_middle.subset
            constructor
            · rintro ⟨gs', hgs', hle', hcons'⟩
              cases hgs'
              exact ⟨f :: gs, rfl, List.forall_mem_cons.mpr ⟨hok.1, hle'⟩, hcons'.mono hsub⟩
            · rintro ⟨gs', hgs', hle', hcons'⟩
              cases hgs'
              exact ⟨gs, rfl, (List.forall_mem_cons.mp hle').2, Consistent.mono hcons' hsub'⟩
        · rw [if_neg hok]
          constructor
          · intro h
            cases h
          · rintro ⟨gs, hgs, hle', hcons'⟩
            obtain ⟨gs', -, hgs'⟩ := Option.bind_eq_some_iff.mp hgs
            cases hgs'
            exfalso
            apply hok
            refine ⟨hle' f List.mem_cons_self, ?_⟩
            exact (consistent_cons.mp (hcons'.mono (List.cons_subset_cons f (List.subset_append_right gs' fs)))).2

end CexData

/-- What a query says about its expressions: the constraints are true and, if it is to be checked, the expression is
false. -/
def Query.propagated (q : Query Expr) (checkExpr : Bool) : List (Expr × Nat) :=
  q.constraints.map (·, 1) ++ if checkExpr then [(q.expr, 0)] else []

/-- The propagation of exact values succeeds if and only if the ranges of the indices can be evaluated, the bytes are
in bounds, and no byte is fixed to two values. -/
theorem propagateExact_isSome_iff (q : Query Expr) (checkExpr : Bool) :
    (propagateExact q checkExpr).isSome = true ↔
      ∃ fs, fixedBytes (q.propagated checkExpr) = some fs ∧ (∀ f ∈ fs, f.value ≤ 255) ∧ Consistent fs := by
  have hstart : CexData.contents [] = ExactContents.start := rfl
  have hrun : propagateExact q checkExpr =
      (q.propagated checkExpr).foldlM (fun cd s => CexData.propagateExactValues (ofValue s.2) cd s.1)
        (CexData.contents []) := by
    unfold propagateExact Query.propagated
    rw [List.foldlM_append, List.foldlM_map, hstart]
    cases checkExpr
    · simp
    · simp
  rw [hrun, CexData.foldlM_isSome_iff _ (fun f hf => absurd hf List.not_mem_nil)
    (fun f hf => absurd hf List.not_mem_nil)]
  simp only [List.append_nil]

/-- A byte that the constraint says to be 1 and the negated expression says to be 2. -/
def contradictingQuery : Query Expr where
  constraints := [.cmp .eq (.constant (.ofNat 8 1)) (loadedByte 0)]
  expr := .cmp .eq (.constant (.ofBool false)) (.cmp .eq (.constant (.ofNat 8 2)) (loadedByte 0))

theorem propagateExact_contradicted : ∃ q : Query Expr, (∀ e ∈ q.expr :: q.constraints, e.WellTyped ∧ e.width = 1) ∧
    (∃ m, q.IsModel m) ∧ (propagateExact q true).isSome = false := by
  refine ⟨contradictingQuery, ?_, ⟨fun a i => if a.size ≤ i then 0 else 1, ?_, ?_⟩, ?_⟩
  · intro e he
    simp only [contradictingQuery, List.mem_cons, List.not_mem_nil, or_false] at he
    obtain rfl | rfl := he
    · exact ⟨⟨trivial, ⟨trivial, loadedByte_wellTyped 0, rfl⟩, rfl⟩, rfl⟩
    · exact ⟨⟨trivial, loadedByte_wellTyped 0, rfl⟩, rfl⟩
  · intro a i h
    exact if_pos h
  · intro c hc
    simp only [contradictingQuery, List.mem_singleton] at hc
    subst hc
    decide
  · decide

end CgsKlee
