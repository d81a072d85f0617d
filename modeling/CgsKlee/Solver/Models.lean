import CgsKlee.Expr.Assignment
import CgsKlee.Solver.Caching

/-!
# Queries over expressions

What it means that the answers of a solver about expressions are right.  The models of a query are the contents of
arrays that satisfy its constraints; a read out of bounds gives zero and a division by zero is one by one, so that
every expression has a value.  Only the optimization of constant arrays takes it that reads are in bounds.
-/

namespace CgsKlee

open Symbolic

namespace Query

def IsModel (q : Query Expr) (m : Valuation) : Prop := m.Bounded ∧ ∀ c ∈ q.constraints, c.eval m = .ofBool true

def Entailed (q : Query Expr) : Prop := ∀ m, q.IsModel m → q.expr.eval m = .ofBool true

def Refuted (q : Query Expr) : Prop := ∀ m, q.IsModel m → q.expr.eval m = .ofBool false

def Refutable (q : Query Expr) : Prop := ∃ m, q.IsModel m ∧ q.expr.eval m = .ofBool false

end Query

/-- What `computeInitialValues` may answer: that no model of the constraints makes the expression false, or the
contents of the objects in one that does. -/
def IsInitialValues (q : Query Expr) (objects : List ExprArray) : Option (List (List Nat)) → Prop
  | none => ¬q.Refutable
  | some values =>
    ∃ m, q.IsModel m ∧ q.expr.eval m = .ofBool false ∧ Assignment.ValuesOf m objects values

def SolverCall.RightAnswer : SolverCall Expr ExprArray → SolverAnswer Expr → Prop
  | .validity q, .validity .true => q.Entailed
  | .validity q, .validity .false => q.Refuted
  | .validity q, .validity .unknown => ¬q.Entailed ∧ ¬q.Refuted
  | .truth q, .truth isValid => isValid = true ↔ q.Entailed
  | .value q, .value result => ∃ c m, result = .constant c ∧ q.IsModel m ∧ q.expr.eval m = c
  | .initialValues q objects, .initialValues values => IsInitialValues q objects values
  | _, _ => False

/-- The expression is well typed over arrays with short indices, and it is defined everywhere if constant arrays are
optimized. -/
structure Expr.Admissible (opt : Bool) (e : Expr) : Prop where
  wellTyped : e.WellTyped
  shortIndices : e.ShortIndices
  defined : opt = true → ∀ m, e.Defined m

/-- The expressions of the query are admissible and the constraints are boolean. -/
structure Query.Admissible (opt : Bool) (q : Query Expr) : Prop where
  constraints : ∀ c ∈ q.constraints, c.Admissible opt ∧ c.width = 1
  expr : q.expr.Admissible opt

/-- The query of the call is admissible, and boolean unless a value is asked for. -/
def SolverCall.Admissible (opt : Bool) : SolverCall Expr ExprArray → Prop
  | .value q => q.Admissible opt
  | .validity q | .truth q | .initialValues q _ => q.Admissible opt ∧ q.expr.width = 1

def SolverImpl.RightInitialValues (opt : Bool) (S : SolverImpl Expr ExprArray) : Prop :=
  ∀ {q : Query Expr} {objects : List ExprArray} {r : Option (List (List Nat))}, q.Admissible opt → q.expr.width = 1 →
    S.computeInitialValues q objects = some r → IsInitialValues q objects r

variable {opt : Bool} {e e' : Expr} {m : Valuation} {q : Query Expr}

theorem Expr.eval_true_or_false (h : e.WellTyped) (hw : e.width = 1) (m : Valuation) :
    e.eval m = .ofBool true ∨ e.eval m = .ofBool false := by
  obtain ⟨x, hx⟩ := APInt.exists_value ((e.width_eval m h).trans hw)
  rw [hx]
  simp only [APInt.ofBool, APInt.mk.injEq, heq_eq_eq, true_and]
  clear hx
  revert x
  decide

theorem Expr.eval_ne_true (h : e.WellTyped) (hw : e.width = 1) :
    e.eval m ≠ .ofBool true ↔ e.eval m = .ofBool false := by
  constructor
  · exact (e.eval_true_or_false h hw m).resolve_left
  · intro hf ht
    rw [hf] at ht
    exact absurd ht (by decide)

theorem Query.not_refutable (h : q.expr.WellTyped) (hw : q.expr.width = 1) : ¬q.Refutable ↔ q.Entailed := by
  constructor
  · intro hno m hm
    by_contra hne
    exact hno ⟨m, hm, (Expr.eval_ne_true h hw).mp hne⟩
  · rintro hall ⟨m, hm, hf⟩
    exact (Expr.eval_ne_true h hw).mpr hf (hall m hm)

/-- A property of expressions that does not depend on how conjunctions, disjunctions and equations are put together. -/
structure Expr.Structural (P : Expr → Prop) : Prop where
  constant : ∀ c, P (.constant c)
  and : ∀ {l r}, P l → P r → P (.binary .and l r)
  or : ∀ {l r}, P (.binary .or l r) → P l ∧ P r
  eq : ∀ {l r}, P (.cmp .eq l r) ↔ P l ∧ P r

section Structural

variable {P : Expr → Prop} {l r : Expr} {c cl : APInt}

theorem AndExpr.createPartial_structural (hP : Expr.Structural P) (hl : P l)
    (he : AndExpr.createPartial l c = some e') : P e' := by
  unfold AndExpr.createPartial at he
  split at he
  · obtain rfl := Option.some.inj he
    exact hl
  · split at he
    · obtain rfl := Option.some.inj he
      exact hP.constant c
    · obtain rfl := Option.some.inj he
      exact hP.and hl (hP.constant c)

theorem AndExpr.create_structural (hP : Expr.Structural P) (hl : P l) (hr : P r)
    (he : AndExpr.create l r = some e') : P e' := by
  unfold AndExpr.create createR at he
  split at he
  · split at he
    · obtain rfl := Option.some.inj he
      exact hP.constant _
    · exact AndExpr.createPartial_structural hP hr he
    · exact AndExpr.createPartial_structural hP hl he
    · obtain rfl := Option.some.inj he
      exact hP.and hl hr
  · cases he

theorem EqExpr.plain_structural (hP : Expr.Structural P) (hl : P l) (hr : P r) (he : EqExpr.plain l r = some e') :
    P e' := by
  unfold EqExpr.plain at he
  split at he
  · obtain rfl := Option.some.inj he
    exact hP.constant _
  · obtain rfl := Option.some.inj he
    exact hP.eq.mpr ⟨hl, hr⟩

theorem EqExpr.withConstant_structural (hP : Expr.Structural P) {partially : Option Expr}
    (hpart : ∀ {y}, partially = some y → P y) (he : EqExpr.withConstant e c partially = some e') : P e' := by
  unfold EqExpr.withConstant at he
  split at he
  · split at he
    · obtain rfl := Option.some.inj he
      exact hP.constant _
    · exact hpart he
  · cases he

theorem EqExpr.createPartialR_structural (hP : Expr.Structural P) (hcl : cl.width = 1) (hr : r.WellTyped)
    (hw : cl.width = r.width) (hPr : P r) (he : EqExpr.createPartialR opt cl r = some e') : P e' := by
  fun_induction EqExpr.createPartialR opt cl r generalizing e' with
  | case1 cl r h1 htrue =>
    obtain rfl := Option.some.inj he
    exact hPr
  | case2 cl h1 htrue c right hc =>
    obtain rfl := Option.some.inj he
    exact (hP.eq.mp hPr).2
  | case4 cl h1 htrue left right ihLeft ihRight =>
    have hleft : left.width = 1 := hw.symm.trans h1
    have hright : right.width = 1 := hr.2.2.symm.trans hleft
    obtain ⟨l', hl', he⟩ := Option.bind_eq_some_iff.mp he
    obtain ⟨r', hr', he⟩ := Option.bind_eq_some_iff.mp he
    refine AndExpr.create_structural hP ?_ ?_ he
    · exact EqExpr.withConstant_structural hP (fun h => ihLeft hleft hr.1 rfl (hP.or hPr).1 h) hl'
    · exact EqExpr.withConstant_structural hP (fun h => ihRight hright hr.2.1 rfl (hP.or hPr).2 h) hr'
  | case3 cl | case5 cl => exact EqExpr.plain_structural hP (hP.constant cl) hPr he
  | _ => exact absurd hcl ‹_›

theorem Expr.createIsZero_structural (hP : Expr.Structural P) (h : e.WellTyped) (hw : e.width = 1) (hPe : P e)
    (he : e.createIsZero opt = some e') : P e' := by
  unfold Expr.createIsZero EqExpr.create createR at he
  rw [if_pos (by simp)] at he
  cases e with
  | constant v =>
    obtain rfl := Option.some.inj he
    exact hP.constant _
  | _ => exact EqExpr.createPartialR_structural hP hw h rfl hPe he

end Structural

theorem Expr.structural_forallArrays (P : ExprArray → Prop) : Expr.Structural (Expr.ForallArrays P) :=
  ⟨fun _ => trivial, fun hl hr => ⟨hl, hr⟩, id, Iff.rfl⟩

theorem Expr.Admissible.createIsZero (h : e.Admissible opt) (hw : e.width = 1) (he : e.createIsZero opt = some e') :
    e'.Admissible opt ∧ e'.width = 1 ∧ ∀ m, e'.eval m = .ofBool true ↔ e.eval m = .ofBool false := by
  obtain ⟨e'', he'', href⟩ := Expr.createIsZero_builds opt h.wellTyped
  obtain rfl := Option.some.inj (he''.symm.trans he)
  refine ⟨⟨href.wellTyped, ?_, fun ho m => href.defined m ⟨h.defined ho m, trivial⟩⟩, href.width, fun m => ?_⟩
  · exact Expr.createIsZero_structural (Expr.structural_forallArrays _) h.wellTyped hw h.shortIndices he
  · rw [href.eval m fun ho => ⟨h.defined ho m, trivial⟩]
    obtain ⟨x, hx⟩ := APInt.exists_value ((e.width_eval m h.wellTyped).trans hw)
    simp only [Expr.eval, hw, hx, Expr.eval_ofNat, APInt.ofNat, APInt.rel₂_mk, APInt.ofBool, APInt.mk.injEq,
      heq_eq_eq, true_and, CmpKind.apply]
    clear hx
    revert x
    decide

end CgsKlee
