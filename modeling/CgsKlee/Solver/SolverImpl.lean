import CgsKlee.Lib.Symbolic

/-!
# Solver interfaces

`SolverImpl` is what every solver of the chain offers to the one above it; a call that fails has no answer.
`PartialValidity` is what an incomplete solver or a cache knows about a query.  `SolverImpl.Correct` says that the
answers that a solver gives are right for satisfiable constraints.
-/

namespace CgsKlee

open Symbolic

structure Query (E : Type) where
  constraints : List E
  expr : E

/-- `SolverImpl`: the answer of each call, if it succeeds.  Initial values are a vector of bytes for each object, or
nothing if there is no solution. -/
structure SolverImpl (E A : Type) where
  computeValidity : Query E → Option Validity
  computeTruth : Query E → Option Bool
  computeValue : Query E → Option E
  computeInitialValues : Query E → List A → Option (Option (List (List Nat)))

inductive PartialValidity
  | mustBeTrue | mustBeFalse | mayBeTrue | mayBeFalse | trueOrFalse | none
deriving DecidableEq, Repr

def PartialValidity.negate : PartialValidity → Option PartialValidity
  | .mustBeTrue => some .mustBeFalse
  | .mustBeFalse => some .mustBeTrue
  | .mayBeTrue => some .mayBeFalse
  | .mayBeFalse => some .mayBeTrue
  | .trueOrFalse => some .trueOrFalse
  | .none => Option.none

variable {T : ExprTheory}

def Query.negateExpr (q : Query T.Expr) : Query T.Expr := { q with expr := T.isZero q.expr }

/-- What a query asks of the models of its constraints. -/
def Query.Valid (q : Query T.Expr) : Prop := ∀ m ∈ T.models q.constraints, T.Holds m q.expr

/-- The expression is boolean and the constraints can be satisfied. -/
structure Query.Proper (q : Query T.Expr) : Prop where
  width : T.width q.expr = 1
  satisfiable : (T.models q.constraints).Nonempty

def PartialValidity.TrueOf (pv : PartialValidity) (q : Query T.Expr) : Prop :=
  match pv with
  | .mustBeTrue => q.Valid
  | .mustBeFalse => q.negateExpr.Valid
  | .mayBeTrue => ¬q.negateExpr.Valid
  | .mayBeFalse => ¬q.Valid
  | .trueOrFalse => ¬q.Valid ∧ ¬q.negateExpr.Valid
  | .none => True

def IsValidity (q : Query T.Expr) : Validity → Prop
  | .true => q.Valid
  | .false => q.negateExpr.Valid
  | .unknown => ¬q.Valid ∧ ¬q.negateExpr.Valid

def IsTruth (q : Query T.Expr) (isValid : Bool) : Prop := isValid = true ↔ q.Valid

structure SolverImpl.Correct {A : Type} (S : SolverImpl T.Expr A) : Prop where
  computeValidity : ∀ q, q.Proper → ∀ v ∈ S.computeValidity q, IsValidity q v
  computeTruth : ∀ q, q.Proper → ∀ b ∈ S.computeTruth q, IsTruth q b

namespace Query

variable {q : Query T.Expr}

theorem Proper.negateExpr (h : q.Proper) : q.negateExpr.Proper := ⟨ExprTheory.width_isZero, h.satisfiable⟩

theorem Proper.holds_negateExpr (h : q.Proper) (m : T.Model) : T.Holds m q.negateExpr.expr ↔ ¬T.Holds m q.expr :=
  ExprTheory.holds_isZero h.width

theorem Proper.not_valid_negateExpr (h : q.Proper) (hv : q.Valid) : ¬q.negateExpr.Valid := by
  intro hn
  obtain ⟨m, hm⟩ := h.satisfiable
  exact (h.holds_negateExpr m).1 (hn m hm) (hv m hm)

theorem Proper.valid_negateExpr_negateExpr (h : q.Proper) : q.negateExpr.negateExpr.Valid ↔ q.Valid := by
  constructor
  · intro hv m hm
    have := (h.negateExpr.holds_negateExpr m).1 (hv m hm)
    rwa [h.holds_negateExpr m, not_not] at this
  · intro hv m hm
    rw [h.negateExpr.holds_negateExpr m, h.holds_negateExpr m, not_not]
    exact hv m hm

theorem Proper.isValidity_unique (h : q.Proper) {v w : Validity} (hv : IsValidity q v) (hw : IsValidity q w) :
    v = w := by
  have hnot := h.not_valid_negateExpr
  cases v <;> cases w <;> first | rfl | (simp only [IsValidity] at hv hw; tauto)

theorem isTruth_unique {b c : Bool} (hb : IsTruth q b) (hc : IsTruth q c) : b = c := by
  unfold IsTruth at hb hc
  rw [← hc] at hb
  exact Bool.eq_iff_iff.2 hb

end Query

theorem PartialValidity.TrueOf.negate {q : Query T.Expr} (hq : q.Proper) {pv pv' : PartialValidity}
    (h : pv.TrueOf q) (hn : pv.negate = some pv') : pv'.TrueOf q.negateExpr := by
  have hnn := hq.valid_negateExpr_negateExpr
  cases pv with
  | none => cases hn
  | mustBeTrue =>
    obtain rfl := Option.some.inj hn
    exact hnn.2 h
  | mustBeFalse =>
    obtain rfl := Option.some.inj hn
    exact h
  | mayBeTrue =>
    obtain rfl := Option.some.inj hn
    exact h
  | mayBeFalse =>
    obtain rfl := Option.some.inj hn
    exact fun hv => h (hnn.1 hv)
  | trueOrFalse =>
    obtain rfl := Option.some.inj hn
    exact ⟨h.2, fun hv => h.1 (hnn.1 hv)⟩

end CgsKlee
