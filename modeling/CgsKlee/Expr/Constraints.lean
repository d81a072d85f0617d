import CgsKlee.Expr.Visitor

/-!
# Constraint sets

`ConstraintManager` adds constraints to a set.  A constraint is first simplified with the equalities in the set; then
conjunctions are split, and an equality with a constant rewrites the constraints that are there, each of which is
added again if it has changed.  A rewritten constraint is lighter, so this ends although the set that a rewritten
constraint is added to is itself being rewritten.
-/

namespace CgsKlee

open ConstantExpr

abbrev ConstraintSet := List Expr

def ConstraintSet.weight (C : ConstraintSet) : Nat := (C.map Expr.weight).sum

namespace ConstraintSet

@[simp] theorem weight_nil : weight [] = 0 := rfl

@[simp] theorem weight_cons (e : Expr) (C : ConstraintSet) : weight (e :: C) = e.weight + weight C := by
  simp [weight]

@[simp] theorem weight_append (C D : ConstraintSet) : weight (C ++ D) = weight C + weight D := by
  simp [weight]

end ConstraintSet

def ExprReplaceVisitor (src : Expr) (dst : APInt) : Visitor where
  visitExpr e := if e = src then some dst else none
  visitExprPost e := if e = src then some dst else none
  recursive := false

/-- `ExprReplaceVisitor2`.  Of several replacements of one expression the first counts. -/
def ExprReplaceVisitor2 (replacements : List (Expr × APInt)) : Visitor where
  visitExpr _ := none
  visitExprPost e := replacements.lookup e
  recursive := true

namespace ConstraintManager

/-- What a constraint says to replace: the right side of an equality with a constant, or the constraint itself. -/
def equality : Expr → Expr × APInt
  | .cmp .eq (.constant c) right => (right, c)
  | e => (e, .ofBool true)

section Options

variable (constArrayOpt useVisitorHash rewriteEqualities : Bool)

def simplifyExpr (C : ConstraintSet) (e : Expr) : Option Expr :=
  if e.isConstant then some e
  else do
    let (res, _) ← (ExprReplaceVisitor2 (C.map equality)).visit constArrayOpt useVisitorHash [] e
    some res.1

abbrev Bounded (n : Nat) := {C : ConstraintSet // C.weight ≤ n}

private theorem lex_of_le {a a' b b' : Nat} (ha : a ≤ a') (hb : b < b') :
    Prod.Lex (· < ·) (· < ·) (a, b) (a', b') := by
  rcases Nat.lt_or_eq_of_le ha with ha | rfl
  · exact Prod.Lex.left _ _ ha
  · exact Prod.Lex.right _ hb

mutual

def addConstraintInternal (C : ConstraintSet) (e : Expr) : Option (Bounded (C.weight + e.weight)) :=
  match e with
  | .constant c =>
    -- assert: attempt to add invalid (false) constraint
    if isTrue c then some ⟨C, Nat.le_add_right _ _⟩ else none
  | .binary .and left right => do
    -- split to enable finer grained independence and other optimizations
    let C₁ ← addConstraintInternal C left
    let C₂ ← addConstraintInternal C₁.1 right
    some ⟨C₂.1, by have := C₁.2; have := C₂.2; simp only [Expr.weight]; omega⟩
  | .cmp .eq (.constant c) right =>
    if rewriteEqualities then do
      let C' ← rewriteConstraints (ExprReplaceVisitor right c) [] [] C
      some ⟨C'.1 ++ [.cmp .eq (.constant c) right], by have := C'.2; simp at this ⊢; omega⟩
    else some ⟨C ++ [.cmp .eq (.constant c) right], by simp⟩
  | e => some ⟨C ++ [e], by simp⟩
termination_by (C.weight + e.weight, e.nodes)
decreasing_by
  · exact lex_of_le (by simp only [Expr.weight]; omega) (by simp only [Expr.nodes]; omega)
  · have := C₁.2
    exact lex_of_le (by simp only [Expr.weight]; omega) (by simp only [Expr.nodes]; omega)
  · exact Prod.Lex.left _ _ (by simp only [ConstraintSet.weight_nil, Expr.weight]; omega)

/-- `ConstraintManager::rewriteConstraints`: `C` are the constraints so far and `old` the ones that are left. -/
def rewriteConstraints (visitor : Visitor) (visited : VisitedMap) (C old : ConstraintSet) :
    Option (Bounded (C.weight + old.weight)) :=
  match old with
  | [] => some ⟨C, Nat.le_add_right _ _⟩
  | ce :: old => do
    let (e, visited) ← visitor.visit constArrayOpt useVisitorHash visited ce
    if h : e.1 = ce then do
      let C' ← rewriteConstraints visitor visited (C ++ [ce]) old
      some ⟨C'.1, by have := C'.2; simp at this ⊢; omega⟩
    else do
      -- enable further reductions
      let C₁ ← addConstraintInternal C e.1
      let C₂ ← rewriteConstraints visitor visited C₁.1 old
      some ⟨C₂.1, by have := C₁.2; have := C₂.2; have := e.2.weight_le; simp at this ⊢; omega⟩
termination_by (C.weight + old.weight, old.length)
decreasing_by
  · exact lex_of_le (by simp; omega) (Nat.lt_succ_self _)
  · have hlt := e.2.resolve_left h
    exact Prod.Lex.left _ _ (by rw [ConstraintSet.weight_cons]; omega)
  · have := C₁.2
    have := e.2.weight_le
    exact lex_of_le (by rw [ConstraintSet.weight_cons]; omega) (Nat.lt_succ_self _)

end

def addConstraint (C : ConstraintSet) (e : Expr) : Option ConstraintSet := do
  let simplified ← simplifyExpr constArrayOpt useVisitorHash C e
  let C' ← addConstraintInternal constArrayOpt useVisitorHash rewriteEqualities C simplified
  some C'.1

end Options

end ConstraintManager

end CgsKlee
