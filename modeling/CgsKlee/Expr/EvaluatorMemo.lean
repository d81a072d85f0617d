import CgsKlee.Expr.Evaluator
import CgsKlee.Lib.Memo

/-!
# Evaluation with the visitor's memo table

`ExprVisitor::visit` keeps what it returned for every expression but constants, and looks there first.  Under an
evaluator, all visits share the table, those of indices and values of updates included.  The results are those of
`ExprEvaluator.visit`, which is the evaluation without a table.
-/

namespace CgsKlee

namespace ExprEvaluator

/-- Computations of an `ExprEvaluator`, with the map `visited`. -/
abbrev EvaluatorM := Memo.MemoM Expr Expr

section Evaluate

variable (useVisitorHash constArrayOpt : Bool) (getInitialValue : ExprArray → Nat → Option Expr)

/-- `ExprVisitor::visit` of an expression that is not a constant. -/
def visitHashed (e : Expr) (visitActual : EvaluatorM Expr) : EvaluatorM Expr :=
  if useVisitorHash then Memo.memoize e visitActual else visitActual

/-- `ExprEvaluator::visitExpr`, before what the visit of the node does otherwise. -/
def visitExprMemo (e : Expr) (visit : EvaluatorM Expr) : EvaluatorM Expr :=
  if e.kids.all Expr.isConstant then Memo.lift (e.rebuild constArrayOpt e.kids) else visit

mutual

def visitMemo : Expr → EvaluatorM Expr
  | .constant value => pure (.constant value)
  | .read root head index =>
    visitHashed useVisitorHash (.read root head index) do
      match ← visitMemo index with
      | .constant c => evalReadMemo root ((← Memo.lift (ConstantExpr.getZExtValue c)) % 2 ^ 32) head
      | _ => Memo.lift (doChildren constArrayOpt (.read root head index) [← visitMemo index])
  | .notOptimized src =>
    visitHashed useVisitorHash (.notOptimized src) <|
    visitExprMemo constArrayOpt (.notOptimized src) do
      Memo.lift (doChildren constArrayOpt (.notOptimized src) [← visitMemo src])
  | .select cond trueExpr falseExpr =>
    visitHashed useVisitorHash (.select cond trueExpr falseExpr) <|
    visitExprMemo constArrayOpt (.select cond trueExpr falseExpr) do
      Memo.lift (doChildren constArrayOpt (.select cond trueExpr falseExpr)
        [← visitMemo cond, ← visitMemo trueExpr, ← visitMemo falseExpr])
  | .concat left right =>
    visitHashed useVisitorHash (.concat left right) <|
    visitExprMemo constArrayOpt (.concat left right) do
      Memo.lift (doChildren constArrayOpt (.concat left right) [← visitMemo left, ← visitMemo right])
  | .extract expr offset width =>
    visitHashed useVisitorHash (.extract expr offset width) <|
    visitExprMemo constArrayOpt (.extract expr offset width) do
      Memo.lift (doChildren constArrayOpt (.extract expr offset width) [← visitMemo expr])
  | .cast kind src width =>
    visitHashed useVisitorHash (.cast kind src width) <|
    visitExprMemo constArrayOpt (.cast kind src width) do
      Memo.lift (doChildren constArrayOpt (.cast kind src width) [← visitMemo src])
  | .not expr =>
    visitHashed useVisitorHash (.not expr) <|
    visitExprMemo constArrayOpt (.not expr) do
      Memo.lift (doChildren constArrayOpt (.not expr) [← visitMemo expr])
  | .binary kind left right =>
    visitHashed useVisitorHash (.binary kind left right) <|
    visitExprMemo constArrayOpt (.binary kind left right) do
      let kid₀ ← visitMemo left
      let kid₁ ← visitMemo right
      if kind.isDivision then Memo.lift (protectedDivOperation constArrayOpt kind left right kid₀ kid₁)
      else Memo.lift (doChildren constArrayOpt (.binary kind left right) [kid₀, kid₁])
  | .cmp kind left right =>
    visitHashed useVisitorHash (.cmp kind left right) <|
    visitExprMemo constArrayOpt (.cmp kind left right) do
      Memo.lift (doChildren constArrayOpt (.cmp kind left right) [← visitMemo left, ← visitMemo right])

def evalReadMemo (root : ExprArray) (index : Nat) : UpdateNode → EvaluatorM Expr
  | .nil =>
    if ¬root.isSymbolicArray ∧ index < root.size then
      pure (.constant ⟨root.range, root.constantValues.getD index 0⟩)
    else Memo.lift (getInitialValue root index)
  | .cons i value next => do
    match ← visitMemo i with
    | .constant c =>
      if (← Memo.lift (ConstantExpr.getZExtValue c)) = index then visitMemo value else evalReadMemo root index next
    | _ => Memo.lift (ReadExpr.create constArrayOpt root (.cons i value next) (.ofNat root.domain index))

end

end Evaluate

variable {useVisitorHash opt : Bool} {getInitialValue : ExprArray → Nat → Option Expr}

/-- The computation gives the value of `o`, and keeps the table right. -/
abbrev SameAs (opt : Bool) (getInitialValue : ExprArray → Nat → Option Expr) {α : Type} (x : EvaluatorM α)
    (o : Option α) : Prop := Memo.Computes (visit opt getInitialValue) x o

theorem visitHashed_same {e : Expr} {x : EvaluatorM Expr}
    (h : SameAs opt getInitialValue x (visit opt getInitialValue e)) :
    SameAs opt getInitialValue (visitHashed useVisitorHash e x) (visit opt getInitialValue e) := by
  unfold visitHashed
  split
  · exact .memoize h
  · exact h

theorem visitExprMemo_same {e : Expr} {x : EvaluatorM Expr} {o : Option Expr} (h : SameAs opt getInitialValue x o) :
    SameAs opt getInitialValue (visitExprMemo opt e x) (visitExpr opt e o) := by
  unfold visitExprMemo visitExpr
  split
  · exact .lift
  · exact h

theorem visitNode_same {e : Expr} {x : EvaluatorM Expr} {o : Option Expr}
    (heq : visit opt getInitialValue e = visitExpr opt e o) (h : SameAs opt getInitialValue x o) :
    SameAs opt getInitialValue (visitHashed useVisitorHash e (visitExprMemo opt e x)) (visit opt getInitialValue e) :=
  visitHashed_same (heq ▸ visitExprMemo_same h)

mutual

theorem visitMemo_same : ∀ e : Expr,
    SameAs opt getInitialValue (visitMemo useVisitorHash opt getInitialValue e) (visit opt getInitialValue e)
  | .constant c => by
    unfold visitMemo visit
    exact .pure
  | .read root head index => by
    unfold visitMemo
    refine visitHashed_same ?_
    unfold visit
    have hindex : SameAs opt getInitialValue (visitMemo useVisitorHash opt getInitialValue index)
        (visit opt getInitialValue index) := visitMemo_same index
    refine .bind hindex fun v hv => ?_
    have hother : SameAs opt getInitialValue
        (visitMemo useVisitorHash opt getInitialValue index >>= fun v' =>
          Memo.lift (doChildren opt (.read root head index) [v']))
        (doChildren opt (.read root head index) [v]) := by
      have hbind := hindex.bind fun v' _ => Memo.Computes.lift (o := doChildren opt (.read root head index) [v'])
      rwa [hv] at hbind
    cases v with
    | constant c => exact .bind .lift fun _ _ => evalReadMemo_same root _ head
    | _ => exact hother
  | .notOptimized src => by
    unfold visitMemo
    exact visitNode_same (by rw [visit]) (.bind (visitMemo_same src) fun _ _ => .lift)
  | .select c t f => by
    unfold visitMemo
    exact visitNode_same (by rw [visit]) (.bind (visitMemo_same c) fun _ _ => .bind (visitMemo_same t) fun _ _ =>
      .bind (visitMemo_same f) fun _ _ => .lift)
  | .concat l r => by
    unfold visitMemo
    exact visitNode_same (by rw [visit]) (.bind (visitMemo_same l) fun _ _ => .bind (visitMemo_same r) fun _ _ => .lift)
  | .extract e _ _ => by
    unfold visitMemo
    exact visitNode_same (by rw [visit]) (.bind (visitMemo_same e) fun _ _ => .lift)
  | .cast _ e _ => by
    unfold visitMemo
    exact visitNode_same (by rw [visit]) (.bind (visitMemo_same e) fun _ _ => .lift)
  | .not e => by
    unfold visitMemo
    exact visitNode_same (by rw [visit]) (.bind (visitMemo_same e) fun _ _ => .lift)
  | .binary kind l r => by
    unfold visitMemo
    refine visitNode_same (by rw [visit]) (.bind (visitMemo_same l) fun _ _ => .bind (visitMemo_same r) fun _ _ => ?_)
    split
    · exact .lift
    · exact .lift
  | .cmp _ l r => by
    unfold visitMemo
    exact visitNode_same (by rw [visit]) (.bind (visitMemo_same l) fun _ _ => .bind (visitMemo_same r) fun _ _ => .lift)

theorem evalReadMemo_same (root : ExprArray) (index : Nat) : ∀ head : UpdateNode,
    SameAs opt getInitialValue (evalReadMemo useVisitorHash opt getInitialValue root index head)
      (evalRead opt getInitialValue root index head)
  | .nil => by
    unfold evalReadMemo evalRead
    split
    · exact .pure
    · exact .lift
  | .cons i value next => by
    unfold evalReadMemo evalRead
    refine .bind (visitMemo_same i) fun v _ => ?_
    cases v with
    | constant c =>
      refine .bind .lift fun k _ => ?_
      split
      · exact visitMemo_same value
      · exact evalReadMemo_same root index next
    | _ => exact .lift

end

end ExprEvaluator

end CgsKlee
