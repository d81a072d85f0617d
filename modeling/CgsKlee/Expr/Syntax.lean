import CgsKlee.Lib.APInt

/-!
# Expressions

The expressions of the solver language: constants, reads of arrays with their updates, and operations on bit vectors.
An expression has a width and, once the symbolic arrays have values, a value, which is what constant folding of the
whole expression gives.  `WellTyped` are the expressions whose operands have the widths that the assertions of the
constructors ask for, and `Defined` those in which no divisor is zero and no read is out of bounds.
-/

namespace CgsKlee

inductive CastKind
  | zext | sext
deriving DecidableEq, Repr

inductive BinaryKind
  | add | sub | mul | udiv | sdiv | urem | srem | and | or | xor | shl | lshr | ashr
deriving DecidableEq, Repr

inductive CmpKind
  | eq | ne | ult | ule | ugt | uge | slt | sle | sgt | sge
deriving DecidableEq, Repr

/-- The operation on constants: `ConstantExpr::ZExt` and `ConstantExpr::SExt`. -/
def CastKind.apply (kind : CastKind) (a : APInt) (w : Nat) : APInt :=
  match kind with
  | .zext => a.zextOrTrunc w
  | .sext => a.sextOrTrunc w

/-- What a division divides by.  A division by zero has no value of its own; it is taken to be one by one, which is
what the constructors of boolean divisions take every divisor for. -/
def divisor {w : Nat} (y : BitVec w) : BitVec w := if y = 0 then 1 else y

/-- The operation on bit vectors.  Shifts by the width or more shift everything out. -/
def BinaryKind.apply {w : Nat} (kind : BinaryKind) (x y : BitVec w) : BitVec w :=
  match kind with
  | .add => x + y
  | .sub => x - y
  | .mul => x * y
  | .udiv => x / divisor y
  | .sdiv => x.sdiv (divisor y)
  | .urem => x % divisor y
  | .srem => x.srem (divisor y)
  | .and => x &&& y
  | .or => x ||| y
  | .xor => x ^^^ y
  | .shl => x <<< y
  | .lshr => x >>> y
  | .ashr => x.sshiftRight' y

def BinaryKind.isDivision : BinaryKind → Bool
  | .udiv | .sdiv | .urem | .srem => true
  | _ => false

def CmpKind.apply {w : Nat} (kind : CmpKind) (x y : BitVec w) : Bool :=
  match kind with
  | .eq => x == y
  | .ne => x != y
  | .ult => x.ult y
  | .ule => x.ule y
  | .ugt => y.ult x
  | .uge => y.ule x
  | .slt => x.slt y
  | .sle => x.sle y
  | .sgt => y.slt x
  | .sge => y.sle x

/-- `Array`.  `id` is its address, by which arrays are told apart; a symbolic array has no constant values. -/
structure ExprArray where
  id : Nat
  size : Nat
  domain : Nat
  range : Nat
  constantValues : List (BitVec range)
deriving DecidableEq, Repr

def ExprArray.isSymbolicArray (a : ExprArray) : Bool := a.constantValues.isEmpty

/-- Constant values fill the array, as the constructor asserts, and the bits of an index are at most 64 and enough for
all elements. -/
structure ExprArray.WellFormed (a : ExprArray) : Prop where
  constantValues : a.isSymbolicArray = false → a.constantValues.length = a.size
  domain_le : a.domain ≤ 64
  size_le : a.size ≤ 2 ^ a.domain

mutual

/-- `Expr`.  The update list of a read is its root and the most recent update. -/
inductive Expr
  | constant (value : APInt)
  | notOptimized (src : Expr)
  | read (root : ExprArray) (head : UpdateNode) (index : Expr)
  | select (cond trueExpr falseExpr : Expr)
  | concat (left right : Expr)
  | extract (expr : Expr) (offset width : Nat)
  | cast (kind : CastKind) (src : Expr) (width : Nat)
  | not (expr : Expr)
  | binary (kind : BinaryKind) (left right : Expr)
  | cmp (kind : CmpKind) (left right : Expr)

inductive UpdateNode
  | nil
  | cons (index value : Expr) (next : UpdateNode)

end

deriving instance DecidableEq for Expr, UpdateNode

def UpdateNode.toList : UpdateNode → List (Expr × Expr)
  | .nil => []
  | .cons index value next => (index, value) :: next.toList

mutual

def Expr.nodes : Expr → Nat
  | .constant _ => 1
  | .notOptimized src => src.nodes + 1
  | .read _ head index => head.nodes + index.nodes + 1
  | .select cond trueExpr falseExpr => cond.nodes + trueExpr.nodes + falseExpr.nodes + 1
  | .concat left right => left.nodes + right.nodes + 1
  | .extract expr _ _ => expr.nodes + 1
  | .cast _ src _ => src.nodes + 1
  | .not expr => expr.nodes + 1
  | .binary _ left right => left.nodes + right.nodes + 1
  | .cmp _ left right => left.nodes + right.nodes + 1

def UpdateNode.nodes : UpdateNode → Nat
  | .nil => 1
  | .cons index value next => index.nodes + value.nodes + next.nodes + 1

end

def Expr.width : Expr → Nat
  | .constant value => value.width
  | .notOptimized src => src.width
  | .read root _ _ => root.range
  | .select _ trueExpr _ => trueExpr.width
  | .concat left right => left.width + right.width
  | .extract _ _ width => width
  | .cast _ _ width => width
  | .not expr => expr.width
  | .binary _ left _ => left.width
  | .cmp _ _ _ => 1

mutual

/-- The operands of every node have the widths that its constructor asks for. -/
def Expr.WellTyped : Expr → Prop
  | .constant _ => True
  | .notOptimized src => src.WellTyped
  | .read root head index =>
    root.WellFormed ∧ head.WellTyped root ∧ index.WellTyped ∧ index.width = root.domain
  | .select cond trueExpr falseExpr =>
    cond.WellTyped ∧ trueExpr.WellTyped ∧ falseExpr.WellTyped ∧ cond.width = 1 ∧ trueExpr.width = falseExpr.width
  | .concat left right => left.WellTyped ∧ right.WellTyped
  | .extract expr offset width => expr.WellTyped ∧ 0 < width ∧ offset + width ≤ expr.width
  | .cast _ src width => src.WellTyped ∧ src.width ≤ width
  | .not expr => expr.WellTyped
  | .binary _ left right => left.WellTyped ∧ right.WellTyped ∧ left.width = right.width
  | .cmp _ left right => left.WellTyped ∧ right.WellTyped ∧ left.width = right.width

def UpdateNode.WellTyped (root : ExprArray) : UpdateNode → Prop
  | .nil => True
  | .cons index value next =>
    index.WellTyped ∧ value.WellTyped ∧ next.WellTyped root ∧ index.width = root.domain ∧ value.width = root.range

end

/-- The contents of all symbolic arrays. -/
abbrev Valuation := (a : ExprArray) → Nat → BitVec a.range

def ExprArray.initial (m : Valuation) (a : ExprArray) (i : Nat) : BitVec a.range :=
  if a.isSymbolicArray then m a i else a.constantValues.getD i 0

mutual

def Expr.eval (m : Valuation) : Expr → APInt
  | .constant value => value
  | .notOptimized src => src.eval m
  | .read root head index => head.lookup m ⟨root.range, root.initial m (index.eval m).toNat⟩ (index.eval m).toNat
  | .select cond trueExpr falseExpr => if (cond.eval m).toNat = 1 then trueExpr.eval m else falseExpr.eval m
  | .concat left right => (left.eval m).append (right.eval m)
  | .extract expr offset width => (expr.eval m).extract offset width
  | .cast kind src width => kind.apply (src.eval m) width
  | .not expr => (expr.eval m).complement
  | .binary kind left right => APInt.map₂ kind.apply (left.eval m) (right.eval m)
  | .cmp kind left right => APInt.rel₂ kind.apply (left.eval m) (right.eval m)

def UpdateNode.lookup (m : Valuation) (initial : APInt) (i : Nat) : UpdateNode → APInt
  | .nil => initial
  | .cons index value next => if (index.eval m).toNat = i then value.eval m else next.lookup m initial i

end

mutual

/-- No divisor in the expression is zero, and every read is in bounds. -/
def Expr.Defined (m : Valuation) : Expr → Prop
  | .constant _ => True
  | .notOptimized src => src.Defined m
  | .read root head index => head.Defined m ∧ index.Defined m ∧ (index.eval m).toNat < root.size
  | .select cond trueExpr falseExpr => cond.Defined m ∧ trueExpr.Defined m ∧ falseExpr.Defined m
  | .concat left right => left.Defined m ∧ right.Defined m
  | .extract expr _ _ => expr.Defined m
  | .cast _ src _ => src.Defined m
  | .not expr => expr.Defined m
  | .binary kind left right =>
    left.Defined m ∧ right.Defined m ∧ (kind.isDivision = true → (right.eval m).toNat ≠ 0)
  | .cmp _ left right => left.Defined m ∧ right.Defined m

def UpdateNode.Defined (m : Valuation) : UpdateNode → Prop
  | .nil => True
  | .cons index value next => index.Defined m ∧ value.Defined m ∧ next.Defined m

end

mutual

theorem Expr.width_eval (m : Valuation) : ∀ e : Expr, e.WellTyped → (e.eval m).width = e.width
  | .constant _, _ => rfl
  | .notOptimized src, h => src.width_eval m h
  | .read root head _, h => head.width_lookup m root h.2.1 rfl _
  | .select cond t f, h => by
    obtain ⟨-, ht, hf, -, hw⟩ := h
    unfold Expr.eval Expr.width
    split
    · exact t.width_eval m ht
    · exact (f.width_eval m hf).trans hw.symm
  | .concat l r, h => congrArg₂ (· + ·) (l.width_eval m h.1) (r.width_eval m h.2)
  | .extract _ _ _, _ => rfl
  | .cast kind _ _, _ => by cases kind <;> rfl
  | .not e, h => e.width_eval m h
  | .binary _ l _, h => l.width_eval m h.1
  | .cmp _ _ _, _ => rfl

theorem UpdateNode.width_lookup (m : Valuation) (root : ExprArray) : ∀ u : UpdateNode, u.WellTyped root →
    ∀ {initial : APInt}, initial.width = root.range → ∀ i, (u.lookup m initial i).width = root.range
  | .nil, _, _, h, _ => h
  | .cons index value next, hu, _, h, i => by
    obtain ⟨-, hv, hn, -, hw⟩ := hu
    unfold UpdateNode.lookup
    split
    · exact (value.width_eval m hv).trans hw
    · exact next.width_lookup m root hn h i

end

end CgsKlee
