import CgsKlee.Expr.Visitor

/-!
# Expression builders

The builders that the tools and the parser construct expressions with, as they are stacked: `ConstantFoldingExprBuilder`
over `DefaultExprBuilder`, and `SimplifyingExprBuilder` over both.  A layer folds nodes of constants and hands the rest
to its rules; the rules call the layer they are in (`Builder`) or the one below (`Base`).  A call is given by the plain
node that it stands for, so `DefaultExprBuilder` is the identity.

The rules for sums and differences call their layer back.  `add` and `sub` follow the calls to a depth that is enough
for all of them.
-/

namespace CgsKlee

open ConstantExpr

namespace ConstantExpr

def neg (c : APInt) : APInt := ⟨c.width, -c.value⟩

/-- The operations on two constants: `ConstantExpr::Add` and the others.  A division by zero fails. -/
def fold (kind : BinaryKind) (a b : APInt) : Option APInt :=
  if a.width = b.width ∧ ¬(kind.isDivision = true ∧ isZero b = true) then some (APInt.map₂ kind.apply a b) else none

/-- `ConstantExpr::Eq` and the other comparisons. -/
def compare (kind : CmpKind) (a b : APInt) : Option APInt :=
  if a.width = b.width then some (APInt.rel₂ kind.apply a b) else none

end ConstantExpr

/-- The dispatch of `ConstantSpecializedExprBuilder` on the operands: two constants are folded, and the helper class has
a function for a constant on the left, one for a constant on the right, and one for no constant. -/
def specialize (fold : APInt → APInt → Option APInt) (constantL : APInt → Expr → Option Expr)
    (constantR : Expr → APInt → Option Expr) (nonConstant : Expr → Expr → Option Expr) (l r : Expr) : Option Expr :=
  match l, r with
  | .constant a, .constant b => (fold a b).map .constant
  | .constant a, r => constantL a r
  | l, .constant b => constantR l b
  | l, r => nonConstant l r

/-- The loop of `ConstantSpecializedExprBuilder::Read`: updates of other indices are passed. -/
def rollBack (Eq : Expr → Expr → Option Expr) (index : Expr) : UpdateNode → Option UpdateNode
  | .nil => some .nil
  | .cons i value next => do
    match ← Eq index i with
    | .constant c => if isFalse c then rollBack Eq index next else some (.cons i value next)
    | _ => some (.cons i value next)

namespace ConstantFoldingBuilder

/-! Sums and differences, where `Add` and `Sub` are those of the layer. -/

section Sums

variable (Add Sub : Expr → Expr → Option Expr)

def addConstant (c : APInt) (r : Expr) : Option Expr :=
  -- 0 + X ==> X
  if isZero c then some r
  else
    match r with
    -- C_0 + (C_1 + X) ==> (C_0 + C1) + X
    | .binary .add (.constant d) x => do Add (.constant (← fold .add c d)) x
    -- C_0 + (X + C_1) ==> (C_0 + C1) + X
    | .binary .add x (.constant d) => do Add (.constant (← fold .add c d)) x
    -- C_0 + (C_1 - X) ==> (C_0 + C1) - X
    | .binary .sub (.constant d) x => do Sub (.constant (← fold .add c d)) x
    -- C_0 + (X - C_1) ==> (C_0 - C1) + X
    | .binary .sub x (.constant d) => do Add (.constant (← fold .sub c d)) x
    | r => some (.binary .add (.constant c) r)

def addNonConstant (l r : Expr) : Option Expr :=
  match l with
  -- (X + Y) + Z ==> X + (Y + Z)
  | .binary .add x y => do Add x (← Add y r)
  -- (X - Y) + Z ==> X + (Z - Y)
  | .binary .sub x y => do Add x (← Sub r y)
  | l =>
    match r with
    -- X + (C_0 + Y) ==> C_0 + (X + Y)
    | .binary .add (.constant c) y => do Add (.constant c) (← Add l y)
    -- X + (Y + C_0) ==> C_0 + (X + Y)
    | .binary .add y (.constant c) => do Add (.constant c) (← Add l y)
    -- X + (C_0 - Y) ==> C_0 + (X - Y)
    | .binary .sub (.constant c) y => do Add (.constant c) (← Sub l y)
    -- X + (Y - C_0) ==> -C_0 + (X + Y)
    | .binary .sub y (.constant c) => do Add (.constant (neg c)) (← Add l y)
    | r => some (.binary .add l r)

def subConstant (c : APInt) (r : Expr) : Option Expr :=
  match r with
  -- C_0 - (C_1 + X) ==> (C_0 - C1) - X
  | .binary .add (.constant d) x => do Sub (.constant (← fold .sub c d)) x
  | .binary .add x (.constant d) => do Sub (.constant (← fold .sub c d)) x
  -- C_0 - (C_1 - X) ==> (C_0 - C1) + X
  | .binary .sub (.constant d) x => do Add (.constant (← fold .sub c d)) x
  -- C_0 - (X - C_1) ==> (C_0 + C1) - X
  | .binary .sub x (.constant d) => do Sub (.constant (← fold .add c d)) x
  | r => some (.binary .sub (.constant c) r)

def subNonConstant (l r : Expr) : Option Expr :=
  match l with
  -- (X + Y) - Z ==> X + (Y - Z)
  | .binary .add x y => do Add x (← Sub y r)
  -- (X - Y) - Z ==> X - (Y + Z)
  | .binary .sub x y => do Sub x (← Add y r)
  | l =>
    match r with
    -- X - (C + Y) ==> -C + (X - Y)
    | .binary .add (.constant c) y => do Add (.constant (neg c)) (← Sub l y)
    -- X - (Y + C) ==> -C + (X + Y), where the code has the difference X - Y
    | .binary .add y (.constant c) => do Add (.constant (neg c)) (← Sub l y)
    -- X - (C - Y) ==> -C + (X + Y)
    | .binary .sub (.constant c) y => do Add (.constant (neg c)) (← Add l y)
    -- X - (Y - C) ==> C + (X - Y)
    | .binary .sub y (.constant c) => do Add (.constant c) (← Sub l y)
    | r => some (.binary .sub l r)

end Sums

mutual

def addBounded : Nat → Expr → Expr → Option Expr
  | 0, _, _ => none
  | depth + 1, l, r =>
    specialize (fold .add) (addConstant (addBounded depth) (subBounded depth))
      (fun l c => addConstant (addBounded depth) (subBounded depth) c l)
      (addNonConstant (addBounded depth) (subBounded depth)) l r

def subBounded : Nat → Expr → Expr → Option Expr
  | 0, _, _ => none
  | depth + 1, l, r =>
    specialize (fold .sub) (subConstant (addBounded depth) (subBounded depth))
      -- X - C_0 ==> -C_0 + X
      (fun l c => addConstant (addBounded depth) (subBounded depth) (neg c) l)
      (subNonConstant (addBounded depth) (subBounded depth)) l r

end

def summands : Expr → Nat
  | .binary .add l r => summands l + summands r
  | .binary .sub l r => summands l + summands r
  | _ => 1

/-- A call makes calls with fewer summands or, with as many, with fewer on the left, or with a constant there. -/
def callDepth (l r : Expr) : Nat :=
  2 * (summands l + summands r) ^ 2 + 2 * summands l + (if l.isConstant then 0 else 1)

def add (l r : Expr) : Option Expr := addBounded (callDepth l r + 1) l r

def sub (l r : Expr) : Option Expr := subBounded (callDepth l r + 1) l r

/-! The other kinds. -/

def mulConstant (c : APInt) (r : Expr) : Option Expr :=
  if isZero c then some (.constant c) else if isOne c then some r else some (.binary .mul (.constant c) r)

def andConstant (c : APInt) (r : Expr) : Option Expr :=
  if isZero c then some (.constant c) else if isAllOnes c then some r else some (.binary .and (.constant c) r)

def orConstant (c : APInt) (r : Expr) : Option Expr :=
  if isZero c then some r else if isAllOnes c then some (.constant c) else some (.binary .or (.constant c) r)

def xorConstant (c : APInt) (r : Expr) : Option Expr :=
  if isZero c then some r else some (.binary .xor (.constant c) r)

def commuted (kind : BinaryKind) (withConstant : APInt → Expr → Option Expr) : Expr → Expr → Option Expr :=
  specialize (fold kind) withConstant (fun l c => withConstant c l) fun l r => some (.binary kind l r)

def plain (kind : BinaryKind) : Expr → Expr → Option Expr :=
  specialize (fold kind) (fun c r => some (.binary kind (.constant c) r))
    (fun l c => some (.binary kind l (.constant c))) fun l r => some (.binary kind l r)

def binary : BinaryKind → Expr → Expr → Option Expr
  | .add => add
  | .sub => sub
  | .mul => commuted .mul mulConstant
  | .and => commuted .and andConstant
  | .or => commuted .or orConstant
  | .xor => commuted .xor xorConstant
  | kind => plain kind

def not : Expr → Option Expr
  -- !!X ==> X
  | .not e => some e
  | .constant c => some (.constant c.complement)
  | e => some (.not e)

/-- `Eq` of a constant and no constant: for booleans the operand or, by the `Not` of the layer below, its negation. -/
def eqConstant (Not : Expr → Option Expr) (Eq : Expr → Expr → Option Expr) (c : APInt) (r : Expr) : Option Expr :=
  if c.width = 1 then if isTrue c then some r else Not r
  else Eq (.constant c) r

def eq : Expr → Expr → Option Expr :=
  specialize (compare .eq) (eqConstant (fun e => some (.not e)) fun l r => some (.cmp .eq l r))
    (fun l c => eqConstant (fun e => some (.not e)) (fun l r => some (.cmp .eq l r)) c l)
    fun l r => some (.cmp .eq l r)

def cmp : CmpKind → Expr → Expr → Option Expr
  | .eq => eq
  | kind => specialize (compare kind) (fun c r => some (.cmp kind (.constant c) r))
    (fun l c => some (.cmp kind l (.constant c))) fun l r => some (.cmp kind l r)

def construct : Expr → Option Expr
  | .constant value => some (.constant value)
  | .notOptimized src => some (.notOptimized src)
  | .read root head index => do some (.read root (← rollBack eq index head) index)
  | .select (.constant c) trueExpr falseExpr => some (if isTrue c then trueExpr else falseExpr)
  | .select cond trueExpr falseExpr => some (.select cond trueExpr falseExpr)
  | .concat (.constant a) (.constant b) => some (.constant (a.append b))
  | .concat left right => some (.concat left right)
  | .extract (.constant c) offset width => some (.constant (c.extract offset width))
  | .extract expr offset width => some (.extract expr offset width)
  | .cast kind (.constant c) width => some (.constant (kind.apply c width))
  | .cast kind src width => some (.cast kind src width)
  | .not expr => not expr
  | .binary kind left right => binary kind left right
  | .cmp kind left right => cmp kind left right

end ConstantFoldingBuilder

namespace SimplifyingBuilder

/-- A kind without rules of its own: what is not constant goes to the layer below. -/
def chained (fold : APInt → APInt → Option APInt) (base : Expr → Expr → Option Expr) : Expr → Expr → Option Expr :=
  specialize fold (fun c r => base (.constant c) r) (fun l c => base l (.constant c)) base

def binary (kind : BinaryKind) : Expr → Expr → Option Expr :=
  chained (fold kind) (ConstantFoldingBuilder.binary kind)

def not : Expr → Option Expr
  | .not e => some e
  | .constant c => some (.constant c.complement)
  -- Transform !(a or b) ==> !a and !b.
  | .binary .or l r => do binary .and (← not l) (← not r)
  | e => ConstantFoldingBuilder.not e

def eqNonConstant (l r : Expr) : Option Expr :=
  -- X == X ==> true
  if l = r then some (.ofBool true) else ConstantFoldingBuilder.eq l r

def eq : Expr → Expr → Option Expr :=
  specialize (compare .eq)
    (ConstantFoldingBuilder.eqConstant ConstantFoldingBuilder.not ConstantFoldingBuilder.eq)
    (fun l c => ConstantFoldingBuilder.eqConstant ConstantFoldingBuilder.not ConstantFoldingBuilder.eq c l)
    eqNonConstant

def rewritten (kind : CmpKind) (build : Expr → Expr → Option Expr) : Expr → Expr → Option Expr :=
  chained (compare kind) build

def ult : Expr → Expr → Option Expr := chained (compare .ult) (ConstantFoldingBuilder.cmp .ult)

def ule : Expr → Expr → Option Expr := chained (compare .ule) (ConstantFoldingBuilder.cmp .ule)

def slt : Expr → Expr → Option Expr := chained (compare .slt) (ConstantFoldingBuilder.cmp .slt)

def sle : Expr → Expr → Option Expr := chained (compare .sle) (ConstantFoldingBuilder.cmp .sle)

def cmp : CmpKind → Expr → Expr → Option Expr
  | .eq => eq
  -- X != Y ==> !(X == Y)
  | .ne => rewritten .ne fun l r => do not (← eq l r)
  | .ult => ult
  | .ule => ule
  -- X u> Y ==> Y u< X
  | .ugt => rewritten .ugt fun l r => ult r l
  -- X u>= Y ==> Y u<= X
  | .uge => rewritten .uge fun l r => ule r l
  | .slt => slt
  | .sle => sle
  -- X s> Y ==> Y s< X
  | .sgt => rewritten .sgt fun l r => slt r l
  -- X s>= Y ==> Y s<= X
  | .sge => rewritten .sge fun l r => sle r l

def construct : Expr → Option Expr
  | .constant value => some (.constant value)
  | .notOptimized src => some (.notOptimized src)
  -- both layers roll back
  | .read root head index => do ConstantFoldingBuilder.construct (.read root (← rollBack eq index head) index)
  | .select (.constant c) trueExpr falseExpr => some (if isTrue c then trueExpr else falseExpr)
  | .concat (.constant a) (.constant b) => some (.constant (a.append b))
  | .extract (.constant c) offset width => some (.constant (c.extract offset width))
  | .cast kind (.constant c) width => some (.constant (kind.apply c width))
  | .select cond trueExpr falseExpr => ConstantFoldingBuilder.construct (.select cond trueExpr falseExpr)
  | .concat left right => ConstantFoldingBuilder.construct (.concat left right)
  | .extract expr offset width => ConstantFoldingBuilder.construct (.extract expr offset width)
  | .cast kind src width => ConstantFoldingBuilder.construct (.cast kind src width)
  | .not expr => not expr
  | .binary kind left right => binary kind left right
  | .cmp kind left right => cmp kind left right

end SimplifyingBuilder

inductive ExprBuilder
  | constantFolding | simplifying
deriving DecidableEq, Repr

def ExprBuilder.construct : ExprBuilder → Expr → Option Expr
  | .constantFolding => ConstantFoldingBuilder.construct
  | .simplifying => SimplifyingBuilder.construct

end CgsKlee
