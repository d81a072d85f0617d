import CgsKlee.Expr.Evaluator
import CgsKlee.Lib.SolverTerms

/-!
# Building solver terms

The translation of expressions to terms of a solver, which `STPBuilder` and `Z3Builder` share: `construct` with its table
of expressions that were built before, the arrays with their tables, and the operations that both write in the same way.
What the two do differently is a `Backend`.  An expression of width 1 becomes a truth value, every other one a vector.
`none` is a failed assertion.
-/

namespace CgsKlee

open Smt

def bvConst32 (width value : Nat) : SolverTerm := .const width value

def bvConst64 (width value : Nat) : SolverTerm := .const width value

/-- The loop of `bvZExtConst`, which puts zeros above 64 bits at a time. -/
def bvZExtConst.loop (width : Nat) (expr : SolverTerm) : SolverTerm :=
  if 64 < width then loop (width - 64) (.concat (bvConst64 64 0) expr)
  else .concat (bvConst64 width 0) expr
termination_by width

def bvZExtConst (width value : Nat) : SolverTerm :=
  if width ≤ 64 then bvConst64 width value else bvZExtConst.loop (width - 64) (bvConst64 64 value)

def bvOne (width : Nat) : SolverTerm := bvZExtConst width 1

def bvZero (width : Nat) : SolverTerm := bvZExtConst width 0

def bvExtract (expr : SolverTerm) (top bottom : Nat) : SolverTerm := .extract expr top bottom

def bvBoolExtract (expr : SolverTerm) (bit : Nat) : SolverTerm := .eq (bvExtract expr bit bit) (bvOne 1)

def bvRightShift (expr : SolverTerm) (shift : Nat) : SolverTerm :=
  let width := expr.bvLength
  if shift = 0 then expr
  else if width ≤ shift then bvZero width
  else .concat (bvZero shift) (bvExtract expr (width - 1) shift)

def bvLeftShift (expr : SolverTerm) (shift : Nat) : SolverTerm :=
  let width := expr.bvLength
  if shift = 0 then expr
  else if width ≤ shift then bvZero width
  else .concat (bvExtract expr (width - shift - 1) 0) (bvZero shift)

def constructAShrByConstant (bvMinusOne : Nat → SolverTerm) (expr : SolverTerm) (shift : Nat) (isSigned : SolverTerm) : SolverTerm :=
  let width := expr.bvLength
  if shift = 0 then expr
  else if width ≤ shift then bvZero width
  else .ite isSigned (.concat (bvMinusOne shift) (bvExtract expr (width - 1) shift)) (bvRightShift expr shift)

/-- The loop of the variable shifts: one case for each amount below `n`, the first one outermost. -/
def shiftCases (cond : Nat → Option SolverTerm) (shifted : Nat → SolverTerm) : Nat → SolverTerm → Option SolverTerm
  | 0, res => some res
  | i + 1, res => do
    let c ← cond i
    shiftCases cond shifted i (.ite c (shifted i) res)

/-- The loop over the words of a wide constant, the lowest of which is in `res`. -/
def constructConstant.loop (tmp : APInt) (res : SolverTerm) : SolverTerm :=
  if 64 < tmp.width then
    let tmp' := tmp.extract 64 (tmp.width - 64)
    let width := min 64 tmp'.width
    loop tmp' (.concat (bvConst64 width (tmp'.extract 0 width).toNat) res)
  else res
termination_by tmp.width
decreasing_by
  rw [APInt.width_extract]
  omega

def constructConstant (c : APInt) : SolverTerm :=
  if c.width = 1 then .bool (ConstantExpr.isTrue c)
  else if c.width ≤ 32 then bvConst32 c.width c.toNat
  else if c.width ≤ 64 then bvConst64 c.width c.toNat
  else constructConstant.loop c (bvConst64 64 (c.extract 0 64).toNat)

def Expr.asConstant : Expr → Option APInt
  | .constant value => some value
  | _ => none

/-- The tables of a builder: `_array_hash`, `_update_node_hash` and `constructed`, and what is to be asserted of the
constant arrays. -/
structure BuilderState where
  arrays : List (ExprArray × ArrayTerm)
  nodes : List ((ExprArray × UpdateNode) × ArrayTerm)
  constructed : List (Expr × SolverTerm × Nat)
  constantArrayAssertions : List (ExprArray × List SolverTerm)

abbrev BuilderM := StateT BuilderState Option

def BuilderState.empty : BuilderState := ⟨[], [], [], []⟩

/-- What the two builders do differently.  A function with result `Option (Option SolverTerm)` is a special case for a
constant operand of a given width; if it gives nothing, the general case is taken. -/
structure Backend where
  useConstructHash : Bool
  bvMinusOne : Nat → SolverTerm
  iffExpr : SolverTerm → SolverTerm → Option SolverTerm
  zeroExtend : SolverTerm → Nat → Nat → Option SolverTerm
  bvSignExtend : SolverTerm → Nat → Option SolverTerm
  op : BvOp → Nat → SolverTerm → SolverTerm → Option SolverTerm
  bvVarLeftShift : SolverTerm → SolverTerm → Option SolverTerm
  bvVarRightShift : SolverTerm → SolverTerm → Option SolverTerm
  bvVarArithRightShift : SolverTerm → SolverTerm → Option SolverTerm
  mulConstant : APInt → Nat → SolverTerm → Option (Option SolverTerm)
  udivConstant : APInt → Nat → SolverTerm → Option (Option SolverTerm)
  sdivConstant : APInt → Nat → SolverTerm → Option (Option SolverTerm)
  uremConstant : APInt → Nat → SolverTerm → Option (Option SolverTerm)
  initialArray : ExprArray → ArrayTerm → BuilderM ArrayTerm

/-- What was constructed, with the width that is reported. -/
abbrev Built := SolverTerm × Nat

namespace Backend

variable (b : Backend)

/-- An assertion or an operation that can fail. -/
def lift {α : Type} (x : Option α) : BuilderM α := fun s => x.map (·, s)

def constructSelect (cond trueExpr falseExpr : BuilderM Built) : BuilderM Built := do
  let (cond, _) ← cond
  let (tExpr, _) ← trueExpr
  let (fExpr, width) ← falseExpr
  pure (.ite cond tExpr fExpr, width)

def constructConcat (width : Nat) (left right : BuilderM Built) : BuilderM Built := do
  let (res, _) ← right
  let (left, _) ← left
  pure (.concat left res, width)

def constructExtract (offset width : Nat) (expr : BuilderM Built) : BuilderM Built := do
  let (src, _) ← expr
  if width = 1 then pure (bvBoolExtract src offset, width)
  else pure (bvExtract src (offset + width - 1) offset, width)

def constructCast (kind : CastKind) (width : Nat) (src : BuilderM Built) : BuilderM Built := do
  let (src, srcWidth) ← src
  match kind with
  | .zext =>
    if srcWidth = 1 then pure (.ite src (bvOne width) (bvZero width), width)
    else do
      let t ← lift (b.zeroExtend src srcWidth width)
      pure (t, width)
  | .sext =>
    if srcWidth = 1 then pure (.ite src (b.bvMinusOne width) (bvZero width), width)
    else do
      let t ← lift (b.bvSignExtend src width)
      pure (t, width)

def constructNot (expr : BuilderM Built) : BuilderM Built := do
  let (expr, width) ← expr
  if width = 1 then pure (.not expr, width) else pure (.bvNot expr, width)

def constructArith (o : BvOp) (left right : BuilderM Built) : BuilderM Built := do
  let (left, _) ← left
  let (right, width) ← right
  if width = 1 then failure
  else do
    let t ← lift (b.op o width left right)
    pure (t, width)

def constructMul (leftExpr : Expr) (left right : BuilderM Built) : BuilderM Built := do
  let (right, width) ← right
  if width = 1 then failure
  else
    match leftExpr.asConstant.bind fun c => b.mulConstant c width right with
    | some t => do
      let t ← lift t
      pure (t, width)
    | none => do
      let (left, width) ← left
      let t ← lift (b.op .mul width left right)
      pure (t, width)

/-- `Expr::UDiv`, `Expr::SDiv` and `Expr::URem`. -/
def constructDivision (o : BvOp) (special : APInt → Nat → SolverTerm → Option (Option SolverTerm)) (rightExpr : Expr)
    (left right : BuilderM Built) : BuilderM Built := do
  let (left, width) ← left
  if width = 1 then failure
  else
    match rightExpr.asConstant.bind fun c => special c width left with
    | some t => do
      let t ← lift t
      pure (t, width)
    | none => do
      let (right, width) ← right
      let t ← lift (b.op o width left right)
      pure (t, width)

def constructBitwise (bool : SolverTerm → SolverTerm → SolverTerm) (o : BvOp) (left right : BuilderM Built) : BuilderM Built := do
  let (left, _) ← left
  let (right, width) ← right
  if width = 1 then pure (bool left right, width) else pure (.op o left right, width)

/-- `(unsigned) CE->getLimitedValue()`. -/
def shiftConstant (c : APInt) : Nat := min c.toNat (2 ^ 64 - 1) % 2 ^ 32

/-- `Expr::Shl`, `Expr::LShr` and `Expr::AShr`. -/
def constructShift (byConstant : Nat → SolverTerm → Nat → SolverTerm) (byTerm : SolverTerm → SolverTerm → Option SolverTerm) (rightExpr : Expr)
    (left right : BuilderM Built) : BuilderM Built := do
  let (left, width) ← left
  if width = 1 then failure
  else
    match rightExpr.asConstant with
    | some c => pure (byConstant width left (shiftConstant c), width)
    | none => do
      let (amount, _) ← right
      let t ← lift (byTerm left amount)
      pure (t, width)

def ashrByConstant (width : Nat) (left : SolverTerm) (shift : Nat) : SolverTerm :=
  constructAShrByConstant b.bvMinusOne left shift (bvBoolExtract left (width - 1))

def constructBinary (kind : BinaryKind) (leftExpr rightExpr : Expr) (left right : BuilderM Built) : BuilderM Built :=
  match kind with
  | .add => b.constructArith .add left right
  | .sub => b.constructArith .sub left right
  | .mul => b.constructMul leftExpr left right
  | .udiv => b.constructDivision .udiv b.udivConstant rightExpr left right
  | .sdiv => b.constructDivision .sdiv b.sdivConstant rightExpr left right
  | .urem => b.constructDivision .urem b.uremConstant rightExpr left right
  | .srem => b.constructArith .srem left right
  | .and => constructBitwise .and .and left right
  | .or => constructBitwise .or .or left right
  | .xor => constructBitwise (fun l r => .ite l (.not r) r) .xor left right
  | .shl => constructShift (fun _ => bvLeftShift) b.bvVarLeftShift rightExpr left right
  | .lshr => constructShift (fun _ => bvRightShift) b.bvVarRightShift rightExpr left right
  | .ashr => constructShift b.ashrByConstant b.bvVarArithRightShift rightExpr left right

def constructEq (leftExpr : Expr) (left right : BuilderM Built) : BuilderM Built := do
  let (left, _) ← left
  let (right, width) ← right
  if width = 1 then
    match leftExpr.asConstant with
    | some c => pure (if ConstantExpr.isTrue c then right else .not right, width)
    | none => do
      let t ← lift (b.iffExpr left right)
      pure (t, width)
  else pure (.eq left right, 1)

/-- `Expr::Ult`, `Expr::Ule`, `Expr::Slt` and `Expr::Sle`. -/
def constructOrder (r : BvRel) (left right : BuilderM Built) : BuilderM Built := do
  let (left, _) ← left
  let (right, width) ← right
  if width = 1 then failure else pure (.rel r left right, 1)

def constructCmp (kind : CmpKind) (leftExpr : Expr) (left right : BuilderM Built) : BuilderM Built :=
  match kind with
  | .eq => b.constructEq leftExpr left right
  | .ult => constructOrder .ult left right
  | .ule => constructOrder .ule left right
  | .slt => constructOrder .slt left right
  | .sle => constructOrder .sle left right
  | .ne | .ugt | .uge | .sgt | .sge => failure

/-- The table `constructed` around `constructActual`. -/
def hashed (e : Expr) (constructActual : BuilderM Built) : BuilderM Built := fun s =>
  if b.useConstructHash then
    match s.constructed.lookup e with
    | some res => some (res, s)
    | none => do
      let (res, s) ← constructActual s
      some (res, { s with constructed := (e, res) :: s.constructed })
  else constructActual s

variable (name : ExprArray → String)

/-- `getInitialArray`.  The variable is told apart by the number of arrays before it. -/
def getInitialArray (root : ExprArray) : BuilderM ArrayTerm := fun s =>
  match s.arrays.lookup root with
  | some array => some (array, s)
  | none => do
    let (array, s) ← b.initialArray root (.var (name root ++ toString s.arrays.length) root.domain root.range) s
    some (array, { s with arrays := (root, array) :: s.arrays })

/-- One turn of the second loop of `getArrayForUpdate`: the write of a node over the array of the next one. -/
def writeNode (root : ExprArray) (un : UpdateNode) (next : BuilderM ArrayTerm) (index value : BuilderM Built) :
    BuilderM ArrayTerm := fun s =>
  match s.nodes.lookup (root, un) with
  | some array => some (array, s)
  | none => do
    let (array, s) ← next s
    let (index, s) ← index s
    let (value, s) ← value s
    let array := .write array index.1 value.1
    some (array, { s with nodes := ((root, un), array) :: s.nodes })

def constructRead (root : ExprArray) (array : BuilderM ArrayTerm) (index : BuilderM Built) : BuilderM Built := do
  let array ← array
  let (index, _) ← index
  pure (.read array index, root.range)

mutual

def construct : Expr → BuilderM Built
  | .constant value => pure (constructConstant value, value.width)
  | .notOptimized src => b.hashed (.notOptimized src) (construct src)
  | .read root head index =>
    b.hashed (.read root head index) (constructRead root (getArrayForUpdate root head) (construct index))
  | .select cond trueExpr falseExpr =>
    b.hashed (.select cond trueExpr falseExpr)
      (constructSelect (construct cond) (construct trueExpr) (construct falseExpr))
  | .concat left right =>
    b.hashed (.concat left right)
      (constructConcat (Expr.concat left right).width (construct left) (construct right))
  | .extract expr offset width =>
    b.hashed (.extract expr offset width) (constructExtract offset width (construct expr))
  | .cast kind src width => b.hashed (.cast kind src width) (b.constructCast kind width (construct src))
  | .not expr => b.hashed (.not expr) (constructNot (construct expr))
  | .binary kind left right =>
    b.hashed (.binary kind left right) (b.constructBinary kind left right (construct left) (construct right))
  | .cmp kind left right =>
    b.hashed (.cmp kind left right) (b.constructCmp kind left (construct left) (construct right))

/-- `getArrayForUpdate`: back to the first node that is in the table, and forth again. -/
def getArrayForUpdate (root : ExprArray) : UpdateNode → BuilderM ArrayTerm
  | .nil => b.getInitialArray name root
  | .cons index value next =>
    writeNode root (.cons index value next) (getArrayForUpdate root next) (construct index) (construct value)

end

end Backend

end CgsKlee
