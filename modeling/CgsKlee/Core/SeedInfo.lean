import CgsKlee.Core.Replay
import CgsKlee.Expr.Constraints
import CgsKlee.Solver.ElementSets

/-!
# Seeds

A seed is a test file whose objects are bound, one after another, to the arrays that a path makes symbolic
(`executeMakeSymbolic`).  Where a seed violates a condition that the path takes, `patchSeed` changes its bytes: first
the bytes that the condition reads directly, then, if the condition still fails, all bytes in order.  Every patched
byte is added to a copy of the constraints, so that the later ones fit it.

An array has 32-bit indices and holds bytes.  A binding is indexed without a check; an index beyond its end is the
fault `outOfRange`, and what an assertion or a constructor refuses is the fault `assertion`.
-/

namespace CgsKlee

namespace Assignment

/-- `bindings[array] = values`. -/
def setBinding (array : ExprArray) (values : List Nat) : List (ExprArray × List Nat) → List (ExprArray × List Nat)
  | [] => [(array, values)]
  | b :: bindings =>
    if b.1 = array then (array, values) :: bindings
    else if b.1.id ≤ array.id then b :: setBinding array values bindings
    else (array, values) :: b :: bindings

/-- `it->second[i] = value` for the binding of the array. -/
def setByte (a : Assignment) (array : ExprArray) (i value : Nat) : Assignment :=
  ⟨a.bindings.map fun b => if b.1 = array then (b.1, b.2.set i value) else b⟩

section Options

variable (constArrayOpt : Bool)

/-- `Assignment::evaluate(array, index)` with `allowFreeValues`: a byte that is not bound is left as it is. -/
def freeByte (a : Assignment) (array : ExprArray) (index : Nat) : Option Expr :=
  match a.find array with
  | some bytes =>
    if h : index < bytes.length then some (.ofNat array.range bytes[index])
    else ReadExpr.create constArrayOpt array .nil (.ofNat array.domain index)
  | none => ReadExpr.create constArrayOpt array .nil (.ofNat array.domain index)

/-- `Assignment::evaluate(e)` with `allowFreeValues`. -/
def evaluateFree (a : Assignment) (e : Expr) : Option Expr :=
  ExprEvaluator.visit constArrayOpt (a.freeByte constArrayOpt) e

end Options

end Assignment

/-- `findReads` without `visitUpdates`, in another order and with repetitions. -/
def Expr.topReads : Expr → List ReadSite
  | .constant _ => []
  | .notOptimized src => src.topReads
  | .read root head index => ⟨root, head, index⟩ :: index.topReads
  | .select cond trueExpr falseExpr => cond.topReads ++ (trueExpr.topReads ++ falseExpr.topReads)
  | .concat left right => left.topReads ++ right.topReads
  | .extract expr _ _ => expr.topReads
  | .cast _ src _ => src.topReads
  | .not expr => expr.topReads
  | .binary _ left right => left.topReads ++ right.topReads
  | .cmp _ left right => left.topReads ++ right.topReads

/-- The byte of a read at a constant index.  The index, whose width is asserted to be at most 32, is cut to 32
bits. -/
def ReadSite.byte? (re : ReadSite) : Option (ExprArray × Nat) :=
  match re.index with
  | .constant c => some (re.root, c.toNat % 2 ^ 32)
  | _ => none

/-- The order of `std::pair<const Array*, unsigned>`. -/
def byteLe (x y : ExprArray × Nat) : Bool := x.1.id < y.1.id || (x.1.id == y.1.id && x.2 ≤ y.2)

def Expr.directReads (condition : Expr) : List (ExprArray × Nat) :=
  (condition.topReads.filterMap ReadSite.byte?).foldl
    (fun reads x => if x ∈ reads then reads else reads.orderedInsert (byteLe · ·) x) []

structure TimingSolver where
  mustBeFalse : ConstraintSet → Expr → Bool
  mayBeTrue : ConstraintSet → Expr → Bool
  getValue : ConstraintSet → Expr → APInt

inductive SeedFault
  | assertion | outOfRange
deriving DecidableEq, Repr

/-- What must not fail. -/
def SeedFault.assert {α : Type} : Option α → Except SeedFault α
  | some x => .ok x
  | none => .error .assertion

section Patch

variable (constArrayOpt useVisitorHash rewriteEqualities : Bool) (solver : TimingSolver)

/-- `EqExpr::create(read, ConstantExpr::alloc(value, Expr::Int8))`. -/
def byteIs (read : Expr) (value : Nat) : Except SeedFault Expr :=
  SeedFault.assert (EqExpr.create constArrayOpt read (.ofNat 8 value))

def require (required : ConstraintSet) (e : Expr) : Except SeedFault ConstraintSet :=
  SeedFault.assert (ConstraintManager.addConstraint constArrayOpt useVisitorHash rewriteEqualities required e)

def patchByte (s : ConstraintSet × Assignment) (byte : ExprArray × Nat) :
    Except SeedFault (ConstraintSet × Assignment) := do
  let (required, a) := s
  let (array, i) := byte
  let read ← SeedFault.assert (ReadExpr.create constArrayOpt array .nil (.ofNat 32 i))
  match a.find array with
  -- if not in bindings then this can't be a violation?
  | none => return s
  | some bytes =>
    match bytes[i]? with
    | none => throw .outOfRange
    | some seed =>
      let isSeed ← byteIs constArrayOpt read seed
      if solver.mustBeFalse required isSeed then
        let value := solver.getValue required read
        if value.width ≤ 8 then
          let isValue ← byteIs constArrayOpt read value.toNat
          return (← require constArrayOpt useVisitorHash rewriteEqualities required isValue,
            a.setByte array i value.toNat)
        else throw .assertion
      else return (← require constArrayOpt useVisitorHash rewriteEqualities required isSeed, a)

def patchBytes (s : ConstraintSet × Assignment) (bytes : List (ExprArray × Nat)) :
    Except SeedFault (ConstraintSet × Assignment) :=
  bytes.foldlM (patchByte constArrayOpt useVisitorHash rewriteEqualities solver) s

def Assignment.allBytes (a : Assignment) : List (ExprArray × Nat) :=
  a.bindings.flatMap fun b => (List.range b.1.size).map fun i => (b.1, i)

def patchSeed (constraints : ConstraintSet) (condition : Expr) (a : Assignment) : Except SeedFault Assignment := do
  let required ← require constArrayOpt useVisitorHash rewriteEqualities constraints condition
  -- try and patch direct reads first
  let (required, a) ← patchBytes constArrayOpt useVisitorHash rewriteEqualities solver (required, a)
    condition.directReads
  let e ← SeedFault.assert (a.evaluateFree constArrayOpt condition)
  if solver.mayBeTrue constraints e then return a
  else
    let (_, a) ← patchBytes constArrayOpt useVisitorHash rewriteEqualities solver (required, a) a.allBytes
    let e ← SeedFault.assert (a.evaluateFree constArrayOpt condition)
    if solver.mayBeTrue constraints e then return a else throw .assertion

end Patch

end CgsKlee
