import CgsKlee.Lib.CodeCompare
import CgsKlee.Expr.Syntax

/-!
# Expressions in memory, and their comparison

`Expr` objects and update nodes at their addresses, with whatever they share, and `Expr::compare`.  It takes equal
addresses, and pairs in a table of expressions found equal, for equal, tells expressions of different kinds or hashes
apart, and goes on with what the expressions hold.  The table is one variable of the program: the comparisons of update
nodes inside the comparison of two reads use it too, and empty it.
-/

namespace CgsKlee

open CodeCompare (Comparing done andThen)

inductive ExprKind
  | constant | notOptimized | read | select | concat | extract | cast (kind : CastKind) | not
  | binary (kind : BinaryKind) | cmp (kind : CmpKind)
  deriving DecidableEq

def ExprKind.number : ExprKind → Nat
  | .constant => 0
  | .notOptimized => 1
  | .read => 3
  | .select => 4
  | .concat => 5
  | .extract => 6
  | .cast .zext => 7
  | .cast .sext => 8
  | .not => 9
  | .binary .add => 10
  | .binary .sub => 11
  | .binary .mul => 12
  | .binary .udiv => 13
  | .binary .sdiv => 14
  | .binary .urem => 15
  | .binary .srem => 16
  | .binary .and => 17
  | .binary .or => 18
  | .binary .xor => 19
  | .binary .shl => 20
  | .binary .lshr => 21
  | .binary .ashr => 22
  | .cmp .eq => 23
  | .cmp .ne => 24
  | .cmp .ult => 25
  | .cmp .ule => 26
  | .cmp .ugt => 27
  | .cmp .uge => 28
  | .cmp .slt => 29
  | .cmp .sle => 30
  | .cmp .sgt => 31
  | .cmp .sge => 32

def Expr.kind : Expr → ExprKind
  | .constant _ => .constant
  | .notOptimized _ => .notOptimized
  | .read .. => .read
  | .select .. => .select
  | .concat .. => .concat
  | .extract .. => .extract
  | .cast kind _ _ => .cast kind
  | .not _ => .not
  | .binary kind _ _ => .binary kind
  | .cmp kind _ _ => .cmp kind

def magicHashConstant : BitVec 32 := 39

def computeHash (kind : ExprKind) (kids : List (BitVec 32)) : BitVec 32 :=
  kids.foldl (fun res kid => (res <<< 1) ^^^ (kid * magicHashConstant)) (BitVec.ofNat 32 kind.number * magicHashConstant)

section Hash

/-! The names of the arrays, and the hash that LLVM gives to an integer of more than 64 bits. -/

variable (name : ExprArray → List UInt8) (hash_value : APInt → BitVec 64)

/-- `UpdateList::hash` without the updates; characters have a sign. -/
def nameHash (root : ExprArray) : BitVec 32 :=
  (name root).foldl (fun res c => res * magicHashConstant + c.toBitVec.signExtend 32) 0

mutual

def Expr.hash : Expr → BitVec 32
  | .constant value =>
    (if value.width ≤ 64 then BitVec.ofNat 32 value.toNat else (hash_value value).setWidth 32) ^^^
      (BitVec.ofNat 32 value.width * magicHashConstant)
  | .notOptimized src => computeHash .notOptimized [src.hash]
  | .read root head index => (index.hash * magicHashConstant) ^^^ (nameHash name root ^^^ head.hash)
  | .select cond trueExpr falseExpr => computeHash .select [cond.hash, trueExpr.hash, falseExpr.hash]
  | .concat left right => computeHash .concat [left.hash, right.hash]
  | .extract expr offset width =>
    (BitVec.ofNat 32 offset * magicHashConstant) ^^^ (BitVec.ofNat 32 width * magicHashConstant) ^^^
      (expr.hash * magicHashConstant)
  | .cast _ src width => (BitVec.ofNat 32 width * magicHashConstant) ^^^ (src.hash * magicHashConstant)
  | .not expr => expr.hash * magicHashConstant * BitVec.ofNat 32 ExprKind.not.number
  | .binary kind left right => computeHash (.binary kind) [left.hash, right.hash]
  | .cmp kind left right => computeHash (.cmp kind) [left.hash, right.hash]

def UpdateNode.hash : UpdateNode → BitVec 32
  | .nil => 0
  | .cons index value next => index.hash ^^^ value.hash ^^^ next.hash

end

end Hash

mutual

inductive ExprObject
  | constant (address : Nat) (value : APInt)
  | notOptimized (address : Nat) (src : ExprObject)
  | read (address : Nat) (root : ExprArray) (head : UpdateObject) (index : ExprObject)
  | select (address : Nat) (cond trueExpr falseExpr : ExprObject)
  | concat (address : Nat) (left right : ExprObject)
  | extract (address : Nat) (expr : ExprObject) (offset width : Nat)
  | cast (address : Nat) (kind : CastKind) (src : ExprObject) (width : Nat)
  | not (address : Nat) (expr : ExprObject)
  | binary (address : Nat) (kind : BinaryKind) (left right : ExprObject)
  | cmp (address : Nat) (kind : CmpKind) (left right : ExprObject)

inductive UpdateObject
  | nil
  | cons (address : Nat) (index value : ExprObject) (next : UpdateObject)

end

mutual

def ExprObject.erase : ExprObject → Expr
  | .constant _ value => .constant value
  | .notOptimized _ src => .notOptimized src.erase
  | .read _ root head index => .read root head.erase index.erase
  | .select _ cond trueExpr falseExpr => .select cond.erase trueExpr.erase falseExpr.erase
  | .concat _ left right => .concat left.erase right.erase
  | .extract _ expr offset width => .extract expr.erase offset width
  | .cast _ kind src width => .cast kind src.erase width
  | .not _ expr => .not expr.erase
  | .binary _ kind left right => .binary kind left.erase right.erase
  | .cmp _ kind left right => .cmp kind left.erase right.erase

def UpdateObject.erase : UpdateObject → UpdateNode
  | .nil => .nil
  | .cons _ index value next => .cons index.erase value.erase next.erase

end

def ExprObject.address : ExprObject → Nat
  | .constant address _ | .notOptimized address _ | .read address _ _ _ | .select address _ _ _
  | .concat address _ _ | .extract address _ _ _ | .cast address _ _ _ | .not address _ | .binary address _ _ _
  | .cmp address _ _ _ => address

def ExprObject.kids : ExprObject → List ExprObject
  | .constant _ _ => []
  | .notOptimized _ src => [src]
  | .read _ _ _ index => [index]
  | .select _ cond trueExpr falseExpr => [cond, trueExpr, falseExpr]
  | .concat _ left right => [left, right]
  | .extract _ expr _ _ => [expr]
  | .cast _ _ src _ => [src]
  | .not _ expr => [expr]
  | .binary _ _ left right => [left, right]
  | .cmp _ _ left right => [left, right]

def UpdateNode.size : UpdateNode → Nat
  | .nil => 0
  | .cons _ _ next => next.size + 1

/-- The objects in memory: what they refer to is there, and no address holds two of them. -/
structure Heap where
  objects : Set ExprObject
  updates : Set UpdateObject
  arrays : Set ExprArray
  kids_mem : ∀ x ∈ objects, ∀ kid ∈ x.kids, kid ∈ objects
  read_mem : ∀ p root head index, .read p root head index ∈ objects → root ∈ arrays ∧ head ∈ updates
  update_mem : ∀ p index value next, .cons p index value next ∈ updates →
    index ∈ objects ∧ value ∈ objects ∧ next ∈ updates
  object_unique : ∀ x ∈ objects, ∀ y ∈ objects, x.address = y.address → x = y
  update_unique : ∀ p i v n i' v' n', .cons p i v n ∈ updates → .cons p i' v' n' ∈ updates →
    UpdateObject.cons p i v n = .cons p i' v' n'
  array_unique : ∀ a ∈ arrays, ∀ b ∈ arrays, a.id = b.id → a = b

/-- `ExprEquivSet`: pairs of addresses, the smaller one first. -/
abbrev Equivs : Type := List (Nat × Nat)

section Compare

variable (name : ExprArray → List UInt8) (hash_value : APInt → BitVec 64) (useEquivs : Bool)

def wrongKind : Comparing Equivs := fun _ => none

/-- The frame of `Expr::compare`, around the comparison of the contents and of the kids.  `useEquivs` is true in the
program; without it the table is not asked. -/
def ExprObject.compareAround (a b : ExprObject) (contentsAndKids : Comparing Equivs) : Comparing Equivs := fun equivs =>
  if a.address = b.address then some (.eq, equivs)
  else
    let pair := (min a.address b.address, max a.address b.address)
    if useEquivs && equivs.contains pair then some (.eq, equivs)
    else andThen (done (compare a.erase.kind.number b.erase.kind.number))
      (andThen (done (compare (a.erase.hash name hash_value).toNat (b.erase.hash name hash_value).toNat))
        (andThen contentsAndKids fun equivs => some (.eq, pair :: equivs))) equivs

/-- `Expr::compare` with the one argument: the table is empty afterwards. -/
def clearing (f : Comparing Equivs) : Comparing Equivs := fun equivs => (f equivs).map fun r => (r.1, [])

/-- `UpdateList::compare` before the loop. -/
def compareRoots (root root' : ExprArray) (size size' : Nat) (nodes : Comparing Equivs) : Comparing Equivs :=
  andThen (done (compare ((name root).map UInt8.toNat) ((name root').map UInt8.toNat)))
    (andThen (done (compare root.id root'.id)) (andThen (done (compare size size')) nodes))

mutual

def ExprObject.compareIn : ExprObject → ExprObject → Comparing Equivs
  | .constant p value, b => ExprObject.compareAround name hash_value useEquivs (.constant p value) b <|
    match b with
    | .constant _ value' =>
      andThen (done (compare value.width value'.width)) (done (compare value.toNat value'.toNat))
    | _ => wrongKind
  | .notOptimized p src, b => ExprObject.compareAround name hash_value useEquivs (.notOptimized p src) b <|
    match b with
    | .notOptimized _ src' => src.compareIn src'
    | _ => wrongKind
  | .read p root head index, b => ExprObject.compareAround name hash_value useEquivs (.read p root head index) b <|
    match b with
    | .read _ root' head' index' =>
      andThen (compareRoots name root root' head.erase.size head'.erase.size (head.compareNodes head'))
        (index.compareIn index')
    | _ => wrongKind
  | .select p cond trueExpr falseExpr, b =>
    ExprObject.compareAround name hash_value useEquivs (.select p cond trueExpr falseExpr) b <|
    match b with
    | .select _ cond' trueExpr' falseExpr' =>
      andThen (cond.compareIn cond') (andThen (trueExpr.compareIn trueExpr') (falseExpr.compareIn falseExpr'))
    | _ => wrongKind
  | .concat p left right, b => ExprObject.compareAround name hash_value useEquivs (.concat p left right) b <|
    match b with
    | .concat _ left' right' =>
      andThen (done (compare (left.erase.width + right.erase.width) (left'.erase.width + right'.erase.width)))
        (andThen (left.compareIn left') (right.compareIn right'))
    | _ => wrongKind
  | .extract p expr offset width, b =>
    ExprObject.compareAround name hash_value useEquivs (.extract p expr offset width) b <|
    match b with
    | .extract _ expr' offset' width' =>
      andThen (done (compare offset offset')) (andThen (done (compare width width')) (expr.compareIn expr'))
    | _ => wrongKind
  | .cast p kind src width, b => ExprObject.compareAround name hash_value useEquivs (.cast p kind src width) b <|
    match b with
    | .cast _ _ src' width' => andThen (done (compare width width')) (src.compareIn src')
    | _ => wrongKind
  | .not p expr, b => ExprObject.compareAround name hash_value useEquivs (.not p expr) b <|
    match b with
    | .not _ expr' => expr.compareIn expr'
    | _ => wrongKind
  | .binary p kind left right, b => ExprObject.compareAround name hash_value useEquivs (.binary p kind left right) b <|
    match b with
    | .binary _ _ left' right' => andThen (left.compareIn left') (right.compareIn right')
    | _ => wrongKind
  | .cmp p kind left right, b => ExprObject.compareAround name hash_value useEquivs (.cmp p kind left right) b <|
    match b with
    | .cmp _ _ left' right' => andThen (left.compareIn left') (right.compareIn right')
    | _ => wrongKind

/-- The loop of `UpdateList::compare`, with `UpdateNode::compare` in its body and its assertion at the end. -/
def UpdateObject.compareNodes : UpdateObject → UpdateObject → Comparing Equivs
  | .nil, .nil => done .eq
  | .cons p index value next, .cons p' index' value' next' =>
    -- exploit shared list structure
    if p = p' then done .eq
    else andThen (andThen (clearing (index.compareIn index')) (clearing (value.compareIn value')))
      (next.compareNodes next')
  | _, _ => wrongKind

end

/-- `Expr::compare`: `lt`, `eq` and `gt` stand for `-1`, `0` and `1`. -/
def ExprObject.compare (a b : ExprObject) : Option Ordering :=
  ((clearing (a.compareIn name hash_value useEquivs b)) []).map Prod.fst

end Compare

end CgsKlee
