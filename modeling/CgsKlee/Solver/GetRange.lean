import CgsKlee.Expr.ArithSound
import CgsKlee.Lib.BinarySearch
import CgsKlee.Solver.ConstantDivision
import CgsKlee.Solver.IndependentRight

/-!
# Ranges of expressions

`Solver::getRange` finds the least and the greatest value of an expression under constraints.  It searches for the
number of bits that the values need, then for the least value below the power of two, then for the greatest one from
the least value on.  Each search asks the solver about a comparison with the word in the middle.  With a solver that is
exact, the three searches decide properties that are closed upwards, and the ends of the intervals have them.
-/

namespace CgsKlee

open Symbolic ConstantExpr

def ConstantExpr.create (v : BitVec 64) (w : Nat) : Option Expr :=
  -- assert: invalid constant, in which `truncateToNBits` asserts that there are bits
  if w ≤ 64 ∧ (w = 0 ∨ Bits64.truncateToNBits v.toNat w ≠ v.toNat) then none else some (.ofNat w v.toNat)

theorem ConstantExpr.create_eq {v : BitVec 64} {w : Nat} (hpos : 0 < w) (hv : v.toNat < 2 ^ w) :
    ConstantExpr.create v w = some (.ofNat w v.toNat) := by
  refine if_neg ?_
  rintro ⟨hle, hzero | hne⟩
  · omega
  · rw [Bits64.truncateToNBits_eq hle, Nat.mod_eq_of_lt hv] at hne
    exact hne rfl

def Query.withExpr {E : Type} (q : Query E) (e : E) : Query E := { q with expr := e }

structure Query.WellTyped (q : Query Expr) : Prop where
  constraints : ∀ c ∈ q.constraints, c.WellTyped ∧ c.width = 1
  expr : q.expr.WellTyped

/-- The solver answers every boolean query whose constraints can be satisfied, and the answer is right. -/
structure SolverImpl.Exact (S : SolverImpl Expr ExprArray) : Prop where
  computeValidity : ∀ {q : Query Expr}, q.WellTyped → q.expr.width = 1 → (∃ m, q.IsModel m) →
    ∃ v, S.computeValidity q = some v ∧ SolverCall.RightAnswer (.validity q) (.validity v)
  computeTruth : ∀ {q : Query Expr}, q.WellTyped → q.expr.width = 1 → (∃ m, q.IsModel m) →
    ∃ b, S.computeTruth q = some b ∧ SolverCall.RightAnswer (.truth q) (.truth b)

namespace Solver

section Operations

variable (opt : Bool) (S : SolverImpl Expr ExprArray)

/-- `Solver::evaluate`.  A call that fails has no result, like one that fails an assertion. -/
def evaluate (query : Query Expr) : Option Validity :=
  -- assert: invalid expression type
  if query.expr.width = 1 then
    match query.expr with
    | .constant c => some (if isTrue c then .true else .false)
    | _ => S.computeValidity query
  else none

def mustBeTrue (query : Query Expr) : Option Bool :=
  -- assert: invalid expression type
  if query.expr.width = 1 then
    match query.expr with
    | .constant c => some (isTrue c)
    | _ => S.computeTruth query
  else none

/-- `Solver::mustBeFalse`, of the negated query. -/
def mustBeFalse (query : Query Expr) : Option Bool := do
  let neg ← query.expr.createIsZero opt
  mustBeTrue S (query.withExpr neg)

def mayBeTrue (query : Query Expr) : Option Bool := (mustBeFalse opt S query).map (!·)

/-- The question of the first search: nothing is left of the expression after a shift by `mid` bits. -/
def mustFitBits (query : Query Expr) (mid : BitVec 64) : Option Bool := do
  let e := query.expr
  let amount ← ConstantExpr.create mid e.width
  let shifted ← LShrExpr.create opt e amount
  let zero ← ConstantExpr.create 0 e.width
  let test ← EqExpr.create opt shifted zero
  mustBeTrue S (query.withExpr test)

def mayBeZero (query : Query Expr) : Option Bool := do
  let e := query.expr
  let zero ← ConstantExpr.create 0 e.width
  let test ← EqExpr.create opt e zero
  mayBeTrue opt S (query.withExpr test)

def mayBeAtMost (query : Query Expr) (mid : BitVec 64) : Option Bool := do
  let e := query.expr
  let bound ← ConstantExpr.create mid e.width
  let test ← UleExpr.create opt e bound
  mayBeTrue opt S (query.withExpr test)

def mustBeAtMost (query : Query Expr) (mid : BitVec 64) : Option Bool := do
  let e := query.expr
  let bound ← ConstantExpr.create mid e.width
  let test ← UleExpr.create opt e bound
  mustBeTrue S (query.withExpr test)

/-- The least value: zero, which is the common case, or what the second search finds. -/
def searchLeast (query : Query Expr) (greatest : BitVec 64) : Option (BitVec 64) := do
  let zero ← mayBeZero opt S query
  if zero then some 0 else BinarySearch.search (mayBeAtMost opt S query) 0 greatest

/-- The three searches of `Solver::getRange`.  The first one ends with `bits` and `lo` the same. -/
def searchRange (query : Query Expr) : Option (BitVec 64 × BitVec 64) := do
  let bits ← BinarySearch.search (mustFitBits opt S query) 0 (BitVec.ofNat 64 query.expr.width)
  let maxValue ← Bits64.maxValueOfNBits bits.toNat
  let greatest := BitVec.ofNat 64 maxValue
  let min ← searchLeast opt S query greatest
  let max ← BinarySearch.search (mustBeAtMost opt S query) min greatest
  some (min, max)

def rangeBounds (query : Query Expr) : Option (BitVec 64 × BitVec 64) :=
  if query.expr.width = 1 then
    (evaluate S query).map fun
      | .true => (1, 1)
      | .false => (0, 0)
      | .unknown => (0, 1)
  else
    match query.expr with
    | .constant c => (getZExtValue c).map fun v => (BitVec.ofNat 64 v, BitVec.ofNat 64 v)
    | _ => searchRange opt S query

def getRange (query : Query Expr) : Option (Expr × Expr) := do
  let (min, max) ← rangeBounds opt S query
  let lo ← ConstantExpr.create min query.expr.width
  let hi ← ConstantExpr.create max query.expr.width
  some (lo, hi)

end Operations

end Solver

def Query.values (q : Query Expr) : Set Nat := {v | ∃ m, q.IsModel m ∧ (q.expr.eval m).toNat = v}

/-- The expression is defined in the models of the constraints, if constant arrays are optimized. -/
def Query.DefinedInModels (opt : Bool) (q : Query Expr) : Prop := opt = true → ∀ m, q.IsModel m → q.expr.Defined m

namespace Solver

variable {opt : Bool} {S : SolverImpl Expr ExprArray} {query : Query Expr} {test node : Expr}

theorem mustBeTrue_spec (hS : S.Exact) (hq : query.WellTyped) (hsat : ∃ m, query.IsModel m) (ht : test.WellTyped)
    (hw : test.width = 1) :
    ∃ b, mustBeTrue S (query.withExpr test) = some b ∧
      (b = true ↔ ∀ m, query.IsModel m → test.eval m = .ofBool true) := by
  have hbool : (query.withExpr test).expr.width = 1 := hw
  unfold mustBeTrue
  rw [if_pos hbool]
  cases test with
  | constant c =>
    refine ⟨ConstantExpr.isTrue c, rfl, (isTrue_iff_eq hw).trans ⟨fun h _ _ => h, fun h => ?_⟩⟩
    obtain ⟨m, hm⟩ := hsat
    exact h m hm
  | _ => exact hS.computeTruth ⟨hq.constraints, ht⟩ hw hsat

theorem mayBeTrue_spec (hS : S.Exact) (hq : query.WellTyped) (hsat : ∃ m, query.IsModel m) (ht : test.WellTyped)
    (hw : test.width = 1) (hd : (query.withExpr test).DefinedInModels opt) :
    ∃ b, mayBeTrue opt S (query.withExpr test) = some b ∧
      (b = true ↔ ∃ m, query.IsModel m ∧ test.eval m = .ofBool true) := by
  obtain ⟨neg, hneg, href⟩ := Expr.createIsZero_builds opt ht
  obtain ⟨b, hb, hiff⟩ := mustBeTrue_spec hS hq hsat href.wellTyped href.width
  refine ⟨!b, ?_, ?_⟩
  · unfold mayBeTrue mustBeFalse
    have hcreate : (query.withExpr test).expr.createIsZero opt = some neg := hneg
    rw [hcreate]
    exact congrArg (Option.map (!·)) hb
  · rw [Bool.not_eq_true', ← Bool.not_eq_true, hiff]
    push Not
    refine exists_congr fun m => and_congr_right fun hm => ?_
    rw [href.eval m fun ho => ⟨hd ho m hm, trivial⟩]
    obtain ⟨x, hx⟩ := APInt.exists_value ((test.width_eval m ht).trans hw)
    simp only [Expr.eval, hw, hx, Expr.eval_ofNat, APInt.ofNat, APInt.rel₂_mk, APInt.ofBool, APInt.mk.injEq,
      heq_eq_eq, true_and, CmpKind.apply, ne_eq]
    clear hx
    revert x
    decide

theorem mustBuild_spec (hS : S.Exact) (hq : query.WellTyped) (hsat : ∃ m, query.IsModel m) {x : Option Expr}
    (hx : Builds opt node x) (hw : node.width = 1) (hd : (query.withExpr node).DefinedInModels opt) :
    ∃ b, (x >>= fun test => mustBeTrue S (query.withExpr test)) = some b ∧
      (b = true ↔ ∀ m, query.IsModel m → node.eval m = .ofBool true) := by
  obtain ⟨test, rfl, href⟩ := hx
  obtain ⟨b, hb, hiff⟩ := mustBeTrue_spec hS hq hsat href.wellTyped (href.width.trans hw)
  refine ⟨b, hb, hiff.trans (forall₂_congr fun m hm => ?_)⟩
  rw [href.eval m fun ho => hd ho m hm]

theorem mayBuild_spec (hS : S.Exact) (hq : query.WellTyped) (hsat : ∃ m, query.IsModel m) {x : Option Expr}
    (hx : Builds opt node x) (hw : node.width = 1) (hd : (query.withExpr node).DefinedInModels opt) :
    ∃ b, (x >>= fun test => mayBeTrue opt S (query.withExpr test)) = some b ∧
      (b = true ↔ ∃ m, query.IsModel m ∧ node.eval m = .ofBool true) := by
  obtain ⟨test, rfl, href⟩ := hx
  obtain ⟨b, hb, hiff⟩ := mayBeTrue_spec hS hq hsat href.wellTyped (href.width.trans hw)
    fun ho m hm => href.defined m (hd ho m hm)
  refine ⟨b, hb, hiff.trans (exists_congr fun m => and_congr_right fun hm => ?_)⟩
  rw [href.eval m fun ho => hd ho m hm]

theorem ofBool_eq_true {b : Bool} : APInt.ofBool b = .ofBool true ↔ b = true := by
  cases b <;> decide

theorem eval_eq_ofNat {e : Expr} {m : Valuation} (he : e.WellTyped) {n : Nat} (hn : n < 2 ^ e.width) :
    (Expr.cmp .eq e (.ofNat e.width n)).eval m = .ofBool true ↔ (e.eval m).toNat = n := by
  obtain ⟨x, hx⟩ := APInt.exists_value (e.width_eval m he)
  have hval : (Expr.cmp .eq e (.ofNat e.width n)).eval m = .ofBool (x == BitVec.ofNat e.width n) := by
    simp only [Expr.eval, hx, Expr.eval_ofNat, APInt.ofNat, APInt.rel₂_mk, CmpKind.apply]
  rw [hval, hx, ofBool_eq_true, beq_iff_eq, BitVec.toNat_eq, BitVec.toNat_ofNat, Nat.mod_eq_of_lt hn]
  rfl

theorem eval_ule_ofNat {e : Expr} {m : Valuation} (he : e.WellTyped) {n : Nat} (hn : n < 2 ^ e.width) :
    (Expr.cmp .ule e (.ofNat e.width n)).eval m = .ofBool true ↔ (e.eval m).toNat ≤ n := by
  obtain ⟨x, hx⟩ := APInt.exists_value (e.width_eval m he)
  have hval : (Expr.cmp .ule e (.ofNat e.width n)).eval m = .ofBool (x.ule (BitVec.ofNat e.width n)) := by
    simp only [Expr.eval, hx, Expr.eval_ofNat, APInt.ofNat, APInt.rel₂_mk, CmpKind.apply]
  rw [hval, hx, ofBool_eq_true, BitVec.ule_iff_toNat_le, BitVec.toNat_ofNat, Nat.mod_eq_of_lt hn]
  rfl

theorem eval_lshr_ofNat {e : Expr} {m : Valuation} (he : e.WellTyped) {n : Nat} (hn : n < 2 ^ e.width) :
    ((Expr.binary .lshr e (.ofNat e.width n)).eval m).toNat = (e.eval m).toNat / 2 ^ n := by
  obtain ⟨x, hx⟩ := APInt.exists_value (e.width_eval m he)
  have hval : (Expr.binary .lshr e (.ofNat e.width n)).eval m = ⟨e.width, x >>> BitVec.ofNat e.width n⟩ := by
    simp only [Expr.eval, hx, Expr.eval_ofNat, APInt.ofNat, APInt.map₂_mk, BinaryKind.apply]
  rw [hval, hx]
  have hshift : (x >>> BitVec.ofNat e.width n).toNat = x.toNat / 2 ^ n := by
    rw [BitVec.ushiftRight_eq', BitVec.toNat_ushiftRight, BitVec.toNat_ofNat, Nat.mod_eq_of_lt hn, Nat.shiftRight_eq_div_pow]
  exact hshift

theorem values_lt {v : Nat} (hq : query.WellTyped) (hv : v ∈ query.values) : v < 2 ^ query.expr.width := by
  obtain ⟨m, -, rfl⟩ := hv
  have hlt := APInt.toNat_lt (query.expr.eval m)
  rwa [query.expr.width_eval m hq.expr] at hlt

section Questions

variable (hS : S.Exact) (hq : query.WellTyped) (hsat : ∃ m, query.IsModel m) (hd : query.DefinedInModels opt)
  (hpos : 0 < query.expr.width)

include hS hq hsat hd hpos

theorem mustFitBits_spec {mid : BitVec 64} (hmid : mid.toNat < query.expr.width) :
    ∃ b, mustFitBits opt S query mid = some b ∧ (b = true ↔ ∀ v ∈ query.values, v < 2 ^ mid.toNat) := by
  have hlt : mid.toNat < 2 ^ query.expr.width := hmid.trans Nat.lt_two_pow_self
  obtain ⟨shifted, hshift, href⟩ :=
    LShrExpr.create_builds opt (r := .ofNat query.expr.width mid.toNat) hq.expr trivial rfl
  have hwidth : shifted.width = query.expr.width := href.width
  have hdefined : (query.withExpr shifted).DefinedInModels opt :=
    fun ho m hm => href.defined m ⟨hd ho m hm, trivial, nofun⟩
  obtain ⟨b, hb, hiff⟩ := mustBuild_spec hS hq hsat
    (EqExpr.create_builds opt (r := .ofNat shifted.width 0) href.wellTyped trivial rfl) rfl
    fun ho m hm => ⟨hdefined ho m hm, trivial⟩
  have hval : ∀ m, query.IsModel m → ((Expr.cmp .eq shifted (.ofNat shifted.width 0)).eval m = .ofBool true ↔
      (query.expr.eval m).toNat < 2 ^ mid.toNat) := by
    intro m hm
    rw [eval_eq_ofNat href.wellTyped (Nat.two_pow_pos _), href.eval m fun ho => ⟨hd ho m hm, trivial, nofun⟩,
      eval_lshr_ofNat hq.expr hlt, Nat.div_eq_zero_iff_lt (Nat.two_pow_pos _)]
  refine ⟨b, ?_, hiff.trans ⟨?_, ?_⟩⟩
  · unfold mustFitBits
    dsimp only
    rw [ConstantExpr.create_eq hpos hlt, ConstantExpr.create_eq hpos (Nat.two_pow_pos _)]
    simp only [Option.bind_eq_bind, Option.bind_some, hshift]
    rw [hwidth] at hb
    exact hb
  · rintro h v ⟨m, hm, rfl⟩
    exact (hval m hm).mp (h m hm)
  · intro h m hm
    exact (hval m hm).mpr (h _ ⟨m, hm, rfl⟩)

theorem mayBeZero_spec : ∃ b, mayBeZero opt S query = some b ∧ (b = true ↔ 0 ∈ query.values) := by
  have hlt : (0 : BitVec 64).toNat < 2 ^ query.expr.width := Nat.two_pow_pos _
  obtain ⟨b, hb, hiff⟩ := mayBuild_spec hS hq hsat
    (EqExpr.create_builds opt (r := .ofNat query.expr.width 0) hq.expr trivial rfl) rfl
    fun ho m hm => ⟨hd ho m hm, trivial⟩
  refine ⟨b, ?_, hiff.trans (exists_congr fun m => and_congr_right fun _ => eval_eq_ofNat hq.expr hlt)⟩
  unfold mayBeZero
  dsimp only
  rw [ConstantExpr.create_eq hpos hlt]
  exact hb

theorem mayBeAtMost_spec {mid : BitVec 64} (hlt : mid.toNat < 2 ^ query.expr.width) :
    ∃ b, mayBeAtMost opt S query mid = some b ∧ (b = true ↔ ∃ v ∈ query.values, v ≤ mid.toNat) := by
  obtain ⟨b, hb, hiff⟩ := mayBuild_spec hS hq hsat
    (UleExpr.create_builds opt (r := .ofNat query.expr.width mid.toNat) hq.expr trivial rfl) rfl
    fun ho m hm => ⟨hd ho m hm, trivial⟩
  refine ⟨b, ?_, hiff.trans ⟨?_, ?_⟩⟩
  · unfold mayBeAtMost
    dsimp only
    rw [ConstantExpr.create_eq hpos hlt]
    exact hb
  · rintro ⟨m, hm, h⟩
    exact ⟨_, ⟨m, hm, rfl⟩, (eval_ule_ofNat hq.expr hlt).mp h⟩
  · rintro ⟨v, ⟨m, hm, rfl⟩, h⟩
    exact ⟨m, hm, (eval_ule_ofNat hq.expr hlt).mpr h⟩

theorem mustBeAtMost_spec {mid : BitVec 64} (hlt : mid.toNat < 2 ^ query.expr.width) :
    ∃ b, mustBeAtMost opt S query mid = some b ∧ (b = true ↔ ∀ v ∈ query.values, v ≤ mid.toNat) := by
  obtain ⟨b, hb, hiff⟩ := mustBuild_spec hS hq hsat
    (UleExpr.create_builds opt (r := .ofNat query.expr.width mid.toNat) hq.expr trivial rfl) rfl
    fun ho m hm => ⟨hd ho m hm, trivial⟩
  refine ⟨b, ?_, hiff.trans ⟨?_, ?_⟩⟩
  · unfold mustBeAtMost
    dsimp only
    rw [ConstantExpr.create_eq hpos hlt]
    exact hb
  · rintro h v ⟨m, hm, rfl⟩
    exact (eval_ule_ofNat hq.expr hlt).mp (h m hm)
  · intro h m hm
    exact (eval_ule_ofNat hq.expr hlt).mpr (h _ ⟨m, hm, rfl⟩)

theorem search_mustFitBits (h64 : query.expr.width ≤ 64) :
    ∃ bits, BinarySearch.search (mustFitBits opt S query) 0 (BitVec.ofNat 64 query.expr.width) = some bits ∧
      bits.toNat ≤ query.expr.width ∧ ∀ v ∈ query.values, v < 2 ^ bits.toNat := by
  have hwidth : (BitVec.ofNat 64 query.expr.width).toNat = query.expr.width := by
    rw [BitVec.toNat_ofNat]
    exact Nat.mod_eq_of_lt (by omega)
  have hdecides : BinarySearch.Decides (mustFitBits opt S query) (fun n => ∀ v ∈ query.values, v < 2 ^ n) 0
      (BitVec.ofNat 64 query.expr.width) := by
    intro mid _ hmid
    rw [hwidth] at hmid
    exact mustFitBits_spec hS hq hsat hd hpos hmid
  obtain ⟨bits, hbits, hle, ⟨-, hfit⟩, -⟩ := BinarySearch.search_isLeast
    (fun ha hab v hv => (ha v hv).trans_le (Nat.pow_le_pow_right Nat.two_pos hab)) hdecides (Nat.zero_le _)
    (by rw [hwidth]; exact fun v hv => values_lt hq hv)
  rw [hwidth] at hle
  exact ⟨bits, hbits, hle, hfit⟩

theorem searchLeast_spec {greatest : BitVec 64} (hlt : greatest.toNat < 2 ^ query.expr.width)
    (hgreatest : ∀ v ∈ query.values, v ≤ greatest.toNat) :
    ∃ r, searchLeast opt S query greatest = some r ∧ IsLeast query.values r.toNat := by
  obtain ⟨zero, hzero, hiff⟩ := mayBeZero_spec hS hq hsat hd hpos
  unfold searchLeast
  rw [hzero]
  cases zero with
  | true => exact ⟨0, rfl, hiff.mp rfl, fun _ _ => Nat.zero_le _⟩
  | false =>
    have hdecides : BinarySearch.Decides (mayBeAtMost opt S query) (fun n => ∃ v ∈ query.values, v ≤ n) 0 greatest :=
      fun mid _ hmid => mayBeAtMost_spec hS hq hsat hd hpos (hmid.trans hlt)
    obtain ⟨m, hm⟩ := hsat
    obtain ⟨r, hr, -, hleast⟩ := BinarySearch.search_isLeast (fun ⟨v, hv, hle⟩ hab => ⟨v, hv, hle.trans hab⟩)
      hdecides (Nat.zero_le _) ⟨_, ⟨m, hm, rfl⟩, hgreatest _ ⟨m, hm, rfl⟩⟩
    exact ⟨r, hr, BinarySearch.isLeast_of_exists_le (fun _ _ => Nat.zero_le _) hleast⟩

theorem search_mustBeAtMost {least greatest : BitVec 64} (hlt : greatest.toNat < 2 ^ query.expr.width)
    (hleast : least.toNat ∈ query.values) (hgreatest : ∀ v ∈ query.values, v ≤ greatest.toNat) :
    ∃ r, BinarySearch.search (mustBeAtMost opt S query) least greatest = some r ∧
      IsGreatest query.values r.toNat := by
  have hdecides : BinarySearch.Decides (mustBeAtMost opt S query) (fun n => ∀ v ∈ query.values, v ≤ n) least greatest :=
    fun mid _ hmid => mustBeAtMost_spec hS hq hsat hd hpos (hmid.trans hlt)
  obtain ⟨r, hr, -, hmin⟩ := BinarySearch.search_isLeast (fun ha hab v hv => (ha v hv).trans hab) hdecides
    (hgreatest _ hleast) hgreatest
  exact ⟨r, hr, BinarySearch.isGreatest_of_forall_le hleast hmin⟩

theorem searchRange_spec (h64 : query.expr.width ≤ 64) :
    ∃ min max, searchRange opt S query = some (min, max) ∧ IsLeast query.values min.toNat ∧
      IsGreatest query.values max.toNat := by
  obtain ⟨bits, hbits, hbound, hfit⟩ := search_mustFitBits hS hq hsat hd hpos h64
  have hmax := Bits64.maxValueOfNBits_eq (hbound.trans h64)
  have hpow : 2 ^ bits.toNat ≤ 2 ^ query.expr.width := Nat.pow_le_pow_right Nat.two_pos hbound
  have hpow' : 2 ^ query.expr.width ≤ 2 ^ 64 := Nat.pow_le_pow_right Nat.two_pos h64
  have hbits_pos : 0 < 2 ^ bits.toNat := Nat.two_pow_pos _
  obtain ⟨greatest, hword, hval⟩ : ∃ greatest : BitVec 64, BitVec.ofNat 64 (2 ^ bits.toNat - 1) = greatest ∧
      greatest.toNat = 2 ^ bits.toNat - 1 := by
    refine ⟨_, rfl, ?_⟩
    rw [BitVec.toNat_ofNat]
    exact Nat.mod_eq_of_lt (by omega)
  have hlt : greatest.toNat < 2 ^ query.expr.width := by omega
  have hgreatest : ∀ v ∈ query.values, v ≤ greatest.toNat := by
    intro v hv
    have hv' := hfit v hv
    omega
  obtain ⟨min, hmin, hleast⟩ := searchLeast_spec hS hq hsat hd hpos hlt hgreatest
  obtain ⟨max, hmax', hgreat⟩ := search_mustBeAtMost hS hq hsat hd hpos hlt hleast.1 hgreatest
  refine ⟨min, max, ?_, hleast, hgreat⟩
  unfold searchRange
  simp only [hbits, hmax, hword, hmin, hmax', Option.bind_eq_bind, Option.bind_some]

end Questions

theorem evaluate_spec (hS : S.Exact) (hq : query.WellTyped) (hsat : ∃ m, query.IsModel m) (hw : query.expr.width = 1) :
    ∃ v, evaluate S query = some v ∧ SolverCall.RightAnswer (.validity query) (.validity v) := by
  obtain ⟨constraints, e⟩ := query
  unfold evaluate
  rw [if_pos hw]
  cases e with
  | constant c =>
    refine ⟨_, rfl, ?_⟩
    split
    · rename_i h
      exact fun _ _ => (isTrue_iff_eq hw).mp h
    · rename_i h
      exact fun m _ => (Expr.eval_ne_true hq.expr hw).mp fun ht => h ((isTrue_iff_eq hw).mpr ht)
  | _ => exact hS.computeValidity hq hw hsat

theorem boolBounds_spec (hq : query.WellTyped) (hsat : ∃ m, query.IsModel m) (hw : query.expr.width = 1) {v : Validity}
    (hv : SolverCall.RightAnswer (.validity query) (.validity v)) :
    IsLeast query.values (if v = .true then 1 else 0) ∧ IsGreatest query.values (if v = .false then 0 else 1) := by
  obtain ⟨m₀, hm₀⟩ := hsat
  have hle : ∀ v ∈ query.values, v ≤ 1 := by
    intro v hv
    have hlt := values_lt hq hv
    rw [hw] at hlt
    omega
  cases v with
  | true =>
    have hall : ∀ v ∈ query.values, v = 1 := by
      rintro v ⟨m, hm, rfl⟩
      rw [hv m hm]
      rfl
    have hone : 1 ∈ query.values := ⟨m₀, hm₀, hall _ ⟨m₀, hm₀, rfl⟩⟩
    exact ⟨⟨hone, fun v hv => (hall v hv).ge⟩, hone, hle⟩
  | false =>
    have hall : ∀ v ∈ query.values, v = 0 := by
      rintro v ⟨m, hm, rfl⟩
      rw [hv m hm]
      rfl
    have hzero : 0 ∈ query.values := ⟨m₀, hm₀, hall _ ⟨m₀, hm₀, rfl⟩⟩
    exact ⟨⟨hzero, fun _ _ => Nat.zero_le _⟩, hzero, fun v hv => (hall v hv).le⟩
  | unknown =>
    obtain ⟨hentailed, hrefuted⟩ := hv
    unfold Query.Entailed at hentailed
    unfold Query.Refuted at hrefuted
    push Not at hentailed hrefuted
    obtain ⟨m, hm, hfalse⟩ := hentailed
    obtain ⟨m', hm', htrue⟩ := hrefuted
    have hzero : 0 ∈ query.values := by
      refine ⟨m, hm, ?_⟩
      rw [(Expr.eval_ne_true hq.expr hw).mp hfalse]
      rfl
    have hone : 1 ∈ query.values := by
      refine ⟨m', hm', ?_⟩
      rw [(Expr.eval_true_or_false hq.expr hw m').resolve_right htrue]
      rfl
    exact ⟨⟨hzero, fun _ _ => Nat.zero_le _⟩, hone, hle⟩

theorem rangeBounds_spec (hS : S.Exact) (hq : query.WellTyped) (hsat : ∃ m, query.IsModel m)
    (hd : query.DefinedInModels opt) (hpos : 0 < query.expr.width) (h64 : query.expr.width ≤ 64) :
    ∃ min max, rangeBounds opt S query = some (min, max) ∧ IsLeast query.values min.toNat ∧
      IsGreatest query.values max.toNat := by
  unfold rangeBounds
  split
  · rename_i hw
    obtain ⟨v, hv, hright⟩ := evaluate_spec hS hq hsat hw
    have hbounds := boolBounds_spec hq hsat hw hright
    rw [hv]
    cases v <;> exact ⟨_, _, rfl, hbounds⟩
  · obtain ⟨constraints, e⟩ := query
    cases e with
    | constant c =>
      obtain ⟨m, hm⟩ := hsat
      have hlt : c.toNat < 2 ^ 64 := (APInt.toNat_lt c).trans_le (Nat.pow_le_pow_right Nat.two_pos h64)
      have hword : (BitVec.ofNat 64 c.toNat).toNat = c.toNat := by
        rw [BitVec.toNat_ofNat]
        exact Nat.mod_eq_of_lt hlt
      have hall : ∀ v ∈ Query.values ⟨constraints, .constant c⟩, v = c.toNat := by
        rintro v ⟨m, hm, rfl⟩
        rfl
      have hmem : c.toNat ∈ Query.values ⟨constraints, .constant c⟩ := ⟨m, hm, rfl⟩
      refine ⟨BitVec.ofNat 64 c.toNat, BitVec.ofNat 64 c.toNat, ?_, ?_⟩
      · have hz : getZExtValue c = some c.toNat := if_pos h64
        dsimp only
        rw [hz]
        rfl
      · rw [hword]
        exact ⟨⟨hmem, fun v hv => (hall v hv).ge⟩, hmem, fun v hv => (hall v hv).le⟩
    | _ => exact searchRange_spec hS hq hsat hd hpos h64

/-- With an exact solver, the range of an expression with up to 64 bits is from its least to its greatest value. -/
theorem getRange_exact (hS : S.Exact) (hq : query.WellTyped) (hsat : ∃ m, query.IsModel m)
    (hd : query.DefinedInModels opt) (hpos : 0 < query.expr.width) (h64 : query.expr.width ≤ 64) :
    ∃ min max, getRange opt S query = some (.ofNat query.expr.width min, .ofNat query.expr.width max) ∧
      IsLeast query.values min ∧ IsGreatest query.values max := by
  obtain ⟨min, max, hbounds, hleast, hgreatest⟩ := rangeBounds_spec hS hq hsat hd hpos h64
  refine ⟨min.toNat, max.toNat, ?_, hleast, hgreatest⟩
  unfold getRange
  rw [hbounds]
  simp only [Option.bind_eq_bind, Option.bind_some]
  rw [ConstantExpr.create_eq hpos (values_lt hq hleast.1), ConstantExpr.create_eq hpos (values_lt hq hgreatest.1)]
  rfl

theorem oracle_exact : IndependentSolver.oracle.Exact :=
  ⟨fun {q} _ _ _ => IndependentSolver.oracle_computeValidity q, fun {q} _ _ _ => IndependentSolver.oracle_computeTruth q⟩

def signedByte : Expr := .cast .sext (.read IndependentSolver.fourBytes .nil (.ofNat 32 0)) 64

/-- The values of a byte with its sign are from zero to the greatest word. -/
theorem getRange_exact_signedByte :
    getRange false IndependentSolver.oracle ⟨[], signedByte⟩ = some (.ofNat 64 0, .ofNat 64 (2 ^ 64 - 1)) := by
  have hmodel : ∀ x : BitVec 8, ∃ m : Valuation, (⟨[], signedByte⟩ : Query Expr).IsModel m ∧
      (signedByte.eval m).toNat = (x.signExtend 64).toNat := by
    intro x
    refine ⟨fun a i => if i < a.size then x.setWidth a.range else 0, ⟨fun a i hi => if_neg (by omega), nofun⟩, ?_⟩
    have hval : signedByte.eval (fun a i => if i < a.size then x.setWidth a.range else 0) =
        ⟨64, (x.setWidth 8).signExtend 64⟩ := rfl
    rw [hval, BitVec.setWidth_eq]
    rfl
  have hq : Query.WellTyped ⟨[], signedByte⟩ :=
    ⟨nofun, ⟨⟨by decide, by decide, by decide⟩, trivial, trivial, rfl⟩, by decide⟩
  have hd : Query.DefinedInModels false ⟨[], signedByte⟩ := nofun
  obtain ⟨m₀, hm₀, h₀⟩ := hmodel 0
  obtain ⟨min, max, hrange, hleast, hgreatest⟩ :=
    getRange_exact oracle_exact hq ⟨m₀, hm₀⟩ hd (by decide) (by decide)
  obtain ⟨m₁, hm₁, h₁⟩ := hmodel 255
  have hmin : min = 0 := Nat.le_zero.mp (hleast.2 ⟨m₀, hm₀, h₀⟩)
  have hmax : max = 2 ^ 64 - 1 := by
    have hle : 2 ^ 64 - 1 ≤ max := hgreatest.2 ⟨m₁, hm₁, h₁⟩
    have hlt : max < 2 ^ 64 := values_lt hq hgreatest.1
    omega
  rw [hrange, hmin, hmax]
  rfl

end Solver

end CgsKlee
