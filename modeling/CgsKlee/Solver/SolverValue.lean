import CgsKlee.Expr.Canonical
import CgsKlee.Solver.BuilderTerms

/-!
# The values of expressions for a solver

What a solver is told about an expression: `Expr.solverValue`, which differs from the value of the expression in shifts
by the width or more only.  The tables of a builder hold terms of these values (`BuilderState.Inv`), and `Backend.Sound`
says what the operations of a backend have to mean.  The builders tell the variables of arrays apart by a counter after
the name of the array; `nameArrays` are the variables that there are after an expression.
-/

namespace CgsKlee

open Smt

/-- The amount of a shift.  A constant one is a word of 32 bits. -/
def shiftAmount (rightExpr : Expr) (right : APInt) : Nat :=
  match rightExpr.asConstant with
  | some c => Backend.shiftConstant c
  | none => right.toNat

def BinaryKind.solverValue (kind : BinaryKind) (rightExpr : Expr) (left right : APInt) : APInt :=
  match kind with
  | .add => .map₂ BvOp.add.apply left right
  | .sub => .map₂ BvOp.sub.apply left right
  | .mul => .map₂ BvOp.mul.apply left right
  | .udiv => .map₂ BvOp.udiv.apply left right
  | .sdiv => .map₂ BvOp.sdiv.apply left right
  | .urem => .map₂ BvOp.urem.apply left right
  | .srem => .map₂ BvOp.srem.apply left right
  | .and => .map₂ BvOp.and.apply left right
  | .or => .map₂ BvOp.or.apply left right
  | .xor => .map₂ BvOp.xor.apply left right
  | .shl => shiftLeft left (shiftAmount rightExpr right)
  | .lshr => shiftRight left (shiftAmount rightExpr right)
  | .ashr => arithShiftRight left (shiftAmount rightExpr right)

/-- The elements of an array for the solver, those beyond its end included. -/
def ExprArray.contents (m : Valuation) (a : ExprArray) (i : Nat) : BitVec a.range :=
  if a.isSymbolicArray = false ∧ i < a.size then a.constantValues.getD i 0 else m a i

mutual

def Expr.solverValue (m : Valuation) : Expr → APInt
  | .constant value => value
  | .notOptimized src => src.solverValue m
  | .read root head index =>
    head.solverLookup m ⟨root.range, root.contents m (index.solverValue m).toNat⟩ (index.solverValue m).toNat
  | .select cond trueExpr falseExpr =>
    if (cond.solverValue m).toNat = 1 then trueExpr.solverValue m else falseExpr.solverValue m
  | .concat left right => (left.solverValue m).append (right.solverValue m)
  | .extract expr offset width => (expr.solverValue m).extract offset width
  | .cast kind src width => kind.apply (src.solverValue m) width
  | .not expr => (expr.solverValue m).complement
  | .binary kind left right => kind.solverValue right (left.solverValue m) (right.solverValue m)
  | .cmp kind left right => APInt.rel₂ kind.apply (left.solverValue m) (right.solverValue m)

def UpdateNode.solverLookup (m : Valuation) (initial : APInt) (i : Nat) : UpdateNode → APInt
  | .nil => initial
  | .cons index value next =>
    if (index.solverValue m).toNat = i then value.solverValue m else next.solverLookup m initial i

end

theorem ofNat_eq_element {w n : Nat} {x : BitVec w} (h : n = x.toNat) : APInt.ofNat w n = ⟨w, x⟩ := by
  rw [h]
  show (⟨w, BitVec.ofNat w x.toNat⟩ : APInt) = _
  rw [BitVec.ofNat_toNat, BitVec.setWidth_eq]

theorem ExprArray.contents_constant {a : ExprArray} (ha : a.isSymbolicArray = false) {i : Nat} (hi : i < a.size)
    (m : Valuation) : a.contents m i = a.constantValues.getD i 0 := if_pos ⟨ha, hi⟩

theorem ExprArray.contents_free {a : ExprArray} {i : Nat} (h : a.isSymbolicArray = true ∨ a.size ≤ i) (m : Valuation) :
    a.contents m i = m a i := by
  refine if_neg fun hfixed => ?_
  rcases h with h | h
  · rw [h] at hfixed
    cases hfixed.1
  · exact absurd hfixed.2 (by omega)

theorem BinaryKind.width_solverValue (kind : BinaryKind) (rightExpr : Expr) (a c : APInt) :
    (kind.solverValue rightExpr a c).width = a.width := by
  cases kind <;> simp [BinaryKind.solverValue]

mutual

theorem Expr.width_solverValue (m : Valuation) : ∀ e : Expr, e.WellTyped → (e.solverValue m).width = e.width
  | .constant _, _ => rfl
  | .notOptimized src, h => src.width_solverValue m h
  | .read root head _, h => head.width_solverLookup m root h.2.1 rfl _
  | .select cond t f, h => by
    obtain ⟨-, ht, hf, -, hw⟩ := h
    unfold Expr.solverValue Expr.width
    split
    · exact t.width_solverValue m ht
    · exact (f.width_solverValue m hf).trans hw.symm
  | .concat l r, h => congrArg₂ (· + ·) (l.width_solverValue m h.1) (r.width_solverValue m h.2)
  | .extract _ _ _, _ => rfl
  | .cast kind _ _, _ => by cases kind <;> rfl
  | .not e, h => e.width_solverValue m h
  | .binary kind l r, h => (kind.width_solverValue _ _ _).trans (l.width_solverValue m h.1)
  | .cmp _ _ _, _ => rfl

theorem UpdateNode.width_solverLookup (m : Valuation) (root : ExprArray) : ∀ u : UpdateNode, u.WellTyped root →
    ∀ {initial : APInt}, initial.width = root.range → ∀ i, (u.solverLookup m initial i).width = root.range
  | .nil, _, _, h, _ => h
  | .cons index value next, hu, _, h, i => by
    obtain ⟨-, hv, hn, -, hw⟩ := hu
    unfold UpdateNode.solverLookup
    split
    · exact (value.width_solverValue m hv).trans hw
    · exact next.width_solverLookup m root hn h i

end

mutual

def Expr.ForallNodes (P : Expr → Prop) : Expr → Prop
  | .constant value => P (.constant value)
  | .notOptimized src => src.ForallNodes P ∧ P (.notOptimized src)
  | .read root head index => head.ForallNodes P ∧ index.ForallNodes P ∧ P (.read root head index)
  | .select cond trueExpr falseExpr =>
    cond.ForallNodes P ∧ trueExpr.ForallNodes P ∧ falseExpr.ForallNodes P ∧ P (.select cond trueExpr falseExpr)
  | .concat left right => left.ForallNodes P ∧ right.ForallNodes P ∧ P (.concat left right)
  | .extract expr offset width => expr.ForallNodes P ∧ P (.extract expr offset width)
  | .cast kind src width => src.ForallNodes P ∧ P (.cast kind src width)
  | .not expr => expr.ForallNodes P ∧ P (.not expr)
  | .binary kind left right => left.ForallNodes P ∧ right.ForallNodes P ∧ P (.binary kind left right)
  | .cmp kind left right => left.ForallNodes P ∧ right.ForallNodes P ∧ P (.cmp kind left right)

def UpdateNode.ForallNodes (P : Expr → Prop) : UpdateNode → Prop
  | .nil => True
  | .cons index value next => index.ForallNodes P ∧ value.ForallNodes P ∧ next.ForallNodes P

end

/-- Neither indices nor elements are truth values.  `CreateArray` is called for bytes with 32 bits of index only. -/
def ExprArray.Indexed (a : ExprArray) : Prop := 1 < a.domain ∧ 1 < a.range

/-- A truth value is no part of a concatenation, constants have bits, and arrays have indices and elements with more than
one bit. -/
def Expr.BuildableNode : Expr → Prop
  | .constant value => 0 < value.width
  | .read root _ _ => root.Indexed
  | .concat left right => left.width ≠ 1 ∧ right.width ≠ 1
  | _ => True

def Expr.NonzeroDivisor : Expr → Prop
  | .binary kind _ right => kind.isDivision = true → ∀ c, right.asConstant = some c → c.toNat ≠ 0
  | _ => True

def Expr.Buildable : Expr → Prop := Expr.ForallNodes Expr.BuildableNode

def Expr.NonzeroDivisors : Expr → Prop := Expr.ForallNodes Expr.NonzeroDivisor

theorem Expr.asConstant_eq_some {e : Expr} {c : APInt} (h : e.asConstant = some c) : e = .constant c := by
  cases e <;> cases h
  rfl

mutual

theorem Expr.Defined.nonzeroDivisors {m : Valuation} : ∀ {e : Expr}, e.Defined m → e.NonzeroDivisors
  | .constant _, _ => trivial
  | .notOptimized _, h => ⟨Expr.Defined.nonzeroDivisors h, trivial⟩
  | .read _ _ _, h => ⟨UpdateNode.Defined.nonzeroDivisors h.1, Expr.Defined.nonzeroDivisors h.2.1, trivial⟩
  | .select _ _ _, h =>
    ⟨Expr.Defined.nonzeroDivisors h.1, Expr.Defined.nonzeroDivisors h.2.1, Expr.Defined.nonzeroDivisors h.2.2, trivial⟩
  | .concat _ _, h => ⟨Expr.Defined.nonzeroDivisors h.1, Expr.Defined.nonzeroDivisors h.2, trivial⟩
  | .extract _ _ _, h => ⟨Expr.Defined.nonzeroDivisors h, trivial⟩
  | .cast _ _ _, h => ⟨Expr.Defined.nonzeroDivisors h, trivial⟩
  | .not _, h => ⟨Expr.Defined.nonzeroDivisors h, trivial⟩
  | .binary _ l r, h =>
    ⟨Expr.Defined.nonzeroDivisors h.1, Expr.Defined.nonzeroDivisors h.2.1, fun hk c hc => by
      have hne := h.2.2 hk
      rwa [Expr.asConstant_eq_some hc] at hne⟩
  | .cmp _ _ _, h => ⟨Expr.Defined.nonzeroDivisors h.1, Expr.Defined.nonzeroDivisors h.2, trivial⟩

theorem UpdateNode.Defined.nonzeroDivisors {m : Valuation} : ∀ {u : UpdateNode}, u.Defined m →
    u.ForallNodes Expr.NonzeroDivisor
  | .nil, _ => trivial
  | .cons _ _ _, h =>
    ⟨Expr.Defined.nonzeroDivisors h.1, Expr.Defined.nonzeroDivisors h.2.1, UpdateNode.Defined.nonzeroDivisors h.2.2⟩

end

theorem Expr.Buildable.width_pos : ∀ (e : Expr), e.Buildable → e.WellTyped → 0 < e.width
  | .constant _, h, _ => h
  | .notOptimized src, h, ht => Expr.Buildable.width_pos src h.1 ht
  | .read _ _ _, h, _ => by
    have hindexed : ExprArray.Indexed _ := h.2.2
    exact Nat.lt_of_succ_lt hindexed.2
  | .select _ t _, h, ht => Expr.Buildable.width_pos t h.2.1 ht.2.1
  | .concat l _, h, ht => Nat.add_pos_left (Expr.Buildable.width_pos l h.1 ht.1) _
  | .extract _ _ _, _, ht => ht.2.1
  | .cast _ src _, h, ht => (Expr.Buildable.width_pos src h.1 ht.1).trans_le ht.2
  | .not e, h, ht => Expr.Buildable.width_pos e h.1 ht
  | .binary _ l _, h, ht => Expr.Buildable.width_pos l h.1 ht.1
  | .cmp _ _ _, _, _ => Nat.one_pos

mutual

/-- The arrays of an expression, in the order in which `construct` comes to them. -/
def Expr.roots : Expr → List ExprArray
  | .constant _ => []
  | .notOptimized src => src.roots
  | .read root head index => head.roots root ++ index.roots
  | .select cond trueExpr falseExpr => cond.roots ++ (trueExpr.roots ++ falseExpr.roots)
  | .concat left right => right.roots ++ left.roots
  | .extract expr _ _ => expr.roots
  | .cast _ src _ => src.roots
  | .not expr => expr.roots
  | .binary kind left right => if kind = .mul then right.roots ++ left.roots else left.roots ++ right.roots
  | .cmp _ left right => left.roots ++ right.roots

def UpdateNode.roots (root : ExprArray) : UpdateNode → List ExprArray
  | .nil => [root]
  | .cons index value next => next.roots root ++ (index.roots ++ value.roots)

end

theorem Expr.roots_binary {kind : BinaryKind} (hk : kind ≠ .mul) (l r : Expr) :
    (Expr.binary kind l r).roots = l.roots ++ r.roots := if_neg hk

theorem Expr.roots_mul (l r : Expr) : (Expr.binary .mul l r).roots = r.roots ++ l.roots := rfl

theorem Expr.roots_binary_left (kind : BinaryKind) (l r : Expr) : l.roots ⊆ (Expr.binary kind l r).roots := by
  by_cases hk : kind = .mul
  · rw [hk, roots_mul]
    exact List.subset_append_right _ _
  · rw [roots_binary hk]
    exact List.subset_append_left _ _

theorem Expr.roots_binary_right (kind : BinaryKind) (l r : Expr) : r.roots ⊆ (Expr.binary kind l r).roots := by
  by_cases hk : kind = .mul
  · rw [hk, roots_mul]
    exact List.subset_append_left _ _
  · rw [roots_binary hk]
    exact List.subset_append_right _ _

def nameArray (name : ExprArray → String) (table : List (ExprArray × String)) (root : ExprArray) :
    List (ExprArray × String) :=
  if root ∈ table.map Prod.fst then table else (root, name root ++ toString table.length) :: table

def nameArrays (name : ExprArray → String) (table : List (ExprArray × String)) (roots : List ExprArray) :
    List (ExprArray × String) := roots.foldl (nameArray name) table

theorem nameArrays_append (name : ExprArray → String) (table : List (ExprArray × String)) (roots roots' : List ExprArray) :
    nameArrays name table (roots ++ roots') = nameArrays name (nameArrays name table roots) roots' :=
  List.foldl_append

theorem nameArrays_of_covered {name : ExprArray → String} {table : List (ExprArray × String)} {roots : List ExprArray}
    (h : ∀ a ∈ roots, a ∈ table.map Prod.fst) : nameArrays name table roots = table := by
  induction roots with
  | nil => rfl
  | cons a roots ih =>
    have ha : nameArray name table a = table := if_pos (h a (.head _))
    show nameArrays name (nameArray name table a) roots = table
    rw [ha]
    exact ih fun b hb => h b (.tail _ hb)

namespace BuilderState

def arrayNames (s : BuilderState) : List (ExprArray × String) := s.arrays.map fun p => (p.1, p.2.name)

/-- The variables of these arrays have the contents that are not fixed, and what is asserted of the constant ones
holds. -/
structure Represents (s : BuilderState) (roots : List ExprArray) (env : Interpretation) (m : Valuation) : Prop where
  contents : ∀ p ∈ s.arrays, p.1 ∈ roots → ∀ i, p.1.isSymbolicArray = true ∨ p.1.size ≤ i →
    env p.2.name i = (m p.1 i).toNat
  assertions : ∀ p ∈ s.constantArrayAssertions, p.1 ∈ roots → ∀ t ∈ p.2, Holds env t true

/-- The later state has all arrays and assertions of the earlier one, and variables for these arrays. -/
structure Grows (name : ExprArray → String) (roots : List ExprArray) (s s' : BuilderState) : Prop where
  arrays : s.arrays ⊆ s'.arrays
  assertions : s.constantArrayAssertions ⊆ s'.constantArrayAssertions
  arrayNames_eq : s'.arrayNames = nameArrays name s.arrayNames roots

def Covers (s : BuilderState) (roots : List ExprArray) : Prop := ∀ a ∈ roots, ∃ t, (a, t) ∈ s.arrays

variable {name : ExprArray → String} {roots roots' : List ExprArray} {s s' s'' : BuilderState} {env : Interpretation}
  {m : Valuation}

theorem Grows.of_eq (harrays : s'.arrays = s.arrays) (h : s'.constantArrayAssertions = s.constantArrayAssertions)
    (hroots : s.Covers roots) : Grows name roots s s' := by
  refine ⟨by rw [harrays]; exact List.Subset.refl _, by rw [h]; exact List.Subset.refl _, ?_⟩
  rw [nameArrays_of_covered]
  · unfold arrayNames
    rw [harrays]
  · intro a ha
    obtain ⟨t, ht⟩ := hroots a ha
    exact List.mem_map.mpr ⟨(a, t.name), List.mem_map.mpr ⟨(a, t), ht, rfl⟩, rfl⟩

theorem Grows.refl (hroots : s.Covers roots) : Grows name roots s s := .of_eq rfl rfl hroots

theorem Grows.trans (h : Grows name roots s s') (h' : Grows name roots' s' s'') :
    Grows name (roots ++ roots') s s'' := by
  refine ⟨fun _ hp => h'.arrays (h.arrays hp), fun _ hp => h'.assertions (h.assertions hp), ?_⟩
  rw [nameArrays_append, ← h.arrayNames_eq]
  exact h'.arrayNames_eq

theorem Covers.mono (h : s.Covers roots') (hs : Grows name roots s s') : s'.Covers roots' := fun a ha => by
  obtain ⟨t, ht⟩ := h a ha
  exact ⟨t, hs.arrays ht⟩

theorem Covers.append (h : s.Covers roots) (h' : s.Covers roots') : s.Covers (roots ++ roots') := fun a ha => by
  rcases List.mem_append.mp ha with ha | ha
  · exact h a ha
  · exact h' a ha

theorem Represents.mono (h : s'.Represents roots' env m) (hs : Grows name roots s s') : s.Represents roots' env m :=
  ⟨fun p hp => h.contents p (hs.arrays hp), fun p hp => h.assertions p (hs.assertions hp)⟩

theorem Represents.subset (h : s.Represents roots env m) (hroots : roots' ⊆ roots) : s.Represents roots' env m :=
  ⟨fun p hp hroot => h.contents p hp (hroots hroot), fun p hp hroot => h.assertions p hp (hroots hroot)⟩

end BuilderState

def HasSort (t : SolverTerm) (w : Nat) : Prop := if w = 1 then t.isBool = true else t.bvLength = w

theorem HasSort.isBool {t : SolverTerm} {w : Nat} (h : HasSort t w) (hw : w = 1) : t.isBool = true := by
  unfold HasSort at h
  rwa [if_pos hw] at h

theorem HasSort.bvLength {t : SolverTerm} {w : Nat} (h : HasSort t w) (hw : w ≠ 1) : t.bvLength = w := by
  unfold HasSort at h
  rwa [if_neg hw] at h

theorem HasSort.of_isBool {t : SolverTerm} {w : Nat} (hw : w = 1) (h : t.isBool = true) : HasSort t w := by
  unfold HasSort
  rwa [if_pos hw]

theorem HasSort.of_bvLength {t : SolverTerm} {w : Nat} (hw : w ≠ 1) (h : t.bvLength = w) : HasSort t w := by
  unfold HasSort
  rwa [if_neg hw]

structure TermFor (s : BuilderState) (t : SolverTerm) (e : Expr) : Prop where
  sort : HasSort t e.width
  covers : s.Covers e.roots
  denote : ∀ {env : Interpretation} {m : Valuation}, s.Represents e.roots env m →
    t.denote env = some (sortValue (e.solverValue m))

/-- The array stands for the root with its updates. -/
structure ArrayFor (s : BuilderState) (t : ArrayTerm) (root : ExprArray) (un : UpdateNode) : Prop where
  domain : t.domain = root.domain
  range : t.range = root.range
  covers : s.Covers (un.roots root)
  denote : ∀ {env : Interpretation} {m : Valuation}, s.Represents (un.roots root) env m →
    ∃ f, t.denote env = some f ∧
      ∀ i < 2 ^ root.domain, f i = un.solverLookup m ⟨root.range, root.contents m i⟩ i

section Monotone

variable {name : ExprArray → String} {roots : List ExprArray} {s s' : BuilderState}

theorem TermFor.mono {t : SolverTerm} {e : Expr} (h : TermFor s t e) (hs : s.Grows name roots s') : TermFor s' t e :=
  ⟨h.sort, h.covers.mono hs, fun hr => h.denote (hr.mono hs)⟩

theorem ArrayFor.mono {t : ArrayTerm} {root : ExprArray} {un : UpdateNode} (h : ArrayFor s t root un)
    (hs : s.Grows name roots s') : ArrayFor s' t root un :=
  ⟨h.domain, h.range, h.covers.mono hs, fun hr => h.denote (hr.mono hs)⟩

end Monotone

/-- What the tables hold stands for what it is kept for.  What is asserted of an array holds if its variable has the
contents. -/
structure BuilderState.Inv (s : BuilderState) : Prop where
  arrays : ∀ p ∈ s.arrays, ArrayFor s p.2 p.1 .nil
  nodes : ∀ p ∈ s.nodes, ArrayFor s p.2 p.1.1 p.1.2
  constructed : ∀ p ∈ s.constructed, p.2.2 = p.1.width ∧ TermFor s p.2.1 p.1
  assertions : ∀ p ∈ s.constantArrayAssertions, ∃ t, (p.1, t) ∈ s.arrays ∧
    ∀ (env : Interpretation) (m : Valuation), (∀ i, env t.name i = (p.1.contents m i).toNat) →
      ∀ u ∈ p.2, Holds env u true

theorem BuilderState.Inv.empty : BuilderState.empty.Inv := ⟨nofun, nofun, nofun, nofun⟩

def BuildsTerm (name : ExprArray → String) (x : BuilderM Built) (e : Expr) : Prop :=
  ∀ s : BuilderState, s.Inv →
    ∃ t s', x s = some ((t, e.width), s') ∧ s'.Inv ∧ s.Grows name e.roots s' ∧ TermFor s' t e

def BuildsArray (name : ExprArray → String) (x : BuilderM ArrayTerm) (root : ExprArray) (un : UpdateNode) : Prop :=
  ∀ s : BuilderState, s.Inv →
    ∃ t s', x s = some (t, s') ∧ s'.Inv ∧ s.Grows name (un.roots root) s' ∧ ArrayFor s' t root un

section Vectors

variable {s : BuilderState} {t : SolverTerm} {e : Expr} {env : Interpretation} {m : Valuation} {roots : List ExprArray}

theorem TermFor.denotes (h : TermFor s t e) (ht : e.WellTyped) (hw : e.width ≠ 1) (hr : s.Represents roots env m)
    (hroots : e.roots ⊆ roots) : Denotes env t (e.solverValue m) := by
  have hd := h.denote (hr.subset hroots)
  rwa [sortValue_of_ne (by rwa [e.width_solverValue m ht])] at hd

theorem TermFor.holds (h : TermFor s t e) (ht : e.WellTyped) (hw : e.width = 1) (hr : s.Represents roots env m)
    (hroots : e.roots ⊆ roots) : Holds env t (decide ((e.solverValue m).toNat = 1)) := by
  have hd := h.denote (hr.subset hroots)
  rwa [sortValue_of_eq (by rwa [e.width_solverValue m ht])] at hd

theorem TermFor.of_denotes (hw : e.width ≠ 1) (ht : e.WellTyped) (hl : t.bvLength = e.width) (hc : s.Covers e.roots)
    (h : ∀ {env : Interpretation} {m : Valuation}, s.Represents e.roots env m → Denotes env t (e.solverValue m)) :
    TermFor s t e :=
  ⟨.of_bvLength hw hl, hc, fun hr => by
    rw [sortValue_of_ne (by rwa [e.width_solverValue _ ht])]
    exact h hr⟩

theorem TermFor.of_holds (hw : e.width = 1) (ht : e.WellTyped) (hb : t.isBool = true) (hc : s.Covers e.roots)
    (h : ∀ {env : Interpretation} {m : Valuation}, s.Represents e.roots env m →
      Holds env t (decide ((e.solverValue m).toNat = 1))) :
    TermFor s t e :=
  ⟨.of_isBool hw hb, hc, fun hr => by
    rw [sortValue_of_eq (by rwa [e.width_solverValue _ ht])]
    exact h hr⟩

end Vectors

def IsVarShift (shift : SolverTerm → SolverTerm → Option SolverTerm) (value : APInt → Nat → APInt) : Prop :=
  ∀ {w : Nat} {e amount : SolverTerm}, 1 < w → e.bvLength = w → amount.bvLength = w →
    ∃ t, shift e amount = some t ∧ t.bvLength = w ∧
      ∀ (env : Interpretation) (a c : APInt), Denotes env e a → Denotes env amount c → Denotes env t (value a c.toNat)

/-- Special cases for a constant operand, if they are taken. -/
def IsSpecialCase (special : APInt → Nat → SolverTerm → Option (Option SolverTerm)) (operand : APInt → Prop)
    (value : APInt → APInt → APInt) : Prop :=
  ∀ {c : APInt} {w : Nat} {t : SolverTerm} {r : Option SolverTerm}, 1 < w → c.width = w → operand c → t.bvLength = w →
    special c w t = some r →
    ∃ t', r = some t' ∧ t'.bvLength = w ∧ ∀ (env : Interpretation) (a : APInt), Denotes env t a →
      Denotes env t' (value c a)

/-- A new array: what is asserted of it and what is written into it make the contents, and contents are possible. -/
def IsInitialArray (initialArray : ExprArray → ArrayTerm → BuilderM ArrayTerm) : Prop :=
  ∀ {root : ExprArray} (name : String) {s : BuilderState}, root.WellFormed → root.Indexed →
    (∀ p ∈ s.constantArrayAssertions, p.1 ≠ root) →
    ∃ t assertions, initialArray root (.var name root.domain root.range) s =
        some (t, { s with constantArrayAssertions := assertions }) ∧
      s.constantArrayAssertions ⊆ assertions ∧
      (∀ p ∈ assertions, p ∈ s.constantArrayAssertions ∨ p.1 = root ∧
        ∀ (env : Interpretation) (m : Valuation), (∀ i, env name i = (root.contents m i).toNat) →
          ∀ u ∈ p.2, Holds env u true) ∧
      t.domain = root.domain ∧ t.range = root.range ∧ t.name = name ∧
      ∀ (env : Interpretation) (m : Valuation),
        (∀ i, root.isSymbolicArray = true ∨ root.size ≤ i → env name i = (m root i).toNat) →
        (∀ p ∈ assertions, p.1 = root → ∀ u ∈ p.2, Holds env u true) →
        ∃ f, t.denote env = some f ∧ ∀ i < 2 ^ root.domain, f i = ⟨root.range, root.contents m i⟩

/-- The operations of a backend mean what they should, and no assertion in them fails. -/
structure Backend.Sound (b : Backend) : Prop where
  minusOne : IsMinusOne b.bvMinusOne
  iff : ∀ {l r : SolverTerm}, l.isBool = true → r.isBool = true → b.iffExpr l r = some (.iff l r)
  zeroExtend : ∀ {t : SolverTerm} {k w : Nat}, k < w → b.zeroExtend t k w = some (.concat (bvZero (w - k)) t)
  signExtend : ∀ {t : SolverTerm} {w : Nat}, t.bvLength ≤ w → b.bvSignExtend t w = some (.signExtend t w)
  op : ∀ {o : BvOp} {w : Nat} {l r : SolverTerm}, l.bvLength = w → r.bvLength = w → b.op o w l r = some (.op o l r)
  varLeftShift : IsVarShift b.bvVarLeftShift shiftLeft
  varRightShift : IsVarShift b.bvVarRightShift shiftRight
  varArithRightShift : IsVarShift b.bvVarArithRightShift arithShiftRight
  mul : IsSpecialCase b.mulConstant (fun _ => True) fun c a => .map₂ BvOp.mul.apply c a
  udiv : IsSpecialCase b.udivConstant (fun c => c.toNat ≠ 0) fun c a => .map₂ BvOp.udiv.apply a c
  sdiv : IsSpecialCase b.sdivConstant (fun c => c.toNat ≠ 0) fun c a => .map₂ BvOp.sdiv.apply a c
  urem : IsSpecialCase b.uremConstant (fun c => c.toNat ≠ 0) fun c a => .map₂ BvOp.urem.apply a c
  initialArray : IsInitialArray b.initialArray

end CgsKlee
