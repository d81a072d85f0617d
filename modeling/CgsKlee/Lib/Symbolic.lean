import Mathlib.Algebra.Group.Nat.Defs
import Mathlib.Data.Set.Basic
import Mathlib.Data.Fin.Basic

/-!
# Symbolic execution: expressions, models and an exact solver

An `ExprTheory` is a language of bit-vector expressions with its meaning: every model gives every expression a value
below two to the power of its width.  The constructors of the language may simplify, so that nothing is known of them
but their value and their width.  A set of constraints stands for its `models`, and a `Backend` answers the questions
that a symbolic executor asks about them.  `Backend.Exact` says that the answers are right for satisfiable
constraints.

The last section builds a theory whose expressions are functions from finitely many models to bit vectors, with a
solver that tries all models.
-/

namespace Symbolic

structure ExprTheory where
  Model : Type
  Expr : Type
  width : Expr → Nat
  eval : Model → Expr → Nat
  eval_lt : ∀ m e, eval m e < 2 ^ width e
  /-- The value of a constant expression. -/
  constant? : Expr → Option Nat
  eval_of_constant? : ∀ {e v}, constant? e = some v → ∀ m, eval m e = v
  const (value width : Nat) : Expr
  eq : Expr → Expr → Expr
  ult : Expr → Expr → Expr
  ule : Expr → Expr → Expr
  and : Expr → Expr → Expr
  or : Expr → Expr → Expr
  add : Expr → Expr → Expr
  sub : Expr → Expr → Expr
  zext : Expr → Nat → Expr
  extract (e : Expr) (offset width : Nat) : Expr
  concat : Expr → Expr → Expr
  constant?_const : ∀ v w, constant? (const v w) = some (v % 2 ^ w)
  /-- A constant added to what is no constant gives no constant. -/
  constant?_add_const : ∀ {e v w}, constant? e = none → constant? (add e (const v w)) = none
  width_const : ∀ v w, width (const v w) = w
  width_eq : ∀ a b, width (eq a b) = 1
  width_ult : ∀ a b, width (ult a b) = 1
  width_ule : ∀ a b, width (ule a b) = 1
  width_and : ∀ a b, width (and a b) = width a
  width_or : ∀ a b, width (or a b) = width a
  width_add : ∀ a b, width (add a b) = width a
  width_sub : ∀ a b, width (sub a b) = width a
  width_zext : ∀ e w, width (zext e w) = w
  width_extract : ∀ e o w, width (extract e o w) = w
  width_concat : ∀ a b, width (concat a b) = width a + width b
  eval_eq : ∀ m {a b}, width a = width b → (eval m (eq a b) = 1 ↔ eval m a = eval m b)
  eval_ult : ∀ m {a b}, width a = width b → (eval m (ult a b) = 1 ↔ eval m a < eval m b)
  eval_ule : ∀ m {a b}, width a = width b → (eval m (ule a b) = 1 ↔ eval m a ≤ eval m b)
  eval_and : ∀ m {a b}, width a = 1 → width b = 1 → (eval m (and a b) = 1 ↔ eval m a = 1 ∧ eval m b = 1)
  eval_or : ∀ m {a b}, width a = 1 → width b = 1 → (eval m (or a b) = 1 ↔ eval m a = 1 ∨ eval m b = 1)
  eval_add : ∀ m {a b}, width a = width b → eval m (add a b) = (eval m a + eval m b) % 2 ^ width a
  eval_sub : ∀ m {a b}, width a = width b →
    eval m (sub a b) = (2 ^ width a - eval m b + eval m a) % 2 ^ width a
  eval_zext : ∀ m e w, eval m (zext e w) = eval m e % 2 ^ w
  eval_extract : ∀ m e o w, eval m (extract e o w) = eval m e / 2 ^ o % 2 ^ w
  eval_concat : ∀ m a b, eval m (concat a b) = eval m a * 2 ^ width b + eval m b

namespace ExprTheory

variable (T : ExprTheory)

attribute [simp] width_const width_eq width_ult width_ule width_and width_or width_add width_sub width_zext
  width_extract width_concat

def Holds (m : T.Model) (e : T.Expr) : Prop := T.eval m e = 1

def models (cs : List T.Expr) : Set T.Model := {m | ∀ e ∈ cs, T.Holds m e}

def isZero (e : T.Expr) : T.Expr := T.eq (T.const 0 (T.width e)) e

variable {T} {m : T.Model} {a b e : T.Expr}

theorem mem_models {cs : List T.Expr} : m ∈ T.models cs ↔ ∀ e ∈ cs, T.Holds m e := Iff.rfl

@[simp] theorem eval_const (m : T.Model) (v w : Nat) : T.eval m (T.const v w) = v % 2 ^ w :=
  T.eval_of_constant? (T.constant?_const v w) m

@[simp] theorem width_isZero : T.width (T.isZero e) = 1 := T.width_eq _ _

theorem eval_le_one (m : T.Model) (h : T.width e = 1) : T.eval m e ≤ 1 := by
  have hlt := T.eval_lt m e
  rw [h] at hlt
  omega

theorem holds_eq (h : T.width a = T.width b) : T.Holds m (T.eq a b) ↔ T.eval m a = T.eval m b := T.eval_eq m h

theorem holds_eq_const {v : Nat} (hv : v < 2 ^ T.width e) :
    T.Holds m (T.eq e (T.const v (T.width e))) ↔ T.eval m e = v := by
  rw [holds_eq (T.width_const _ _).symm, eval_const, Nat.mod_eq_of_lt hv]

theorem holds_const_eq {v : Nat} (hv : v < 2 ^ T.width e) :
    T.Holds m (T.eq (T.const v (T.width e)) e) ↔ T.eval m e = v := by
  rw [holds_eq (T.width_const _ _), eval_const, Nat.mod_eq_of_lt hv, eq_comm]

theorem holds_ult (h : T.width a = T.width b) : T.Holds m (T.ult a b) ↔ T.eval m a < T.eval m b := T.eval_ult m h

theorem holds_ule (h : T.width a = T.width b) : T.Holds m (T.ule a b) ↔ T.eval m a ≤ T.eval m b := T.eval_ule m h

theorem holds_and (ha : T.width a = 1) (hb : T.width b = 1) :
    T.Holds m (T.and a b) ↔ T.Holds m a ∧ T.Holds m b := T.eval_and m ha hb

theorem holds_or (ha : T.width a = 1) (hb : T.width b = 1) :
    T.Holds m (T.or a b) ↔ T.Holds m a ∨ T.Holds m b := T.eval_or m ha hb

theorem holds_isZero (h : T.width e = 1) : T.Holds m (T.isZero e) ↔ ¬T.Holds m e := by
  have hle := eval_le_one m h
  rw [isZero, holds_eq (by simp), eval_const, Nat.zero_mod, Holds]
  omega

theorem holds_true : T.Holds m (T.const 1 1) := by simp [Holds]

theorem not_holds_false : ¬T.Holds m (T.const 0 1) := by simp [Holds]

end ExprTheory

/-- The byte at `i` of an array with the contents `f`, after the writes `us`, the last of them first. -/
def ExprTheory.lookup (T : ExprTheory) (m : T.Model) : List (T.Expr × T.Expr) → (Nat → Nat) → Nat → Nat
  | [], f, i => f i
  | u :: us, f, i => if T.eval m u.1 = i then T.eval m u.2 else T.lookup m us f i

theorem ExprTheory.lookup_append {T : ExprTheory} (m : T.Model) (us vs : List (T.Expr × T.Expr)) (f : Nat → Nat) :
    T.lookup m (us ++ vs) f = T.lookup m us (T.lookup m vs f) := by
  funext i
  induction us with
  | nil => rfl
  | cons u us ih => simp only [List.cons_append, lookup, ih]

/-- Arrays of bytes, constant or symbolic, and the expression that reads an array after a list of writes. -/
structure ArrayTheory (T : ExprTheory) where
  Array : Type
  size : Array → Nat
  byte : T.Model → Array → Nat → Nat
  byte_lt : ∀ m a i, byte m a i < 256
  constArray : List Nat → Array
  size_constArray : ∀ l, size (constArray l) = l.length
  byte_constArray : ∀ m l i, byte m (constArray l) i = l.getD i 0 % 256
  read : Array → List (T.Expr × T.Expr) → T.Expr → T.Expr
  width_read : ∀ a us index, T.width (read a us index) = 8
  eval_read : ∀ m {a us index}, (∀ u ∈ us, T.width u.2 = 8) → T.eval m index < size a →
    T.eval m (read a us index) = T.lookup m us (byte m a) (T.eval m index)

attribute [simp] ArrayTheory.width_read ArrayTheory.size_constArray

/-- The answers of a solver about an expression under constraints. -/
inductive Validity
  | true | false | unknown
deriving DecidableEq, Repr

/-- The operations on sets of constraints that a symbolic executor uses. -/
structure Backend (T : ExprTheory) where
  evaluate : List T.Expr → T.Expr → Validity
  mustBeTrue : List T.Expr → T.Expr → Bool
  mayBeTrue : List T.Expr → T.Expr → Bool
  getValue : List T.Expr → T.Expr → Nat
  addConstraint : List T.Expr → T.Expr → List T.Expr
  simplifyExpr : List T.Expr → T.Expr → T.Expr

/-- The answers are exact for satisfiable constraints, and a constraint that can be added cuts the models down to
those in which it holds. -/
structure Backend.Exact {T : ExprTheory} (B : Backend T) : Prop where
  evaluate_true : ∀ {cs e}, (T.models cs).Nonempty → T.width e = 1 →
    (B.evaluate cs e = .true ↔ ∀ m ∈ T.models cs, T.Holds m e)
  evaluate_false : ∀ {cs e}, (T.models cs).Nonempty → T.width e = 1 →
    (B.evaluate cs e = .false ↔ ∀ m ∈ T.models cs, ¬T.Holds m e)
  mustBeTrue : ∀ {cs e}, (T.models cs).Nonempty → T.width e = 1 →
    (B.mustBeTrue cs e = true ↔ ∀ m ∈ T.models cs, T.Holds m e)
  mayBeTrue : ∀ {cs e}, (T.models cs).Nonempty → T.width e = 1 →
    (B.mayBeTrue cs e = true ↔ ∃ m ∈ T.models cs, T.Holds m e)
  getValue : ∀ {cs e}, (T.models cs).Nonempty → ∃ m ∈ T.models cs, T.eval m e = B.getValue cs e
  addConstraint : ∀ {cs e}, T.width e = 1 → (∃ m ∈ T.models cs, T.Holds m e) →
    T.models (B.addConstraint cs e) = {m | m ∈ T.models cs ∧ T.Holds m e}
  simplifyExpr_eval : ∀ {cs e}, ∀ m ∈ T.models cs, T.eval m (B.simplifyExpr cs e) = T.eval m e
  simplifyExpr_width : ∀ {cs e}, T.width (B.simplifyExpr cs e) = T.width e

theorem Backend.Exact.evaluate_unknown {T : ExprTheory} {B : Backend T} (h : B.Exact) {cs : List T.Expr} {e : T.Expr}
    (hs : (T.models cs).Nonempty) (hw : T.width e = 1) (hu : B.evaluate cs e = .unknown) :
    (∃ m ∈ T.models cs, T.Holds m e) ∧ ∃ m ∈ T.models cs, ¬T.Holds m e := by
  constructor
  · by_contra hno
    have hf := (h.evaluate_false hs hw).2 fun m hm he => hno ⟨m, hm, he⟩
    rw [hu] at hf
    cases hf
  · by_contra hno
    have ht := (h.evaluate_true hs hw).2 fun m hm => by_contra fun he => hno ⟨m, hm, he⟩
    rw [hu] at ht
    cases ht

/-- A solver that knows all models: every theory has an exact one, whatever value it picks. -/
noncomputable def idealBackend {T : ExprTheory} (pick : List T.Expr → T.Expr → Nat) : Backend T :=
  open Classical in {
    evaluate cs e :=
      if ∀ m ∈ T.models cs, T.Holds m e then .true
      else if ∀ m ∈ T.models cs, ¬T.Holds m e then .false
      else .unknown
    mustBeTrue cs e := decide (∀ m ∈ T.models cs, T.Holds m e)
    mayBeTrue cs e := decide (∃ m ∈ T.models cs, T.Holds m e)
    getValue := pick
    addConstraint cs e := e :: cs
    simplifyExpr _ e := e }

theorem idealBackend_exact {T : ExprTheory} {pick : List T.Expr → T.Expr → Nat}
    (h : ∀ cs e, (T.models cs).Nonempty → ∃ m ∈ T.models cs, T.eval m e = pick cs e) :
    (idealBackend pick).Exact where
  evaluate_true := by
    intro cs e _ _
    unfold idealBackend
    dsimp only
    split
    · simp_all
    · split <;> simp_all
  evaluate_false := by
    rintro cs e ⟨m, hm⟩ _
    unfold idealBackend
    dsimp only
    split
    · rename_i hall
      simp only [reduceCtorEq, false_iff, not_forall]
      exact ⟨m, hm, not_not.2 (hall m hm)⟩
    · split <;> simp_all
  mustBeTrue _ _ := by simp [idealBackend]
  mayBeTrue _ _ := by simp [idealBackend]
  getValue := h _ _
  addConstraint _ _ := by
    ext m
    simp [idealBackend, ExprTheory.mem_models, and_comm]
  simplifyExpr_eval _ _ := rfl
  simplifyExpr_width := rfl

theorem exists_exact_backend (T : ExprTheory) : ∃ B : Backend T, B.Exact := by
  classical
  refine ⟨idealBackend fun cs e => if h : (T.models cs).Nonempty then T.eval h.choose e else 0,
    idealBackend_exact fun cs e h => ⟨h.choose, h.choose_spec, ?_⟩⟩
  rw [dif_pos h]

section Shallow

variable (k : Nat)

/-- The theory whose models are the numbers up to `k` and whose expressions are functions of them. -/
def shallow : ExprTheory where
  Model := Fin (k + 1)
  Expr := Σ w : Nat, Fin (k + 1) → BitVec w
  width e := e.1
  eval m e := (e.2 m).toNat
  eval_lt m e := (e.2 m).isLt
  constant? e := if ∀ m, e.2 m = e.2 0 then some (e.2 0).toNat else none
  eval_of_constant? := by
    intro e v h m
    split at h
    · rename_i hc
      rw [hc m]
      exact Option.some.inj h
    · cases h
  const v w := ⟨w, fun _ => BitVec.ofNat w v⟩
  eq a b := ⟨1, fun m => if (a.2 m).toNat = (b.2 m).toNat then 1 else 0⟩
  ult a b := ⟨1, fun m => if (a.2 m).toNat < (b.2 m).toNat then 1 else 0⟩
  ule a b := ⟨1, fun m => if (a.2 m).toNat ≤ (b.2 m).toNat then 1 else 0⟩
  and a b := ⟨a.1, fun m => a.2 m &&& BitVec.ofNat a.1 (b.2 m).toNat⟩
  or a b := ⟨a.1, fun m => a.2 m ||| BitVec.ofNat a.1 (b.2 m).toNat⟩
  add a b := ⟨a.1, fun m => a.2 m + BitVec.ofNat a.1 (b.2 m).toNat⟩
  sub a b := ⟨a.1, fun m => a.2 m - BitVec.ofNat a.1 (b.2 m).toNat⟩
  zext e w := ⟨w, fun m => BitVec.ofNat w (e.2 m).toNat⟩
  extract e o w := ⟨w, fun m => BitVec.ofNat w ((e.2 m).toNat / 2 ^ o)⟩
  concat a b := ⟨a.1 + b.1, fun m => BitVec.ofNat (a.1 + b.1) ((a.2 m).toNat * 2 ^ b.1 + (b.2 m).toNat)⟩
  constant?_const := by simp
  constant?_add_const := by
    intro e v w h
    have hne : ¬∀ m, e.2 m = e.2 0 := by simpa using h
    simpa using hne
  width_const _ _ := rfl
  width_eq _ _ := rfl
  width_ult _ _ := rfl
  width_ule _ _ := rfl
  width_and _ _ := rfl
  width_or _ _ := rfl
  width_add _ _ := rfl
  width_sub _ _ := rfl
  width_zext _ _ := rfl
  width_extract _ _ _ := rfl
  width_concat _ _ := rfl
  eval_eq := by
    intro m a b _
    dsimp only
    split <;> simp_all
  eval_ult := by
    intro m a b _
    dsimp only
    split <;> simp_all
  eval_ule := by
    intro m a b _
    dsimp only
    split <;> simp_all
  eval_and := by
    rintro m ⟨_, a⟩ ⟨_, b⟩ rfl rfl
    rcases BitVec.eq_zero_or_eq_one (a m) with ha | ha <;> rcases BitVec.eq_zero_or_eq_one (b m) with hb | hb <;>
      simp [ha, hb]
  eval_or := by
    rintro m ⟨_, a⟩ ⟨_, b⟩ rfl rfl
    rcases BitVec.eq_zero_or_eq_one (a m) with ha | ha <;> rcases BitVec.eq_zero_or_eq_one (b m) with hb | hb <;>
      simp [ha, hb]
  eval_add := by
    intro m a b h
    simp
  eval_sub := by
    rintro m ⟨w, a⟩ ⟨_, b⟩ rfl
    simp [BitVec.toNat_sub]
  eval_zext := by simp
  eval_extract := by simp
  eval_concat := by
    rintro m ⟨v, a⟩ ⟨w, b⟩
    have ha := (a m).isLt
    have hb := (b m).isLt
    simp only [BitVec.toNat_ofNat]
    apply Nat.mod_eq_of_lt
    rw [Nat.pow_add]
    calc (a m).toNat * 2 ^ w + (b m).toNat < (a m).toNat * 2 ^ w + 2 ^ w := by omega
      _ = ((a m).toNat + 1) * 2 ^ w := by rw [Nat.add_mul, Nat.one_mul]
      _ ≤ 2 ^ v * 2 ^ w := Nat.mul_le_mul_right _ ha

def shallowArrays : ArrayTheory (shallow k) where
  Array := Nat × (Fin (k + 1) → Nat → BitVec 8)
  size a := a.1
  byte m a i := (a.2 m i).toNat
  byte_lt m a i := (a.2 m i).isLt
  constArray l := ⟨l.length, fun _ i => BitVec.ofNat 8 (l.getD i 0)⟩
  size_constArray _ := rfl
  byte_constArray _ _ _ := BitVec.toNat_ofNat _ _
  read a us index :=
    ⟨8, fun m => BitVec.ofNat 8 ((shallow k).lookup m us (fun i => (a.2 m i).toNat) (index.2 m).toNat)⟩
  width_read _ _ _ := rfl
  eval_read := by
    intro m a us index hus _
    have hlt : ∀ i, (shallow k).lookup m us (fun i => (a.2 m i).toNat) i < 2 ^ 8 := by
      intro i
      induction us with
      | nil => exact (a.2 m i).isLt
      | cons u us ih =>
        unfold ExprTheory.lookup
        split
        · have hw : (shallow k).width u.2 = 8 := hus u (by simp)
          have hv := (shallow k).eval_lt m u.2
          rwa [hw] at hv
        · exact ih fun u hu => hus u (by simp [hu])
    exact (BitVec.toNat_ofNat _ _).trans (Nat.mod_eq_of_lt (hlt _))

variable {k}

def isTrueIn (m : Fin (k + 1)) (e : Σ w : Nat, Fin (k + 1) → BitVec w) : Bool := (e.2 m).toNat = 1

def satisfies (m : Fin (k + 1)) (cs : List (Σ w : Nat, Fin (k + 1) → BitVec w)) : Bool := cs.all (isTrueIn m)

theorem isTrueIn_iff {m : Fin (k + 1)} {e : (shallow k).Expr} : isTrueIn m e = true ↔ (shallow k).Holds m e :=
  decide_eq_true_iff

theorem satisfies_iff {m : Fin (k + 1)} {cs : List (shallow k).Expr} :
    satisfies m cs = true ↔ m ∈ (shallow k).models cs :=
  List.all_eq_true.trans
    ⟨fun h e he => isTrueIn_iff.1 (h e he), fun h e he => isTrueIn_iff.2 (h e he)⟩

variable (k)

/-- The solver that tries all models. -/
def shallowBackend : Backend (shallow k) where
  evaluate cs e :=
    if ∀ m : Fin (k + 1), satisfies m cs → isTrueIn m e then .true
    else if ∀ m : Fin (k + 1), satisfies m cs → !isTrueIn m e then .false
    else .unknown
  mustBeTrue cs e := decide (∀ m : Fin (k + 1), satisfies m cs → isTrueIn m e)
  mayBeTrue cs e := decide (∃ m : Fin (k + 1), satisfies m cs ∧ isTrueIn m e)
  getValue cs e := (((List.finRange (k + 1)).find? fun m => satisfies m cs).map fun m => (shallow k).eval m e).getD 0
  addConstraint cs e := cs ++ [e]
  simplifyExpr _ e := e

theorem shallowBackend_exact : (shallowBackend k).Exact where
  evaluate_true := by
    intro cs e _ _
    unfold shallowBackend
    dsimp only
    split
    · rename_i h
      exact ⟨fun _ m hm => isTrueIn_iff.1 (h m (satisfies_iff.2 hm)), fun _ => rfl⟩
    · rename_i h
      refine ⟨fun he => ?_, fun he => (h fun m hm => isTrueIn_iff.2 (he m (satisfies_iff.1 hm))).elim⟩
      split at he <;> cases he
  evaluate_false := by
    rintro cs e ⟨m₀, hm₀⟩ _
    have hneg : (∀ m : Fin (k + 1), satisfies m cs → !isTrueIn m e) ↔
        ∀ m ∈ (shallow k).models cs, ¬(shallow k).Holds m e := by
      constructor
      · intro h m hm he
        have hm' := h m (satisfies_iff.2 hm)
        rw [isTrueIn_iff.2 he] at hm'
        cases hm'
      · intro h m hm
        have hm' : ¬isTrueIn m e = true := fun he => h m (satisfies_iff.1 hm) (isTrueIn_iff.1 he)
        simpa using hm'
    rw [← hneg]
    unfold shallowBackend
    dsimp only
    split
    · rename_i h
      refine ⟨fun he => (by cases he), fun he => ?_⟩
      have h₁ := h m₀ (satisfies_iff.2 hm₀)
      have h₂ := he m₀ (satisfies_iff.2 hm₀)
      simp [h₁] at h₂
    · split
      · rename_i h
        exact ⟨fun _ => h, fun _ => rfl⟩
      · rename_i h
        exact ⟨fun he => (by cases he), fun he => (h he).elim⟩
  mustBeTrue := by
    intro cs e _ _
    unfold shallowBackend
    rw [decide_eq_true_iff]
    exact ⟨fun h m hm => isTrueIn_iff.1 (h m (satisfies_iff.2 hm)),
      fun h m hm => isTrueIn_iff.2 (h m (satisfies_iff.1 hm))⟩
  mayBeTrue := by
    intro cs e _ _
    unfold shallowBackend
    rw [decide_eq_true_iff]
    exact ⟨fun ⟨m, hm, he⟩ => ⟨m, satisfies_iff.1 hm, isTrueIn_iff.1 he⟩,
      fun ⟨m, hm, he⟩ => ⟨m, satisfies_iff.2 hm, isTrueIn_iff.2 he⟩⟩
  getValue := by
    rintro cs e ⟨m, hm⟩
    unfold shallowBackend
    dsimp only
    cases hf : (List.finRange (k + 1)).find? fun m => satisfies m cs with
    | none => exact (List.find?_eq_none.1 hf m (List.mem_finRange m) (satisfies_iff.2 hm)).elim
    | some m' =>
      have hm' : satisfies m' cs = true := by simpa using List.find?_some hf
      exact ⟨m', satisfies_iff.1 hm', rfl⟩
  addConstraint := by
    intro cs e _ _
    ext m
    simp [shallowBackend, ExprTheory.mem_models, or_imp, forall_and]
  simplifyExpr_eval := fun _ _ => rfl
  simplifyExpr_width := rfl

end Shallow

end Symbolic
