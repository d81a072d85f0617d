import CgsKlee.Lib.Symbolic
import CgsKlee.Expr.CreateSound

/-!
# The expressions as a theory

The expressions that the smart constructors build are a theory in the sense of `Symbolic`: the models are the contents
of the symbolic arrays.  The constructors assert that their operands fit each other, while the operations of a theory
take any operands; a `Term` is therefore a well-typed expression or, for operands that fail an assertion, only a value.
The optimization of constant arrays is off, as it is by default.
-/

namespace CgsKlee

open Symbolic

inductive Term
  | expr (e : Expr) (h : e.WellTyped)
  | other (w : Nat) (f : Valuation → BitVec w)

namespace Term

def width : Term → Nat
  | .expr e _ => e.width
  | .other w _ => w

def value (m : Valuation) : Term → APInt
  | .expr e _ => e.eval m
  | .other w f => ⟨w, f m⟩

def eval (m : Valuation) (t : Term) : Nat := (t.value m).toNat

theorem width_value (m : Valuation) : ∀ t : Term, (t.value m).width = t.width
  | .expr e h => e.width_eval m h
  | .other _ _ => rfl

theorem eval_lt (m : Valuation) (t : Term) : t.eval m < 2 ^ t.width := by
  have h := (t.value m).toNat_lt
  rwa [t.width_value m] at h

def bits (m : Valuation) (t : Term) : BitVec t.width := BitVec.ofNat t.width (t.eval m)

@[simp] theorem toNat_bits (m : Valuation) (t : Term) : (t.bits m).toNat = t.eval m :=
  (BitVec.toNat_ofNat _ _).trans (Nat.mod_eq_of_lt (t.eval_lt m))

theorem value_eq (m : Valuation) (t : Term) : t.value m = ⟨t.width, t.bits m⟩ :=
  APInt.ext_toNat (t.width_value m) (t.toNat_bits m).symm

def constant? : Term → Option Nat
  | .expr (.constant c) _ => some c.toNat
  | _ => none

theorem eval_of_constant? {t : Term} {v : Nat} (h : t.constant? = some v) (m : Valuation) : t.eval m = v := by
  unfold constant? at h
  split at h
  · exact Option.some.inj h
  · cases h

/-- A node that its constructor accepts. -/
structure Node where
  node : Expr
  typed : node.OperandsTyped
  defined : node.dividesByZero = false

def Node.create (n : Node) : {e : Expr // n.node.Refines false e} :=
  match h : n.node.recreate false with
  | some e => ⟨e, Expr.recreate_refines n.typed h⟩
  | none => False.elim (by
    obtain ⟨e, he, -⟩ := n.node.recreate_builds false n.typed n.defined
    rw [h] at he
    cases he)

/-- The expression that a constructor builds or, if it fails, the value that it would have. -/
def build (w : Nat) (f : Valuation → BitVec w) : Option Node → Term
  | some n => .expr n.create.1 n.create.2.wellTyped
  | none => .other w f

def Stands (w : Nat) (f : Valuation → BitVec w) (n : Node) : Prop :=
  n.node.width = w ∧ ∀ m, (n.node.eval m).toNat = (f m).toNat

variable {w : Nat} {f : Valuation → BitVec w} {n : Option Node}

theorem width_build (h : ∀ x, n = some x → Stands w f x) : (build w f n).width = w := by
  cases n with
  | none => rfl
  | some x => exact x.create.2.width.trans (h x rfl).1

theorem eval_build (h : ∀ x, n = some x → Stands w f x) (m : Valuation) : (build w f n).eval m = (f m).toNat := by
  cases n with
  | none => rfl
  | some x =>
    have hv := x.create.2.eval m (fun ho => by cases ho)
    exact (congrArg APInt.toNat hv).trans ((h x rfl).2 m)

def binaryNode (kind : BinaryKind) (hk : kind.isDivision = false) : Term → Term → Option Node
  | .expr a ha, .expr b hb =>
    if h : a.width = b.width then some ⟨.binary kind a b, ⟨ha, hb, h⟩, by simp [Expr.dividesByZero, hk]⟩ else none
  | _, _ => none

def binary (kind : BinaryKind) (hk : kind.isDivision = false) (a b : Term) : Term :=
  build a.width (fun m => kind.apply (a.bits m) (BitVec.ofNat a.width (b.eval m))) (binaryNode kind hk a b)

theorem operands {a b : Expr} (ha : a.WellTyped) (hb : b.WellTyped) (hw : a.width = b.width) (m : Valuation) :
    a.eval m = ⟨a.width, (Term.expr a ha).bits m⟩ ∧
      b.eval m = ⟨a.width, BitVec.ofNat a.width ((Term.expr b hb).eval m)⟩ := by
  refine ⟨value_eq m (.expr a ha), APInt.ext_toNat ((b.width_eval m hb).trans hw.symm) ?_⟩
  have hlt := (Term.expr b hb).eval_lt m
  rw [show (Term.expr b hb).width = a.width from hw.symm] at hlt
  exact ((BitVec.toNat_ofNat _ _).trans (Nat.mod_eq_of_lt hlt)).symm

theorem binaryNode_stands {kind : BinaryKind} {hk : kind.isDivision = false} {a b : Term} {x : Node}
    (h : binaryNode kind hk a b = some x) :
    Stands a.width (fun m => kind.apply (a.bits m) (BitVec.ofNat a.width (b.eval m))) x := by
  unfold binaryNode at h
  split at h
  · rename_i a ha b hb
    split at h
    · rename_i hw
      obtain rfl := Option.some.inj h
      refine ⟨rfl, fun m => ?_⟩
      obtain ⟨hp, hq⟩ := operands ha hb hw m
      simp only [Expr.eval, hp, hq]
      exact congrArg APInt.toNat (APInt.map₂_mk kind.apply ((Term.expr a ha).bits m) _)
    · cases h
  · cases h

theorem width_binary (kind : BinaryKind) (hk : kind.isDivision = false) (a b : Term) :
    (binary kind hk a b).width = a.width := width_build fun _ => binaryNode_stands

theorem eval_binary (kind : BinaryKind) (hk : kind.isDivision = false) (a b : Term) (m : Valuation) :
    (binary kind hk a b).eval m = (kind.apply (a.bits m) (BitVec.ofNat a.width (b.eval m))).toNat :=
  eval_build (fun _ => binaryNode_stands) m

def cmpNode (kind : CmpKind) : Term → Term → Option Node
  | .expr a ha, .expr b hb => if h : a.width = b.width then some ⟨.cmp kind a b, ⟨ha, hb, h⟩, rfl⟩ else none
  | _, _ => none

def cmp (kind : CmpKind) (a b : Term) : Term :=
  build 1 (fun m => BitVec.ofBool (kind.apply (a.bits m) (BitVec.ofNat a.width (b.eval m)))) (cmpNode kind a b)

theorem cmpNode_stands {kind : CmpKind} {a b : Term} {x : Node} (h : cmpNode kind a b = some x) :
    Stands 1 (fun m => BitVec.ofBool (kind.apply (a.bits m) (BitVec.ofNat a.width (b.eval m)))) x := by
  unfold cmpNode at h
  split at h
  · rename_i a ha b hb
    split at h
    · rename_i hw
      obtain rfl := Option.some.inj h
      refine ⟨rfl, fun m => ?_⟩
      obtain ⟨hp, hq⟩ := operands ha hb hw m
      simp only [Expr.eval, hp, hq]
      exact congrArg APInt.toNat (APInt.rel₂_mk kind.apply ((Term.expr a ha).bits m) _)
    · cases h
  · cases h

theorem width_cmp (kind : CmpKind) (a b : Term) : (cmp kind a b).width = 1 := width_build fun _ => cmpNode_stands

theorem eval_cmp (kind : CmpKind) (a b : Term) (m : Valuation) :
    (cmp kind a b).eval m = 1 ↔ kind.apply (a.bits m) (BitVec.ofNat a.width (b.eval m)) = true := by
  have hstands : ∀ x, cmpNode kind a b = some x →
      Stands 1 (fun m => BitVec.ofBool (kind.apply (a.bits m) (BitVec.ofNat a.width (b.eval m)))) x :=
    fun _ => cmpNode_stands
  have h := eval_build hstands m
  rw [cmp, h]
  cases kind.apply (a.bits m) (BitVec.ofNat a.width (b.eval m)) <;> simp

def zextNode (w : Nat) : Term → Option Node
  | .expr e he => if h : w < e.width → 0 < w then some ⟨.cast .zext e w, ⟨he, h⟩, rfl⟩ else none
  | _ => none

def zext (t : Term) (w : Nat) : Term := build w (fun m => BitVec.ofNat w (t.eval m)) (zextNode w t)

theorem zextNode_stands {t : Term} {w : Nat} {x : Node} (h : zextNode w t = some x) :
    Stands w (fun m => BitVec.ofNat w (t.eval m)) x := by
  unfold zextNode at h
  split at h
  · split at h
    · obtain rfl := Option.some.inj h
      refine ⟨rfl, fun m => ?_⟩
      simp only [Expr.eval, CastKind.apply, APInt.toNat, APInt.zextOrTrunc, BitVec.toNat_setWidth,
        BitVec.toNat_ofNat]
      rfl
    · cases h
  · cases h

def extractNode (o w : Nat) : Term → Option Node
  | .expr e he => if h : 0 < w ∧ o + w ≤ e.width then some ⟨.extract e o w, ⟨he, h.1, h.2⟩, rfl⟩ else none
  | _ => none

def extract (t : Term) (o w : Nat) : Term := build w (fun m => BitVec.ofNat w (t.eval m / 2 ^ o)) (extractNode o w t)

theorem extractNode_stands {t : Term} {o w : Nat} {x : Node} (h : extractNode o w t = some x) :
    Stands w (fun m => BitVec.ofNat w (t.eval m / 2 ^ o)) x := by
  unfold extractNode at h
  split at h
  · split at h
    · obtain rfl := Option.some.inj h
      refine ⟨rfl, fun m => ?_⟩
      simp only [Expr.eval, APInt.toNat, APInt.extract, BitVec.extractLsb'_toNat, BitVec.toNat_ofNat,
        Nat.shiftRight_eq_div_pow]
      rfl
    · cases h
  · cases h

def concatNode : Term → Term → Option Node
  | .expr a ha, .expr b hb => some ⟨.concat a b, ⟨ha, hb⟩, rfl⟩
  | _, _ => none

def concat (a b : Term) : Term := build (a.width + b.width) (fun m => a.bits m ++ b.bits m) (concatNode a b)

theorem concatNode_stands {a b : Term} {x : Node} (h : concatNode a b = some x) :
    Stands (a.width + b.width) (fun m => a.bits m ++ b.bits m) x := by
  unfold concatNode at h
  split at h
  · rename_i a ha b hb
    obtain rfl := Option.some.inj h
    refine ⟨rfl, fun m => ?_⟩
    have hp := value_eq m (.expr a ha)
    have hq := value_eq m (.expr b hb)
    simp only [value] at hp hq
    simp only [Expr.eval, hp, hq]
    rfl
  · cases h

/-- `AddExpr::create`.  Of an expression that no constructor builds, the sum with a constant could be a constant; then
it is only a value. -/
def add (a b : Term) : Term :=
  let sum := binary .add (by decide) a b
  if a.constant?.isNone ∧ sum.constant?.isSome then .other sum.width fun m => sum.bits m else sum

theorem width_add (a b : Term) : (add a b).width = a.width := by
  unfold add
  dsimp only
  split
  · exact width_binary .add (by decide) a b
  · exact width_binary .add (by decide) a b

theorem eval_add (a b : Term) (m : Valuation) : (add a b).eval m = (binary .add (by decide) a b).eval m := by
  unfold add
  dsimp only
  split
  · exact toNat_bits m _
  · rfl

theorem constant?_add {a : Term} (b : Term) (h : a.constant? = none) : (add a b).constant? = none := by
  unfold add
  dsimp only
  split
  · rfl
  · rename_i hc
    simpa [h] using hc

theorem toNat_second {a b : Term} (h : a.width = b.width) {m : Valuation} :
    (BitVec.ofNat a.width (b.eval m)).toNat = b.eval m := by
  rw [BitVec.toNat_ofNat, h]
  exact Nat.mod_eq_of_lt (b.eval_lt m)

theorem and_eq_one {w : Nat} (hw : w = 1) (x y : BitVec w) :
    (BinaryKind.and.apply x y).toNat = 1 ↔ x.toNat = 1 ∧ y.toNat = 1 := by
  subst hw
  revert x y
  decide

theorem or_eq_one {w : Nat} (hw : w = 1) (x y : BitVec w) :
    (BinaryKind.or.apply x y).toNat = 1 ↔ x.toNat = 1 ∨ y.toNat = 1 := by
  subst hw
  revert x y
  decide

end Term

def exprTheory : ExprTheory where
  Model := Valuation
  Expr := Term
  width := Term.width
  eval := Term.eval
  eval_lt := Term.eval_lt
  constant? := Term.constant?
  eval_of_constant? h m := Term.eval_of_constant? h m
  const v w := .expr (.ofNat w v) trivial
  eq := Term.cmp .eq
  ult := Term.cmp .ult
  ule := Term.cmp .ule
  and := Term.binary .and (by decide)
  or := Term.binary .or (by decide)
  add := Term.add
  sub := Term.binary .sub (by decide)
  zext := Term.zext
  extract := Term.extract
  concat := Term.concat
  constant?_const v w := congrArg some (BitVec.toNat_ofNat v w)
  constant?_add_const h := Term.constant?_add _ h
  width_const _ _ := rfl
  width_eq := Term.width_cmp _
  width_ult := Term.width_cmp _
  width_ule := Term.width_cmp _
  width_and := Term.width_binary _ _
  width_or := Term.width_binary _ _
  width_add := Term.width_add
  width_sub := Term.width_binary _ _
  width_zext _ _ := Term.width_build fun _ => Term.zextNode_stands
  width_extract _ _ _ := Term.width_build fun _ => Term.extractNode_stands
  width_concat _ _ := Term.width_build fun _ => Term.concatNode_stands
  eval_eq := by
    intro m a b h
    rw [Term.eval_cmp]
    simp only [CmpKind.apply, beq_iff_eq, ← BitVec.toNat_inj, Term.toNat_bits, Term.toNat_second h]
  eval_ult := by
    intro m a b h
    rw [Term.eval_cmp]
    simp only [CmpKind.apply, BitVec.ult, decide_eq_true_eq, Term.toNat_bits, Term.toNat_second h]
  eval_ule := by
    intro m a b h
    rw [Term.eval_cmp]
    simp only [CmpKind.apply, BitVec.ule, decide_eq_true_eq, Term.toNat_bits, Term.toNat_second h]
  eval_and := by
    intro m a b ha hb
    rw [Term.eval_binary, Term.and_eq_one ha, Term.toNat_bits, Term.toNat_second (ha.trans hb.symm)]
  eval_or := by
    intro m a b ha hb
    rw [Term.eval_binary, Term.or_eq_one ha, Term.toNat_bits, Term.toNat_second (ha.trans hb.symm)]
  eval_add := by
    intro m a b h
    rw [Term.eval_add, Term.eval_binary, BinaryKind.apply, BitVec.toNat_add, Term.toNat_second h, Term.toNat_bits]
  eval_sub := by
    intro m a b h
    rw [Term.eval_binary, BinaryKind.apply, BitVec.toNat_sub, Term.toNat_second h, Term.toNat_bits]
  eval_zext m t w := (Term.eval_build (fun _ => Term.zextNode_stands) m).trans (BitVec.toNat_ofNat _ _)
  eval_extract m t o w := (Term.eval_build (fun _ => Term.extractNode_stands) m).trans (BitVec.toNat_ofNat _ _)
  eval_concat m a b := by
    refine (Term.eval_build (fun _ => Term.concatNode_stands) m).trans ?_
    have hlt := (b.bits m).isLt
    rw [BitVec.toNat_append, ← Nat.shiftLeft_add_eq_or_of_lt hlt, Nat.shiftLeft_eq, Term.toNat_bits, Term.toNat_bits]

instance (a : ExprArray) : Decidable a.WellFormed :=
  decidable_of_iff ((a.isSymbolicArray = false → a.constantValues.length = a.size) ∧ a.domain ≤ 64 ∧
    a.size ≤ 2 ^ a.domain) ⟨fun h => ⟨h.1, h.2.1, h.2.2⟩, fun h => ⟨h.1, h.2, h.3⟩⟩

mutual

def Expr.decWellTyped : (e : Expr) → Decidable e.WellTyped
  | .constant _ => .isTrue trivial
  | .notOptimized src => src.decWellTyped
  | .read root head index =>
    have := head.decWellTyped root
    have := index.decWellTyped
    inferInstanceAs (Decidable (root.WellFormed ∧ head.WellTyped root ∧ index.WellTyped ∧ index.width = root.domain))
  | .select c t f =>
    have := c.decWellTyped
    have := t.decWellTyped
    have := f.decWellTyped
    inferInstanceAs (Decidable (c.WellTyped ∧ t.WellTyped ∧ f.WellTyped ∧ c.width = 1 ∧ t.width = f.width))
  | .concat l r =>
    have := l.decWellTyped
    have := r.decWellTyped
    inferInstanceAs (Decidable (l.WellTyped ∧ r.WellTyped))
  | .extract e off w =>
    have := e.decWellTyped
    inferInstanceAs (Decidable (e.WellTyped ∧ 0 < w ∧ off + w ≤ e.width))
  | .cast _ src w =>
    have := src.decWellTyped
    inferInstanceAs (Decidable (src.WellTyped ∧ src.width ≤ w))
  | .not e => e.decWellTyped
  | .binary _ l r =>
    have := l.decWellTyped
    have := r.decWellTyped
    inferInstanceAs (Decidable (l.WellTyped ∧ r.WellTyped ∧ l.width = r.width))
  | .cmp _ l r =>
    have := l.decWellTyped
    have := r.decWellTyped
    inferInstanceAs (Decidable (l.WellTyped ∧ r.WellTyped ∧ l.width = r.width))

def UpdateNode.decWellTyped (root : ExprArray) : (u : UpdateNode) → Decidable (u.WellTyped root)
  | .nil => .isTrue trivial
  | .cons i v next =>
    have := i.decWellTyped
    have := v.decWellTyped
    have := next.decWellTyped root
    inferInstanceAs (Decidable (i.WellTyped ∧ v.WellTyped ∧ next.WellTyped root ∧ i.width = root.domain ∧
      v.width = root.range))

end

instance (e : Expr) : Decidable e.WellTyped := e.decWellTyped

namespace Term

def ofExpr (e : Expr) : Term :=
  if h : e.WellTyped then .expr e h else .other e.width fun m => BitVec.ofNat e.width (e.eval m).toNat

theorem ofExpr_of_wellTyped {e : Expr} (h : e.WellTyped) : ofExpr e = .expr e h := dif_pos h

def selectNode : Term → Term → Term → Option Node
  | .expr c hc, .expr t ht, .expr f hf =>
    if h : c.width = 1 ∧ t.width = f.width then some ⟨.select c t f, ⟨hc, ht, hf, h.1, h.2⟩, rfl⟩ else none
  | _, _, _ => none

def selectBits (c t f : Term) (m : Valuation) : BitVec t.width :=
  if c.eval m = 1 then t.bits m else BitVec.ofNat t.width (f.eval m)

def select (c t f : Term) : Option Term :=
  -- assert: type mismatch
  if c.width = 1 ∧ t.width = f.width then some (build t.width (selectBits c t f) (selectNode c t f)) else none

theorem selectNode_stands {c t f : Term} {x : Node} (h : selectNode c t f = some x) :
    Stands t.width (selectBits c t f) x := by
  unfold selectNode at h
  split at h
  · rename_i c hc t ht f hf
    split at h
    · rename_i hw
      obtain rfl := Option.some.inj h
      refine ⟨rfl, fun m => ?_⟩
      obtain ⟨hp, hq⟩ := operands ht hf hw.2 m
      simp only [Expr.eval, selectBits, hp, hq]
      change (if (c.eval m).toNat = 1 then _ else _ : APInt).toNat = BitVec.toNat (if (c.eval m).toNat = 1 then _ else _)
      split <;> rfl
    · cases h
  · cases h

theorem select_spec {c t f s : Term} (h : select c t f = some s) :
    s.width = t.width ∧ ∀ m, s.eval m = if c.eval m = 1 then t.eval m else f.eval m := by
  unfold select at h
  split at h
  · rename_i hw
    obtain rfl := Option.some.inj h
    refine ⟨width_build fun _ => selectNode_stands, fun m => ?_⟩
    rw [eval_build (fun _ => selectNode_stands) m, selectBits]
    split
    · exact toNat_bits m t
    · exact toNat_second hw.2
  · cases h

end Term

inductive TermArray
  | array (a : ExprArray) (h : a.WellFormed ∧ a.domain = 32 ∧ a.range = 8)
  | other (size : Nat) (f : Valuation → Nat → BitVec 8)

namespace TermArray

def size : TermArray → Nat
  | .array a _ => a.size
  | .other n _ => n

def byte (m : Valuation) : TermArray → Nat → Nat
  | .array a _, i => (a.initial m i).toNat
  | .other _ f, i => (f m i).toNat

theorem byte_lt (m : Valuation) (a : TermArray) (i : Nat) : a.byte m i < 256 := by
  cases a with
  | array a h =>
    have hlt := (a.initial m i).isLt
    have hr : 2 ^ a.range = 256 := by rw [h.2.2]; rfl
    exact hlt.trans_eq hr
  | other n f => exact (f m i).isLt

/-- A constant array.  Nothing depends on its address. -/
def constArray (l : List Nat) : TermArray :=
  if h : l ≠ [] ∧ l.length ≤ 2 ^ 32 then
    .array ⟨0, l.length, 32, 8, l.map (BitVec.ofNat 8)⟩ ⟨⟨fun _ => by simp, (by decide : 32 ≤ 64), h.2⟩, rfl, rfl⟩
  else .other l.length fun _ i => BitVec.ofNat 8 (l.getD i 0)

theorem size_constArray (l : List Nat) : (constArray l).size = l.length := by
  unfold constArray
  split <;> rfl

theorem byte_constArray (m : Valuation) (l : List Nat) (i : Nat) : (constArray l).byte m i = l.getD i 0 % 256 := by
  unfold constArray
  split
  · rename_i h
    have hsym : ExprArray.isSymbolicArray ⟨0, l.length, 32, 8, l.map (BitVec.ofNat 8)⟩ = false := by
      simpa [ExprArray.isSymbolicArray] using h.1
    simp only [byte, ExprArray.initial, hsym, Bool.false_eq_true, if_false, List.getD_eq_getElem?_getD,
      List.getElem?_map]
    cases l[i]? <;> simp
  · exact BitVec.toNat_ofNat _ _

def updateNode (root : ExprArray) : List (Term × Term) → Option {u : UpdateNode // u.WellTyped root}
  | [] => some ⟨.nil, trivial⟩
  | (.expr i hi, .expr v hv) :: us =>
    if h : i.width = root.domain ∧ v.width = root.range then
      (updateNode root us).map fun u => ⟨.cons i v u.1, hi, hv, u.2, h.1, h.2⟩
    else none
  | _ :: _ => none

def readNode : TermArray → List (Term × Term) → Term → Option Term.Node
  | .array a h, us, .expr index hi =>
    if hw : index.width = a.domain then
      (updateNode a us).map fun u => ⟨.read a u.1 index, ⟨h.1, u.2, hi, hw⟩, rfl⟩
    else none
  | _, _, _ => none

def read (a : TermArray) (us : List (Term × Term)) (index : Term) : Term :=
  Term.build 8 (fun m => BitVec.ofNat 8 (exprTheory.lookup m us (a.byte m) (index.eval m))) (readNode a us index)

theorem lookup_updateNode {root : ExprArray} {m : Valuation} (f : Nat → Nat) (i : Nat) (initial : APInt)
    (hf : initial.toNat = f i) {us : List (Term × Term)} {u : {u : UpdateNode // u.WellTyped root}}
    (h : updateNode root us = some u) : (u.1.lookup m initial i).toNat = exprTheory.lookup m us f i := by
  induction us generalizing u with
  | nil =>
    obtain rfl := Option.some.inj h
    exact hf
  | cons x us ih =>
    obtain ⟨index, value⟩ := x
    cases index with
    | other => cases value <;> cases h
    | expr index hi =>
      cases value with
      | other => cases h
      | expr value hv =>
        unfold updateNode at h
        split at h
        · obtain ⟨v, hv, rfl⟩ := Option.map_eq_some_iff.mp h
          change (if (index.eval m).toNat = i then value.eval m else v.1.lookup m initial i).toNat =
            if (index.eval m).toNat = i then (value.eval m).toNat else exprTheory.lookup m us f i
          rw [← ih hv]
          split <;> rfl
        · cases h

theorem readNode_stands {a : TermArray} {us : List (Term × Term)} {index : Term} {x : Term.Node}
    (h : readNode a us index = some x) :
    Term.Stands 8 (fun m => BitVec.ofNat 8 (exprTheory.lookup m us (a.byte m) (index.eval m))) x := by
  unfold readNode at h
  split at h
  · rename_i a ha index hi
    split at h
    · obtain ⟨u, hu, rfl⟩ := Option.map_eq_some_iff.mp h
      refine ⟨ha.2.2, fun m => ?_⟩
      have hlookup := lookup_updateNode (m := m) ((TermArray.array a ha).byte m) (index.eval m).toNat
        ⟨a.range, a.initial m (index.eval m).toNat⟩ rfl hu
      have hlt : exprTheory.lookup m us ((TermArray.array a ha).byte m) (index.eval m).toNat < 2 ^ 8 := by
        have hw : (u.1.lookup m ⟨a.range, a.initial m (index.eval m).toNat⟩ (index.eval m).toNat).width = a.range :=
          u.1.width_lookup m a u.2 rfl _
        have hlt := APInt.toNat_lt (u.1.lookup m ⟨a.range, a.initial m (index.eval m).toNat⟩ (index.eval m).toNat)
        rw [hw, hlookup] at hlt
        exact hlt.trans_eq (congrArg (2 ^ ·) ha.2.2)
      rw [BitVec.toNat_ofNat]
      exact hlookup.trans (Nat.mod_eq_of_lt hlt).symm
    · cases h
  · cases h

theorem lookup_lt {m : Valuation} {us : List (Term × Term)} {f : Nat → Nat} (hf : ∀ i, f i < 256)
    (hus : ∀ u ∈ us, u.2.width = 8) (i : Nat) : exprTheory.lookup m us f i < 256 := by
  induction us with
  | nil => exact hf i
  | cons u us ih =>
    change (if u.1.eval m = i then u.2.eval m else exprTheory.lookup m us f i) < 256
    split
    · have hlt := u.2.eval_lt m
      rw [hus u (by simp)] at hlt
      exact hlt
    · exact ih fun u hu => hus u (by simp [hu])

end TermArray

def exprArrays : ArrayTheory exprTheory where
  Array := TermArray
  size := TermArray.size
  byte := TermArray.byte
  byte_lt := TermArray.byte_lt
  constArray := TermArray.constArray
  size_constArray := TermArray.size_constArray
  byte_constArray := TermArray.byte_constArray
  read := TermArray.read
  width_read _ _ _ := Term.width_build fun _ => TermArray.readNode_stands
  eval_read := by
    intro m a us index hus _
    refine (Term.eval_build (fun _ => TermArray.readNode_stands) m).trans ?_
    rw [BitVec.toNat_ofNat]
    exact Nat.mod_eq_of_lt (TermArray.lookup_lt (a.byte_lt m) hus _)

end CgsKlee
