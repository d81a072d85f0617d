import CgsKlee.Expr.Evaluator

/-!
# Assignments

An `Assignment` binds arrays to bytes.  It stands for the contents of all arrays in which everything that is not bound
is zero (`valuation`), and evaluation under it is evaluation there.  The values of the arrays that
`findSymbolicObjects` finds in some expressions decide the values of these expressions.
-/

namespace CgsKlee

open ConstantExpr

def Valuation.Bounded (m : Valuation) : Prop := ∀ (a : ExprArray) (i : Nat), a.size ≤ i → m a i = 0

mutual

/-- `SymbolicObjectFinder::visit`, which adds to the objects found so far. -/
def Expr.symbolicObjects (objects : List ExprArray) : Expr → List ExprArray
  | .constant _ => objects
  | .notOptimized src => src.symbolicObjects objects
  | .read root head index =>
    let objects := head.symbolicObjects objects
    let objects := if root.isSymbolicArray ∧ root ∉ objects then objects ++ [root] else objects
    index.symbolicObjects objects
  | .select cond trueExpr falseExpr =>
    falseExpr.symbolicObjects (trueExpr.symbolicObjects (cond.symbolicObjects objects))
  | .concat left right => right.symbolicObjects (left.symbolicObjects objects)
  | .extract expr _ _ => expr.symbolicObjects objects
  | .cast _ src _ => src.symbolicObjects objects
  | .not expr => expr.symbolicObjects objects
  | .binary _ left right => right.symbolicObjects (left.symbolicObjects objects)
  | .cmp _ left right => right.symbolicObjects (left.symbolicObjects objects)

def UpdateNode.symbolicObjects (objects : List ExprArray) : UpdateNode → List ExprArray
  | .nil => objects
  | .cons index value next => next.symbolicObjects (value.symbolicObjects (index.symbolicObjects objects))

end

def findSymbolicObjects (es : List Expr) : List ExprArray := es.foldl Expr.symbolicObjects []

mutual

theorem Expr.subset_symbolicObjects : ∀ (e : Expr) (objects : List ExprArray), objects ⊆ e.symbolicObjects objects
  | .constant _, _ => List.Subset.refl _
  | .notOptimized src, _ => src.subset_symbolicObjects _
  | .read root head index, objects => by
    refine List.Subset.trans (head.subset_symbolicObjects objects)
      (List.Subset.trans ?_ (index.subset_symbolicObjects _))
    split
    · exact List.subset_append_left _ _
    · exact List.Subset.refl _
  | .select c t f, _ =>
    List.Subset.trans (c.subset_symbolicObjects _)
      (List.Subset.trans (t.subset_symbolicObjects _) (f.subset_symbolicObjects _))
  | .concat l r, _ => List.Subset.trans (l.subset_symbolicObjects _) (r.subset_symbolicObjects _)
  | .extract e _ _, _ => e.subset_symbolicObjects _
  | .cast _ e _, _ => e.subset_symbolicObjects _
  | .not e, _ => e.subset_symbolicObjects _
  | .binary _ l r, _ => List.Subset.trans (l.subset_symbolicObjects _) (r.subset_symbolicObjects _)
  | .cmp _ l r, _ => List.Subset.trans (l.subset_symbolicObjects _) (r.subset_symbolicObjects _)

theorem UpdateNode.subset_symbolicObjects : ∀ (u : UpdateNode) (objects : List ExprArray),
    objects ⊆ u.symbolicObjects objects
  | .nil, _ => List.Subset.refl _
  | .cons i v n, _ =>
    List.Subset.trans (i.subset_symbolicObjects _)
      (List.Subset.trans (v.subset_symbolicObjects _) (n.subset_symbolicObjects _))

end

mutual

theorem Expr.forall_symbolicObjects : ∀ (e : Expr) {objects objects' : List ExprArray},
    e.symbolicObjects objects ⊆ objects' → e.ForallArrays (fun a => a.isSymbolicArray = true → a ∈ objects')
  | .constant _, _, _, _ => trivial
  | .notOptimized src, _, _, h => src.forall_symbolicObjects h
  | .read root head index, objects, objects', h => by
    have hroot := List.Subset.trans (index.subset_symbolicObjects _) h
    have hhead : head.symbolicObjects objects ⊆ objects' := by
      refine List.Subset.trans ?_ hroot
      split
      · exact List.subset_append_left _ _
      · exact List.Subset.refl _
    refine ⟨fun hsym => hroot ?_, head.forall_symbolicObjects hhead, index.forall_symbolicObjects h⟩
    by_cases hmem : root ∈ head.symbolicObjects objects
    · rw [if_neg (by simp [hmem])]
      exact hmem
    · rw [if_pos ⟨hsym, hmem⟩]
      exact List.mem_append_right _ (List.mem_singleton_self _)
  | .select c t f, _, _, h =>
    have ht := List.Subset.trans (f.subset_symbolicObjects _) h
    ⟨c.forall_symbolicObjects (List.Subset.trans (t.subset_symbolicObjects _) ht), t.forall_symbolicObjects ht,
      f.forall_symbolicObjects h⟩
  | .concat l r, _, _, h =>
    ⟨l.forall_symbolicObjects (List.Subset.trans (r.subset_symbolicObjects _) h), r.forall_symbolicObjects h⟩
  | .extract e _ _, _, _, h => e.forall_symbolicObjects h
  | .cast _ e _, _, _, h => e.forall_symbolicObjects h
  | .not e, _, _, h => e.forall_symbolicObjects h
  | .binary _ l r, _, _, h =>
    ⟨l.forall_symbolicObjects (List.Subset.trans (r.subset_symbolicObjects _) h), r.forall_symbolicObjects h⟩
  | .cmp _ l r, _, _, h =>
    ⟨l.forall_symbolicObjects (List.Subset.trans (r.subset_symbolicObjects _) h), r.forall_symbolicObjects h⟩

theorem UpdateNode.forall_symbolicObjects : ∀ (u : UpdateNode) {objects objects' : List ExprArray},
    u.symbolicObjects objects ⊆ objects' → u.ForallArrays (fun a => a.isSymbolicArray = true → a ∈ objects')
  | .nil, _, _, _ => trivial
  | .cons i v n, _, _, h =>
    have hv := List.Subset.trans (n.subset_symbolicObjects _) h
    ⟨i.forall_symbolicObjects (List.Subset.trans (v.subset_symbolicObjects _) hv), v.forall_symbolicObjects hv,
      n.forall_symbolicObjects h⟩

end

theorem foldl_subset_symbolicObjects (es : List Expr) (objects : List ExprArray) :
    objects ⊆ es.foldl Expr.symbolicObjects objects := by
  induction es generalizing objects with
  | nil => exact List.Subset.refl _
  | cons e es ih => exact List.Subset.trans (e.subset_symbolicObjects objects) (ih _)

theorem forall_findSymbolicObjects {es : List Expr} {e : Expr} (he : e ∈ es) :
    e.ForallArrays (fun a => a.isSymbolicArray = true → a ∈ findSymbolicObjects es) := by
  suffices h : ∀ objects, e.ForallArrays
      (fun a => a.isSymbolicArray = true → a ∈ es.foldl Expr.symbolicObjects objects) from h []
  induction es with
  | nil => cases he
  | cons x es ih =>
    intro objects
    rcases List.mem_cons.mp he with rfl | he
    · exact e.forall_symbolicObjects (foldl_subset_symbolicObjects es _)
    · exact ih he _

theorem eval_eq_of_agree {m m' : Valuation} {es : List Expr} (h : ∀ a ∈ findSymbolicObjects es, m a = m' a) {e : Expr}
    (he : e ∈ es) : e.eval m = e.eval m' := by
  apply e.eval_congr
  refine Expr.ForallArrays.mono ?_ e (forall_findSymbolicObjects he)
  intro a ha hsym
  exact h a (ha hsym)

/-- `Assignment`, with `allowFreeValues` off: the bindings, ordered by the addresses of the arrays. -/
structure Assignment where
  bindings : List (ExprArray × List Nat)
deriving DecidableEq

namespace Assignment

def insertBinding (os : ExprArray) (arr : List Nat) : List (ExprArray × List Nat) → List (ExprArray × List Nat)
  | [] => [(os, arr)]
  | b :: bindings =>
    if b.1 = os then b :: bindings
    else if b.1.id ≤ os.id then b :: insertBinding os arr bindings
    else (os, arr) :: b :: bindings

def ofValues (objects : List ExprArray) (values : List (List Nat)) : Assignment :=
  ⟨(objects.zip values).foldl (fun bindings b => insertBinding b.1 b.2 bindings) []⟩

def find (a : Assignment) (array : ExprArray) : Option (List Nat) :=
  (a.bindings.find? fun b => decide (b.1 = array)).map (·.2)

def evaluateByte (a : Assignment) (array : ExprArray) (index : Nat) : Expr :=
  match a.find array with
  | some bytes => if h : index < bytes.length then .ofNat array.range bytes[index] else .ofNat array.range 0
  | none => .ofNat array.range 0

section Options

variable (constArrayOpt : Bool)

def evaluate (a : Assignment) (e : Expr) : Option Expr :=
  ExprEvaluator.visit constArrayOpt (fun array index => some (a.evaluateByte array index)) e

def isTrueExpr : Expr → Bool
  | .constant c => ConstantExpr.isTrue c
  | _ => false

def satisfies (a : Assignment) : List Expr → Option Bool
  | [] => some true
  | e :: es => do
    let v ← evaluate constArrayOpt a e
    if isTrueExpr v then satisfies a es else some false

end Options

def valuation (a : Assignment) : Valuation :=
  fun array i => BitVec.ofNat array.range (((a.find array).getD []).getD i 0)

def Sized (a : Assignment) : Prop := ∀ b ∈ a.bindings, b.2.length = b.1.size

variable {a : Assignment} {opt : Bool}

theorem mem_of_find {array : ExprArray} {bytes : List Nat} (h : a.find array = some bytes) :
    (array, bytes) ∈ a.bindings := by
  obtain ⟨b, hb, rfl⟩ := Option.map_eq_some_iff.mp h
  have hkey : b.1 = array := by simpa using List.find?_some hb
  rw [← hkey]
  exact List.mem_of_find?_eq_some hb

theorem Sized.bounded (h : a.Sized) : a.valuation.Bounded := by
  intro array i hi
  unfold valuation
  cases hf : a.find array with
  | none => simp
  | some bytes =>
    have hlen : bytes.length = array.size := h _ (mem_of_find hf)
    simp [List.getD_eq_getElem?_getD, List.getElem?_eq_none (hlen.le.trans hi)]

theorem evaluateByte_eq (array : ExprArray) (index : Nat) :
    a.evaluateByte array index = .constant ⟨array.range, a.valuation array index⟩ := by
  unfold evaluateByte valuation
  split
  · rename_i bytes hf
    simp only [hf, Option.getD_some]
    split
    · rename_i hlt
      simp [Expr.ofNat, APInt.ofNat, List.getD_eq_getElem?_getD, hlt]
    · rename_i hlt
      simp [Expr.ofNat, APInt.ofNat, List.getD_eq_getElem?_getD, List.getElem?_eq_none (Nat.le_of_not_lt hlt)]
  · rename_i hf
    simp [hf, Expr.ofNat, APInt.ofNat]

theorem Sized.initialRefines (h : a.Sized) : ExprEvaluator.InitialRefines opt (· = a.valuation)
    fun array index => some (a.evaluateByte array index) := by
  intro root index e' hroot _ hlt hsym he'
  obtain rfl := Option.some.inj he'
  rw [evaluateByte_eq]
  refine ⟨trivial, rfl, fun _ _ _ => trivial, ?_⟩
  rintro m rfl -
  have hindex : (APInt.ofNat root.domain index).toNat = index := Nat.mod_eq_of_lt hlt
  simp only [Expr.eval, Expr.eval_ofNat, UpdateNode.lookup, ExprArray.initial, hindex]
  split
  · rfl
  · -- beyond the end of a constant array
    rename_i hconst
    have hsize : root.size ≤ index := hsym.resolve_left hconst
    have hlen := hroot.constantValues (Bool.not_eq_true _ ▸ hconst)
    rw [h.bounded root index hsize, List.getD_eq_getElem?_getD, List.getElem?_eq_none (hlen.le.trans hsize)]
    rfl

theorem Sized.evaluate_refinesOn (h : a.Sized) {e e' : Expr} (he : e.WellTyped) (hs : e.ShortIndices)
    (he' : evaluate opt a e = some e') : e.RefinesOn opt (· = a.valuation) e' :=
  ExprEvaluator.visit_refinesOn h.initialRefines he hs he'

theorem Sized.evaluate_constant (h : a.Sized) {e : Expr} {c : APInt} (he : e.WellTyped) (hs : e.ShortIndices)
    (hd : opt = true → e.Defined a.valuation) (he' : evaluate opt a e = some (.constant c)) :
    e.eval a.valuation = c :=
  ((h.evaluate_refinesOn he hs he').eval _ rfl hd).symm

theorem eq_ofBool_of_isTrue {c : APInt} (h : ConstantExpr.isTrue c = true) : c = .ofBool true := by
  obtain ⟨w, x⟩ := c
  obtain ⟨hw, hx⟩ := of_decide_eq_true h
  obtain rfl : w = 1 := hw
  congr 1
  revert x
  decide

theorem Sized.eval_of_satisfies (h : a.Sized) {es : List Expr}
    (hes : ∀ e ∈ es, e.WellTyped ∧ e.ShortIndices ∧ (opt = true → e.Defined a.valuation))
    (hsat : satisfies opt a es = some true) : ∀ e ∈ es, e.eval a.valuation = .ofBool true := by
  induction es with
  | nil => exact nofun
  | cons x es ih =>
    unfold satisfies at hsat
    obtain ⟨v, hv, hsat⟩ := Option.bind_eq_some_iff.mp hsat
    split at hsat
    · rename_i htrue
      intro e he
      rcases List.mem_cons.mp he with rfl | he
      · obtain ⟨hwt, hs, hd⟩ := hes e (.head _)
        cases v with
        | constant c =>
          rw [h.evaluate_constant hwt hs hd hv]
          exact eq_ofBool_of_isTrue htrue
        | _ => cases htrue
      · exact ih (fun e he => hes e (.tail _ he)) hsat e he
    · cases hsat

def ValuesOf (m : Valuation) (objects : List ExprArray) (values : List (List Nat)) : Prop :=
  List.Forall₂ (fun o v => v.length = o.size ∧ ∀ i < o.size, m o i = BitVec.ofNat o.range (v.getD i 0)) objects values

theorem mem_insertBinding {os : ExprArray} {arr : List Nat} {bindings : List (ExprArray × List Nat)}
    {b : ExprArray × List Nat} (h : b ∈ insertBinding os arr bindings) : b = (os, arr) ∨ b ∈ bindings := by
  induction bindings with
  | nil => exact Or.inl (List.mem_singleton.mp h)
  | cons x bindings ih =>
    unfold insertBinding at h
    split at h
    · exact Or.inr h
    · split at h
      · rcases List.mem_cons.mp h with rfl | h
        · exact Or.inr (.head _)
        · exact (ih h).imp_right (.tail _)
      · exact List.mem_cons.mp h

theorem exists_mem_insertBinding (os : ExprArray) (arr : List Nat) (bindings : List (ExprArray × List Nat)) :
    ∃ v, (os, v) ∈ insertBinding os arr bindings := by
  induction bindings with
  | nil => exact ⟨arr, List.mem_singleton_self _⟩
  | cons x bindings ih =>
    unfold insertBinding
    split
    · rename_i hx
      exact ⟨x.2, hx ▸ .head _⟩
    · split
      · obtain ⟨v, hv⟩ := ih
        exact ⟨v, .tail _ hv⟩
      · exact ⟨arr, .head _⟩

theorem subset_insertBinding (os : ExprArray) (arr : List Nat) (bindings : List (ExprArray × List Nat)) :
    bindings ⊆ insertBinding os arr bindings := by
  induction bindings with
  | nil => exact List.nil_subset _
  | cons x bindings ih =>
    unfold insertBinding
    split
    · exact List.Subset.refl _
    · split
      · exact List.cons_subset_cons x ih
      · exact List.subset_cons_self _ _

theorem mem_ofValues {P : ExprArray × List Nat → Prop} {objects : List ExprArray} {values : List (List Nat)}
    (h : List.Forall₂ (fun o v => P (o, v)) objects values) :
    (∀ b ∈ (ofValues objects values).bindings, P b) ∧
      ∀ o ∈ objects, ∃ v, (o, v) ∈ (ofValues objects values).bindings := by
  unfold ofValues
  suffices hfold : ∀ bindings : List (ExprArray × List Nat), (∀ b ∈ bindings, P b) →
      (∀ b ∈ (objects.zip values).foldl (fun bindings b => insertBinding b.1 b.2 bindings) bindings, P b) ∧
      (∀ b ∈ bindings, b ∈ (objects.zip values).foldl (fun bindings b => insertBinding b.1 b.2 bindings) bindings) ∧
      ∀ o ∈ objects, ∃ v,
        (o, v) ∈ (objects.zip values).foldl (fun bindings b => insertBinding b.1 b.2 bindings) bindings from
    ⟨(hfold [] nofun).1, (hfold [] nofun).2.2⟩
  induction h with
  | nil => exact fun bindings hb => ⟨hb, fun _ hb => hb, nofun⟩
  | cons hov _ ih =>
    rename_i o v objects values _
    intro bindings hb
    simp only [List.zip_cons_cons, List.foldl_cons]
    obtain ⟨hP, hold, hnew⟩ := ih (insertBinding o v bindings) fun b hmem => by
      rcases mem_insertBinding hmem with rfl | hmem
      · exact hov
      · exact hb b hmem
    refine ⟨hP, fun b hmem => hold b (subset_insertBinding o v bindings hmem), fun o' ho' => ?_⟩
    rcases List.mem_cons.mp ho' with rfl | ho'
    · obtain ⟨v', hv'⟩ := exists_mem_insertBinding o' v bindings
      exact ⟨v', hold _ hv'⟩
    · exact hnew o' ho'

theorem find_of_mem {array : ExprArray} {bytes : List Nat} (h : (array, bytes) ∈ a.bindings) :
    ∃ bytes', a.find array = some bytes' := by
  unfold find
  cases hf : a.bindings.find? fun b => decide (b.1 = array) with
  | none => exact absurd (decide_eq_true rfl) (List.find?_eq_none.mp hf _ h)
  | some b => exact ⟨b.2, rfl⟩

theorem ofValues_spec {m : Valuation} (hm : m.Bounded) {objects : List ExprArray} {values : List (List Nat)}
    (h : ValuesOf m objects values) :
    (ofValues objects values).Sized ∧ ∀ o ∈ objects, (ofValues objects values).valuation o = m o := by
  obtain ⟨hP, hmem⟩ := mem_ofValues (P := fun b => b.2.length = b.1.size ∧
    ∀ i < b.1.size, m b.1 i = BitVec.ofNat b.1.range (b.2.getD i 0)) h
  refine ⟨fun b hb => (hP b hb).1, fun o ho => ?_⟩
  obtain ⟨v, hv⟩ := hmem o ho
  obtain ⟨bytes, hbytes⟩ := find_of_mem hv
  obtain ⟨hlen, hbyte⟩ := hP _ (mem_of_find hbytes)
  funext i
  unfold valuation
  rw [hbytes]
  by_cases hi : i < o.size
  · exact (hbyte i hi).symm
  · rw [hm o i (Nat.le_of_not_lt hi)]
    have hle : bytes.length ≤ i := by
      dsimp only at hlen
      omega
    simp [List.getD_eq_getElem?_getD, List.getElem?_eq_none hle]

end Assignment

end CgsKlee
