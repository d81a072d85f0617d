import CgsKlee.Expr.Assignment
import CgsKlee.Expr.EvaluatorMemo
import CgsKlee.Expr.Folding

/-!
# Evaluation under an assignment

`Assignment::evaluate` and `Assignment::satisfies` as they run, with the memo table that the constraints of a range
share, and with free values or without.  Where the arrays are bound and everything is defined, each visited expression
evaluates to its value if and only if none is a `NotOptimizedExpr` of a constant: `visitExpr` rebuilds such a node
before `visitExprPost` could remove it.
-/

namespace CgsKlee

/-- With an expression of the list, all that its evaluation visits is in the list. -/
def VisitClosed (m : Valuation) (P : Expr → Prop) (l : List Expr) : Prop := ∀ s ∈ l, P s ∧ s.visits m ⊆ l

namespace VisitClosed

variable {m : Valuation} {P : Expr → Prop} {l l' : List Expr} {e : Expr}

theorem append (h : VisitClosed m P l) (h' : VisitClosed m P l') : VisitClosed m P (l ++ l') := by
  intro s hs
  rcases List.mem_append.mp hs with hs | hs
  · exact ⟨(h s hs).1, fun x hx => List.mem_append_left _ ((h s hs).2 hx)⟩
  · exact ⟨(h' s hs).1, fun x hx => List.mem_append_right _ ((h' s hs).2 hx)⟩

theorem visits (he : P e) (h : VisitClosed m P l) (heq : e.visits m = e :: l) : VisitClosed m P (e.visits m) := by
  intro s hs
  rw [heq] at hs
  rcases List.mem_cons.mp hs with rfl | hs
  · exact ⟨he, List.Subset.refl _⟩
  · exact ⟨(h s hs).1, fun x hx => heq ▸ .tail _ ((h s hs).2 hx)⟩

end VisitClosed

section Closed

variable {P : ExprArray → Prop} {m : Valuation}

mutual

theorem Expr.visitClosed : ∀ e : Expr, e.WellTyped → e.ForallArrays P → e.Defined m →
    VisitClosed m (fun s => s.WellTyped ∧ s.ForallArrays P ∧ s.Defined m) (e.visits m)
  | .constant _, h, ha, hd => .visits ⟨h, ha, hd⟩ (List.forall_mem_nil _) rfl
  | .notOptimized src, h, ha, hd => .visits ⟨h, ha, hd⟩ (Expr.visitClosed src h ha hd) rfl
  | .read _ head index, h, ha, hd => .visits ⟨h, ha, hd⟩
    ((Expr.visitClosed index h.2.2.1 ha.2.2 hd.2.1).append (UpdateNode.visitClosed head h.2.1 ha.2.1 hd.1)) rfl
  | .select c t f, h, ha, hd => .visits ⟨h, ha, hd⟩
    (((Expr.visitClosed c h.1 ha.1 hd.1).append (Expr.visitClosed t h.2.1 ha.2.1 hd.2.1)).append
      (Expr.visitClosed f h.2.2.1 ha.2.2 hd.2.2)) rfl
  | .concat l r, h, ha, hd => .visits ⟨h, ha, hd⟩
    ((Expr.visitClosed l h.1 ha.1 hd.1).append (Expr.visitClosed r h.2 ha.2 hd.2)) rfl
  | .extract e _ _, h, ha, hd => .visits ⟨h, ha, hd⟩ (Expr.visitClosed e h.1 ha hd) rfl
  | .cast _ src _, h, ha, hd => .visits ⟨h, ha, hd⟩ (Expr.visitClosed src h.1 ha hd) rfl
  | .not e, h, ha, hd => .visits ⟨h, ha, hd⟩ (Expr.visitClosed e h ha hd) rfl
  | .binary _ l r, h, ha, hd => .visits ⟨h, ha, hd⟩
    ((Expr.visitClosed l h.1 ha.1 hd.1).append (Expr.visitClosed r h.2.1 ha.2 hd.2.1)) rfl
  | .cmp _ l r, h, ha, hd => .visits ⟨h, ha, hd⟩
    ((Expr.visitClosed l h.1 ha.1 hd.1).append (Expr.visitClosed r h.2.1 ha.2 hd.2)) rfl

theorem UpdateNode.visitClosed {root : ExprArray} {i : Nat} : ∀ u : UpdateNode, u.WellTyped root → u.ForallArrays P →
    u.Defined m → VisitClosed m (fun s => s.WellTyped ∧ s.ForallArrays P ∧ s.Defined m) (u.visits m i)
  | .nil, _, _, _ => List.forall_mem_nil _
  | .cons index value next, h, ha, hd => by
    unfold UpdateNode.visits
    refine (Expr.visitClosed index h.1 ha.1 hd.1).append ?_
    split
    · exact Expr.visitClosed value h.2.1 ha.2.1 hd.2.1
    · exact UpdateNode.visitClosed next h.2.2.1 ha.2.2 hd.2.2

end

end Closed

namespace Assignment

section Options

variable (useVisitorHash constArrayOpt allowFreeValues : Bool)

def evaluateArray (a : Assignment) (array : ExprArray) (index : Nat) : Option Expr :=
  match ((a.find array).getD [])[index]? with
  | some byte => some (.ofNat array.range byte)
  | none =>
    if allowFreeValues then ReadExpr.create constArrayOpt array .nil (.ofNat array.domain index)
    else some (.ofNat array.range 0)

def evaluator (a : Assignment) : Expr → ExprEvaluator.EvaluatorM Expr :=
  ExprEvaluator.visitMemo useVisitorHash constArrayOpt (evaluateArray constArrayOpt allowFreeValues a)

def evaluateNew (a : Assignment) (e : Expr) : Option Expr :=
  ((evaluator useVisitorHash constArrayOpt allowFreeValues a e).run []).map (·.1)

/-- `Expr::isTrue`, which asserts that the expression is a Boolean. -/
def isTrueChecked (e : Expr) : Option Bool := if e.width = 1 then some (isTrueExpr e) else none

def satisfiesLoop (a : Assignment) : List Expr → ExprEvaluator.EvaluatorM Bool
  | [] => pure true
  | e :: es => do
    let v ← evaluator useVisitorHash constArrayOpt allowFreeValues a e
    if ← Memo.lift (isTrueChecked v) then satisfiesLoop a es else pure false

def satisfiesNew (a : Assignment) (es : List Expr) : Option Bool :=
  ((satisfiesLoop useVisitorHash constArrayOpt allowFreeValues a es).run []).map (·.1)

end Options

/-- The arrays of an expression have sizes of type `unsigned`, and the symbolic ones are bound to as many bytes. -/
def Binds (a : Assignment) (e : Expr) : Prop := e.ForallArrays fun array =>
  array.size < 2 ^ 32 ∧ (array.isSymbolicArray = true → ∃ bytes, a.find array = some bytes ∧ bytes.length = array.size)

section Correct

variable {useVisitorHash opt free : Bool} {a : Assignment} {e : Expr} {es : List Expr}

theorem run_eq_of_computes {α : Type} {f : Expr → Option Expr} {x : ExprEvaluator.EvaluatorM α} {o : Option α}
    (h : Memo.Computes f x o) : (x.run []).map (·.1) = o := by
  have hrun := h [] nofun
  cases o with
  | some v =>
    obtain ⟨table, hrun, -⟩ := hrun
    change (x []).map _ = _
    rw [hrun]
    rfl
  | none =>
    change (x []).map _ = _
    rw [hrun]
    rfl

theorem evaluateNew_eq : evaluateNew useVisitorHash opt free a e =
    ExprEvaluator.visit opt (evaluateArray opt free a) e :=
  run_eq_of_computes (ExprEvaluator.visitMemo_same e)

theorem found_of_bound {array : ExprArray} (hsize : array.size < 2 ^ 32)
    (hbound : array.isSymbolicArray = true → ∃ bytes, a.find array = some bytes ∧ bytes.length = array.size) :
    ExprEvaluator.Found (evaluateArray opt free a) a.valuation array := by
  refine fun _ => ⟨hsize.le, fun hsym i hi => ?_⟩
  obtain ⟨bytes, hfind, hlen⟩ := hbound hsym
  obtain ⟨byte, hbyte⟩ : ∃ byte, bytes[i]? = some byte := ⟨_, List.getElem?_eq_getElem (hlen ▸ hi)⟩
  unfold evaluateArray valuation
  simp only [hfind, Option.getD_some, hbyte, List.getD_eq_getElem?_getD]
  rfl

theorem visit_eq_value (he : e.WellTyped) (hb : a.Binds e) (hd : e.Defined a.valuation)
    (hv : ∀ s ∈ e.visits a.valuation, ¬s.IsStuck) :
    ExprEvaluator.visit opt (evaluateArray opt free a) e = some (.constant (e.eval a.valuation)) :=
  ExprEvaluator.visit_value he (Expr.ForallArrays.mono (fun _ h => found_of_bound h.1 h.2) e hb) hd hv

theorem isTrueExpr_iff {c : APInt} : isTrueExpr (.constant c) = true ↔ c = .ofBool true := by
  refine ⟨eq_ofBool_of_isTrue, ?_⟩
  rintro rfl
  decide

theorem satisfiesLoop_computes (h : ∀ e ∈ es, e.WellTyped ∧ a.Binds e ∧ e.Defined a.valuation) (hw : ∀ e ∈ es, e.width = 1)
    (hv : ∀ e ∈ es, ∀ s ∈ e.visits a.valuation, ¬s.IsStuck) :
    Memo.Computes (ExprEvaluator.visit opt (evaluateArray opt free a)) (satisfiesLoop useVisitorHash opt free a es)
      (some (decide (∀ e ∈ es, e.eval a.valuation = .ofBool true))) := by
  induction es with
  | nil => exact .pure
  | cons e es ih =>
    obtain ⟨he, hb, hd⟩ := h e (.head _)
    have hvisit : ExprEvaluator.visit opt (evaluateArray opt free a) e = some (.constant (e.eval a.valuation)) :=
      visit_eq_value he hb hd (hv e (.head _))
    have hchecked : isTrueChecked (.constant (e.eval a.valuation)) =
        some (isTrueExpr (.constant (e.eval a.valuation))) :=
      if_pos ((e.width_eval a.valuation he).trans (hw e (.head _)))
    have hrest := ih (fun e he => h e (.tail _ he)) (fun e he => hw e (.tail _ he)) fun e he => hv e (.tail _ he)
    have hloop : (some (decide (∀ x ∈ e :: es, x.eval a.valuation = .ofBool true)) : Option Bool) =
        ExprEvaluator.visit opt (evaluateArray opt free a) e >>= fun v => isTrueChecked v >>= fun t =>
          if t then some (decide (∀ x ∈ es, x.eval a.valuation = .ofBool true)) else some false := by
      simp only [hvisit, hchecked, Option.bind_eq_bind, Option.bind_some, List.forall_mem_cons]
      by_cases htrue : e.eval a.valuation = .ofBool true
      · rw [if_pos (isTrueExpr_iff.mpr htrue)]
        simp only [htrue, true_and]
      · rw [if_neg (mt isTrueExpr_iff.mp htrue)]
        simp only [htrue, false_and, decide_false]
    rw [hloop]
    refine .bind (ExprEvaluator.visitMemo_same e) fun v _ => .bind .lift fun t _ => ?_
    split
    · exact hrest
    · exact .pure

theorem visit_stuck {c : APInt} {getInitialValue : ExprArray → Nat → Option Expr} :
    ExprEvaluator.visit opt getInitialValue (.notOptimized (.constant c)) = some (.notOptimized (.constant c)) := by
  unfold ExprEvaluator.visit ExprEvaluator.visitExpr
  rfl

/-- For every range of constraints and every assignment that binds their arrays, where they are defined: everything that
is visited evaluates to its value, and `satisfies` says whether all are true, if and only if no visited expression is a
`NotOptimizedExpr` of a constant. -/
theorem evaluate_satisfies_iff (useVisitorHash opt free : Bool) (a : Assignment) (es : List Expr)
    (h : ∀ e ∈ es, e.WellTyped ∧ a.Binds e ∧ e.Defined a.valuation) :
    ((∀ e ∈ es, ∀ s ∈ e.visits a.valuation,
        evaluateNew useVisitorHash opt free a s = some (.constant (s.eval a.valuation))) ∧
      ((∀ e ∈ es, e.width = 1) → satisfiesNew useVisitorHash opt free a es =
        some (decide (∀ e ∈ es, e.eval a.valuation = .ofBool true)))) ↔
      ∀ e ∈ es, ∀ s ∈ e.visits a.valuation, ¬s.IsStuck := by
  constructor
  · rintro ⟨hvalue, -⟩ e he s hs ⟨c, rfl⟩
    have heval := hvalue e he _ hs
    rw [evaluateNew_eq, visit_stuck] at heval
    cases heval
  · intro hv
    constructor
    · intro e he s hs
      obtain ⟨hwt, hb, hd⟩ := h e he
      obtain ⟨⟨hwt, hb, hd⟩, hsub⟩ := Expr.visitClosed e hwt hb hd s hs
      rw [evaluateNew_eq]
      exact visit_eq_value hwt hb hd fun s' hs' => hv e he s' (hsub hs')
    · intro hw
      exact run_eq_of_computes (satisfiesLoop_computes h hw hv)

def twoBytes : ExprArray := ⟨1, 2, 32, 8, []⟩

/-- The second byte, kept from being optimized, is 5. -/
def secondIsFive : Expr := .cmp .eq (.notOptimized (.read twoBytes .nil (.ofNat 32 1))) (.ofNat 8 5)

theorem evaluate_satisfies_secondIsFive :
    ((∀ e ∈ [secondIsFive], ∀ s ∈ e.visits (valuation ⟨[(twoBytes, [3, 5])]⟩),
        evaluateNew true true true ⟨[(twoBytes, [3, 5])]⟩ s =
          some (.constant (s.eval (valuation ⟨[(twoBytes, [3, 5])]⟩)))) ∧
      ((∀ e ∈ [secondIsFive], e.width = 1) → satisfiesNew true true true ⟨[(twoBytes, [3, 5])]⟩ [secondIsFive] =
        some (decide (∀ e ∈ [secondIsFive], e.eval (valuation ⟨[(twoBytes, [3, 5])]⟩) = .ofBool true)))) := by
  have hbinds : Binds ⟨[(twoBytes, [3, 5])]⟩ secondIsFive :=
    ⟨⟨⟨by decide, fun _ => ⟨[3, 5], by decide, rfl⟩⟩, trivial, trivial⟩, trivial⟩
  have htyped : secondIsFive.WellTyped :=
    ⟨⟨⟨nofun, by decide, by decide⟩, trivial, trivial, rfl⟩, trivial, rfl⟩
  refine (evaluate_satisfies_iff true true true ⟨[(twoBytes, [3, 5])]⟩ [secondIsFive] ?_).mpr ?_
  · intro e he
    obtain rfl := List.mem_singleton.mp he
    exact ⟨htyped, hbinds, ⟨trivial, trivial, by decide⟩, trivial⟩
  · intro e he s hs
    obtain rfl := List.mem_singleton.mp he
    simp only [secondIsFive, Expr.ofNat, Expr.visits, UpdateNode.visits, List.mem_cons, List.mem_append,
      List.not_mem_nil, or_false] at hs
    rintro ⟨c, rfl⟩
    simp at hs

/-- A constraint that is true is not satisfied. -/
theorem satisfies_fails_stuck :
    (Expr.notOptimized (.ofBool true)).WellTyped ∧ Binds ⟨[]⟩ (.notOptimized (.ofBool true)) ∧
      (Expr.notOptimized (.ofBool true)).Defined (valuation ⟨[]⟩) ∧
      (Expr.notOptimized (.ofBool true)).eval (valuation ⟨[]⟩) = .ofBool true ∧
      evaluateNew true true false ⟨[]⟩ (.notOptimized (.ofBool true)) = some (.notOptimized (.ofBool true)) ∧
      satisfiesNew true true false ⟨[]⟩ [.notOptimized (.ofBool true)] = some false :=
  ⟨trivial, trivial, trivial, rfl, by decide, by decide⟩

end Correct

end Assignment

end CgsKlee
