import CgsKlee.Solver.BuilderSorts

/-!
# Builders that respect the sorts

`Backend.RespectsSorts` says of an expression that in every state of a builder the calls of `construct` for all its parts
pass the assertions on uncanonicalized operations, apply the operations of the solver to terms of their sorts, and give a
truth value exactly for width 1.  That is so if and only if each part gives vectors where they are needed, or contains a
division at which the builder traps (`Backend.respectsSorts_iff`).
-/

namespace CgsKlee

open Smt OptionState

variable {trap : BinaryKind → APInt → Prop}

namespace Backend

/-- The states that a builder can be in between two calls of `construct`, those for the operands of an expression
included: these are well typed and canonical since the whole expression is. -/
inductive Visited (b : Backend) (name : ExprArray → String) : BuilderState → Prop
  | empty : Visited b name .empty
  | construct {s s' : BuilderState} {e : Expr} {res : Built} (hs : Visited b name s) (ht : e.WellTyped) (hc : e.Canonical)
      (hbits : e.HasBits) (h : b.construct name e s = some (res, s')) : Visited b name s'
  | getArrayForUpdate {s s' : BuilderState} {root : ExprArray} {un : UpdateNode} {array : ArrayTerm}
      (hs : Visited b name s) (ht : un.WellTyped root) (hc : un.Canonical) (hbits : un.ForallNodes Expr.HasBitsNode)
      (h : b.getArrayForUpdate name root un s = some (array, s')) : Visited b name s'
  | clearConstructCache {s : BuilderState} (hs : Visited b name s) : Visited b name { s with constructed := [] }

variable {b : Backend} {e : Expr} {name : ExprArray → String} {s : BuilderState}

theorem Visited.sortInv (hb : b.Sound) (hs : b.SortSound trap) (h : b.Visited name s) : s.SortInv trap := by
  induction h with
  | empty => exact .empty
  | construct _ ht hc hbits hrun ih => exact ((construct_sorts hb hs _ ht hc hbits _ ih).1 _ _ hrun).1
  | getArrayForUpdate _ ht hc hbits hrun ih =>
    exact ((getArrayForUpdate_sorts hb hs _ _ ht hc hbits _ ih).1 _ _ hrun).1
  | clearConstructCache _ ih => exact ⟨ih.arrays, ih.nodes, nofun⟩

/-- What is built before an operation asserts that its operands are no truth values; the width that it looks at is the
one that was reported last. -/
def assertedOperands (b : Backend) (name : ExprArray → String) : Expr → Option (BuilderM Built)
  | .binary .add l r | .binary .sub l r | .binary .srem l r => some (b.construct name l >>= fun _ => b.construct name r)
  | .binary .mul _ r => some (b.construct name r)
  | .binary .udiv l _ | .binary .sdiv l _ | .binary .urem l _ => some (b.construct name l)
  | .binary .shl l _ | .binary .lshr l _ | .binary .ashr l _ => some (b.construct name l)
  | .cmp .ult l r | .cmp .ule l r | .cmp .slt l r | .cmp .sle l r =>
    some (b.construct name l >>= fun _ => b.construct name r)
  | _ => none

/-- The call of `construct` for the expression does not fail because an operation is "uncanonicalized", it applies the
operations of the solver to terms of their sorts, and its term is a truth value if and only if the width is 1. -/
structure RespectsSortsAt (b : Backend) (name : ExprArray → String) (s : BuilderState) (e : Expr) : Prop where
  canonicalized : ∀ x, b.assertedOperands name e = some x → ∀ t s', x s ≠ some ((t, 1), s')
  sorted : ∀ t w s', b.construct name e s = some ((t, w), s') → t.Sorted ∧ (t.isBool = true ↔ e.width = 1)

/-- The same of the calls for all parts of the expression, whatever was built before. -/
def RespectsSorts (b : Backend) (name : ExprArray → String) (e : Expr) : Prop :=
  e.ForallNodes fun d => ∀ s, b.Visited name s → b.RespectsSortsAt name s d

theorem canonicalized_of_sorts (hb : b.Sound) (hs : b.SortSound trap) (ht : e.WellTyped) (hc : e.Canonical)
    (hbits : e.HasBits) (hinv : s.SortInv trap) {x : BuilderM Built} (hx : b.assertedOperands name e = some x)
    {t : SolverTerm} {s' : BuilderState} : x s ≠ some ((t, 1), s') := by
  intro hrun
  have hone : ∀ {k : Expr} {s₁ : BuilderState}, k.WellTyped → k.Canonical → k.HasBits → s₁.SortInv trap →
      b.construct name k s₁ = some ((t, 1), s') → k.width = 1 := fun hkt hkc hkb hinv₁ hk =>
    ((construct_sorts hb hs _ hkt hkc hkb _ hinv₁).1 _ _ hk).2.width.symm
  have htwo : ∀ {l r : Expr}, l.WellTyped → r.WellTyped → l.Canonical → r.Canonical → l.HasBits → r.HasBits →
      (b.construct name l >>= fun _ => b.construct name r) s = some ((t, 1), s') → r.width = 1 :=
    fun hlt hrt hlc hrc hlb hrb hrun => by
      obtain ⟨⟨tl, s₁⟩, hrun₁, hrun₂⟩ := Option.bind_eq_some_iff.mp hrun
      exact hone hrt hrc hrb ((construct_sorts hb hs _ hlt hlc hlb s hinv).1 _ _ hrun₁).1 hrun₂
  cases e with
  | binary kind l r =>
    obtain ⟨hlt, hrt, hwidth⟩ := ht
    obtain ⟨hlc, hrc, -, hbool⟩ := hc
    have hbitwise : l.width = 1 → kind.isBitwise = true := fun h => (hbool h).1
    cases kind with
    | add | sub | srem =>
      obtain rfl := Option.some.inj hx
      cases hbitwise (hwidth.trans (htwo hlt hrt hlc hrc hbits.1 hbits.2.1 hrun))
    | mul =>
      obtain rfl := Option.some.inj hx
      cases hbitwise (hwidth.trans (hone hrt hrc hbits.2.1 hinv hrun))
    | udiv | sdiv | urem | shl | lshr | ashr =>
      obtain rfl := Option.some.inj hx
      cases hbitwise (hone hlt hlc hbits.1 hinv hrun)
    | and | or | xor => cases hx
  | cmp kind l r =>
    obtain ⟨hlt, hrt, hwidth⟩ := ht
    obtain ⟨hlc, hrc, -, -, hbool⟩ := hc
    cases kind with
    | ult | ule | slt | sle =>
      obtain rfl := Option.some.inj hx
      cases hbool (hwidth.trans (htwo hlt hrt hlc hrc hbits.1 hbits.2.1 hrun))
    | eq | ne | ugt | uge | sgt | sge => cases hx
  | constant | notOptimized | read | select | concat | extract | cast | not => cases hx

end Backend

/-- A property of all parts of an expression but itself. -/
def Expr.ForallParts (P : Expr → Prop) : Expr → Prop
  | .constant _ => True
  | .notOptimized src => src.ForallNodes P
  | .read _ head index => head.ForallNodes P ∧ index.ForallNodes P
  | .select cond trueExpr falseExpr => cond.ForallNodes P ∧ trueExpr.ForallNodes P ∧ falseExpr.ForallNodes P
  | .concat left right => left.ForallNodes P ∧ right.ForallNodes P
  | .extract expr _ _ => expr.ForallNodes P
  | .cast _ src _ => src.ForallNodes P
  | .not expr => expr.ForallNodes P
  | .binary _ left right => left.ForallNodes P ∧ right.ForallNodes P
  | .cmp _ left right => left.ForallNodes P ∧ right.ForallNodes P

theorem Expr.ForallNodes.self {P : Expr → Prop} {e : Expr} (h : e.ForallNodes P) : P e := by
  cases e with
  | constant => exact h
  | notOptimized | extract | cast | not => exact h.2
  | read | concat | binary | cmp => exact h.2.2
  | select => exact h.2.2.2

structure Expr.IsInput (e : Expr) : Prop where
  wellTyped : e.WellTyped
  canonical : e.Canonical
  hasBits : e.HasBits

section Parts

variable {P Q C : Expr → Prop}

mutual

theorem Expr.ForallNodes.of_step (step : ∀ d : Expr, d.IsInput → d.ForallNodes P → d.ForallNodes Q → d.ForallParts C → C d) :
    ∀ e : Expr, e.IsInput → e.ForallNodes P → e.ForallNodes Q → e.ForallNodes C
  | .constant c, hin, hP, hQ => step (.constant c) hin hP hQ trivial
  | .notOptimized src, hin, hP, hQ =>
    have hsrc := Expr.ForallNodes.of_step step src ⟨hin.1, hin.2, hin.3.1⟩ hP.1 hQ.1
    ⟨hsrc, step (.notOptimized src) hin hP hQ hsrc⟩
  | .read root head index, hin, hP, hQ =>
    have hhead := UpdateNode.ForallNodes.of_step step root head hin.1.2.1 hin.2.1 hin.3.1 hP.1 hQ.1
    have hindex := Expr.ForallNodes.of_step step index ⟨hin.1.2.2.1, hin.2.2.1, hin.3.2.1⟩ hP.2.1 hQ.2.1
    ⟨hhead, hindex, step (.read root head index) hin hP hQ ⟨hhead, hindex⟩⟩
  | .select c t f, hin, hP, hQ =>
    have hc := Expr.ForallNodes.of_step step c ⟨hin.1.1, hin.2.1, hin.3.1⟩ hP.1 hQ.1
    have ht := Expr.ForallNodes.of_step step t ⟨hin.1.2.1, hin.2.2.1, hin.3.2.1⟩ hP.2.1 hQ.2.1
    have hf := Expr.ForallNodes.of_step step f ⟨hin.1.2.2.1, hin.2.2.2.1, hin.3.2.2.1⟩ hP.2.2.1 hQ.2.2.1
    ⟨hc, ht, hf, step (.select c t f) hin hP hQ ⟨hc, ht, hf⟩⟩
  | .concat l r, hin, hP, hQ =>
    have hl := Expr.ForallNodes.of_step step l ⟨hin.1.1, hin.2.1, hin.3.1⟩ hP.1 hQ.1
    have hr := Expr.ForallNodes.of_step step r ⟨hin.1.2, hin.2.2.1, hin.3.2.1⟩ hP.2.1 hQ.2.1
    ⟨hl, hr, step (.concat l r) hin hP hQ ⟨hl, hr⟩⟩
  | .extract e offset width, hin, hP, hQ =>
    have he := Expr.ForallNodes.of_step step e ⟨hin.1.1, hin.2.1, hin.3.1⟩ hP.1 hQ.1
    ⟨he, step (.extract e offset width) hin hP hQ he⟩
  | .cast kind src width, hin, hP, hQ =>
    have hsrc := Expr.ForallNodes.of_step step src ⟨hin.1.1, hin.2.1, hin.3.1⟩ hP.1 hQ.1
    ⟨hsrc, step (.cast kind src width) hin hP hQ hsrc⟩
  | .not e, hin, hP, hQ =>
    have he := Expr.ForallNodes.of_step step e ⟨hin.1, hin.2.1, hin.3.1⟩ hP.1 hQ.1
    ⟨he, step (.not e) hin hP hQ he⟩
  | .binary kind l r, hin, hP, hQ =>
    have hl := Expr.ForallNodes.of_step step l ⟨hin.1.1, hin.2.1, hin.3.1⟩ hP.1 hQ.1
    have hr := Expr.ForallNodes.of_step step r ⟨hin.1.2.1, hin.2.2.1, hin.3.2.1⟩ hP.2.1 hQ.2.1
    ⟨hl, hr, step (.binary kind l r) hin hP hQ ⟨hl, hr⟩⟩
  | .cmp kind l r, hin, hP, hQ =>
    have hl := Expr.ForallNodes.of_step step l ⟨hin.1.1, hin.2.1, hin.3.1⟩ hP.1 hQ.1
    have hr := Expr.ForallNodes.of_step step r ⟨hin.1.2.1, hin.2.2.1, hin.3.2.1⟩ hP.2.1 hQ.2.1
    ⟨hl, hr, step (.cmp kind l r) hin hP hQ ⟨hl, hr⟩⟩

theorem UpdateNode.ForallNodes.of_step
    (step : ∀ d : Expr, d.IsInput → d.ForallNodes P → d.ForallNodes Q → d.ForallParts C → C d) (root : ExprArray) :
    ∀ u : UpdateNode, u.WellTyped root → u.Canonical → u.ForallNodes Expr.HasBitsNode → u.ForallNodes P →
      u.ForallNodes Q → u.ForallNodes C
  | .nil, _, _, _, _, _ => trivial
  | .cons index value next, ht, hc, hbits, hP, hQ =>
    ⟨Expr.ForallNodes.of_step step index ⟨ht.1, hc.1, hbits.1⟩ hP.1 hQ.1,
      Expr.ForallNodes.of_step step value ⟨ht.2.1, hc.2.1, hbits.2.1⟩ hP.2.1 hQ.2.1,
      UpdateNode.ForallNodes.of_step step root next ht.2.2.1 hc.2.2 hbits.2.2 hP.2.2 hQ.2.2⟩

end

end Parts

/-- The part is no obstacle to the sorts: it gives vectors where they are needed, or nothing is built of it. -/
def Expr.SortsNode (trap : BinaryKind → APInt → Prop) (e : Expr) : Prop := e.VectorNode ∨ ¬ e.TrapFree trap

theorem Expr.vectorNodes_of_trapFree {e : Expr} (hin : e.IsInput) (h : e.ForallNodes (Expr.SortsNode trap))
    (hfree : e.TrapFree trap) : e.ForallNodes Expr.VectorNode :=
  Expr.ForallNodes.of_step (fun _ _ hnode hfree _ => hnode.self.resolve_right fun hnot => hnot hfree) e hin h hfree

namespace Backend

variable {b : Backend} {name : ExprArray → String} {e l r : Expr} {s : BuilderState}

theorem hashed_empty {x : BuilderM Built} {built : Built} {s' : BuilderState} (h : x .empty = some (built, s')) :
    ∃ s'', b.hashed e x .empty = some (built, s'') := by
  unfold hashed
  split
  · have hlookup : BuilderState.empty.constructed.lookup e = none := rfl
    rw [hlookup]
    dsimp only
    rw [h]
    exact ⟨_, rfl⟩
  · exact ⟨s', h⟩

theorem respectsSortsAt (hb : b.Sound) (hs : b.SortSound trap) (hin : e.IsInput) (h : e.ForallNodes (Expr.SortsNode trap))
    (hvisited : b.Visited name s) : b.RespectsSortsAt name s e := by
  have hinv : s.SortInv trap := hvisited.sortInv hb hs
  obtain ⟨ht, hc, hbits⟩ := id hin
  refine ⟨fun x hx t s' => canonicalized_of_sorts hb hs ht hc hbits hinv hx, fun t w s' hrun => ?_⟩
  have hterm := ((construct_sorts hb hs e ht hc hbits s hinv).1 _ _ hrun).2
  have hgood : e.ForallNodes Expr.VectorNode := Expr.vectorNodes_of_trapFree hin h hterm.trapFree
  exact ⟨(hterm.sorted hgood).1, hterm.isBool_iff hgood (Expr.HasBits.width_pos e hbits ht)⟩

theorem vectorNode_concat (hb : b.Sound) (hs : b.SortSound trap) (hin : (Expr.concat l r).IsInput)
    (hfree : (Expr.concat l r).TrapFree trap) (hl : l.ForallNodes Expr.VectorNode) (hr : r.ForallNodes Expr.VectorNode)
    (h : b.RespectsSortsAt name .empty (.concat l r)) : l.width ≠ 1 ∧ r.width ≠ 1 := by
  obtain ⟨ht, hc, hbits⟩ := hin
  have hsl : SortsTerm trap (b.construct name l) l := construct_sorts hb hs l ht.1 hc.1 hbits.1
  have hsr : SortsTerm trap (b.construct name r) r := construct_sorts hb hs r ht.2 hc.2.1 hbits.2.1
  obtain ⟨⟨⟨tr, wr⟩, s₁⟩, hrun₁⟩ := (hsr .empty .empty).2 ⟨hr, hfree.2.1⟩
  obtain ⟨hinv₁, htr⟩ := (hsr .empty .empty).1 _ _ hrun₁
  obtain ⟨⟨⟨tl, wl⟩, s₂⟩, hrun₂⟩ := (hsl s₁ hinv₁).2 ⟨hl, hfree.1⟩
  obtain ⟨-, htl⟩ := (hsl s₁ hinv₁).1 _ _ hrun₂
  have hrun : constructConcat (Expr.concat l r).width (b.construct name l) (b.construct name r) .empty =
      some ((.concat tl tr, (Expr.concat l r).width), s₂) := by
    rw [constructConcat, run_bind hrun₁]
    dsimp only
    rw [run_bind hrun₂]
    rfl
  obtain ⟨s', hconstruct⟩ := hashed_empty (b := b) (e := .concat l r) hrun
  have hrun' : b.construct name (.concat l r) .empty = some ((.concat tl tr, (Expr.concat l r).width), s') := by
    unfold construct
    exact hconstruct
  obtain ⟨-, -, hbl, hbr⟩ := (h.sorted _ _ _ hrun').1
  refine ⟨fun h1 => ?_, fun h1 => ?_⟩
  · rw [htl.isBool hl h1] at hbl
    cases hbl
  · rw [htr.isBool hr h1] at hbr
    cases hbr

theorem vectorNode_read (hb : b.Sound) (hs : b.SortSound trap) {root : ExprArray} {un : UpdateNode}
    (hin : (Expr.read root un e).IsInput) (hfree : (Expr.read root un e).TrapFree trap)
    (hu : un.ForallNodes Expr.VectorNode) (he : e.ForallNodes Expr.VectorNode)
    (h : b.RespectsSortsAt name .empty (.read root un e)) : root.Indexed := by
  obtain ⟨⟨-, htu, hte, hwe⟩, hc, hbits⟩ := hin
  have hsu : SortsArray trap (b.getArrayForUpdate name root un) root un :=
    getArrayForUpdate_sorts hb hs root un htu hc.1 hbits.1
  have hse : SortsTerm trap (b.construct name e) e := construct_sorts hb hs e hte hc.2.1 hbits.2.1
  obtain ⟨⟨array, s₁⟩, hrun₁⟩ := (hsu .empty .empty).2 ⟨hu, hfree.1⟩
  obtain ⟨hinv₁, -⟩ := (hsu .empty .empty).1 _ _ hrun₁
  obtain ⟨⟨⟨ti, wi⟩, s₂⟩, hrun₂⟩ := (hse s₁ hinv₁).2 ⟨he, hfree.2.1⟩
  obtain ⟨-, hti⟩ := (hse s₁ hinv₁).1 _ _ hrun₂
  have hrun : constructRead root (b.getArrayForUpdate name root un) (b.construct name e) .empty =
      some ((.read array ti, root.range), s₂) := by
    rw [constructRead, run_bind hrun₁, run_bind hrun₂]
    rfl
  obtain ⟨s', hconstruct⟩ := hashed_empty (b := b) (e := .read root un e) hrun
  have hrun' : b.construct name (.read root un e) .empty = some ((.read array ti, root.range), s') := by
    unfold construct
    exact hconstruct
  obtain ⟨⟨-, -, hbi⟩, hbool⟩ := h.sorted _ _ _ hrun'
  obtain ⟨hdomain, hrange⟩ : 0 < root.domain ∧ 0 < root.range := hbits.2.2
  have hdomain1 : root.domain ≠ 1 := fun h1 => by
    rw [hti.isBool he (hwe.trans h1)] at hbi
    cases hbi
  have hrange1 : root.range ≠ 1 := fun h1 => by
    cases hbool.mpr h1
  exact ⟨by omega, by omega⟩

/-- The sorts are respected if and only if each part of the expression gives vectors where they are needed, or traps. -/
theorem respectsSorts_iff (hb : b.Sound) (hs : b.SortSound trap) (hin : e.IsInput) :
    b.RespectsSorts name e ↔ e.ForallNodes (Expr.SortsNode trap) := by
  constructor
  · intro h
    refine Expr.ForallNodes.of_step (fun d hd hP _ hparts => ?_) e hin h h
    have hat : b.RespectsSortsAt name .empty d := hP.self _ .empty
    by_cases hfree : d.TrapFree trap
    · refine .inl ?_
      cases d with
      | concat l r =>
        have hl := Expr.vectorNodes_of_trapFree ⟨hd.1.1, hd.2.1, hd.3.1⟩ hparts.1 hfree.1
        have hr := Expr.vectorNodes_of_trapFree ⟨hd.1.2, hd.2.2.1, hd.3.2.1⟩ hparts.2 hfree.2.1
        exact vectorNode_concat hb hs hd hfree hl hr hat
      | read root un index =>
        have hu := UpdateNode.ForallNodes.of_step (C := Expr.VectorNode) (fun _ _ hnode hfree _ =>
          hnode.self.resolve_right fun hnot => hnot hfree) root un hd.1.2.1 hd.2.1 hd.3.1 hparts.1 hfree.1
        have hi := Expr.vectorNodes_of_trapFree ⟨hd.1.2.2.1, hd.2.2.1, hd.3.2.1⟩ hparts.2 hfree.2.1
        exact vectorNode_read hb hs hd hfree hu hi hat
      | constant | notOptimized | select | extract | cast | not | binary | cmp => trivial
    · exact .inr hfree
  · intro h
    exact Expr.ForallNodes.of_step (fun d hd hC _ _ s hvisited => respectsSortsAt hb hs hd hC hvisited) e hin h h

theorem exists_construct (hb : b.Sound) (hs : b.SortSound trap) (hin : e.IsInput) (h : b.RespectsSorts name e)
    (hfree : e.TrapFree trap) (hvisited : b.Visited name s) : ∃ res, b.construct name e s = some res := by
  have hgood := Expr.vectorNodes_of_trapFree hin ((respectsSorts_iff hb hs hin).mp h) hfree
  exact (construct_sorts hb hs e hin.1 hin.2 hin.3 s (hvisited.sortInv hb hs)).2 ⟨hgood, hfree⟩

end Backend

end CgsKlee
