import CgsKlee.Solver.SolverValue
import CgsKlee.Expr.ExprBuilder

/-!
# Types of expressions

An expression is typed if the operands of every node have the widths that its kind asks for: operands of one width, a
condition of one bit, bits to extract that the operand has, an operand that is narrower than what it is extended to, and
an index of 32 bits.  The constructors that the parser calls, and the builders, return typed expressions of the width of
the plain node.
-/

namespace CgsKlee

open ConstantExpr

/-- The operands of a node have the widths that its kind asks for. -/
def Expr.TypedNode : Expr → Prop
  | .read _ _ index => index.width = 32
  | .select cond trueExpr falseExpr => cond.width = 1 ∧ trueExpr.width = falseExpr.width
  | .extract expr offset width => 0 < width ∧ offset + width ≤ expr.width
  | .cast _ src width => src.width < width
  | .binary _ left right => left.width = right.width
  | .cmp _ left right => left.width = right.width
  | _ => True

def Expr.Typed : Expr → Prop := Expr.ForallNodes Expr.TypedNode

def BuildsTyped (w : Nat) (x : Option Expr) : Prop := ∀ e, x = some e → e.Typed ∧ e.width = w

namespace BuildsTyped

variable {w : Nat} {x y : Option Expr} {e : Expr}

theorem none : BuildsTyped w .none := nofun

theorem some (h : e.Typed) (hw : e.width = w) : BuildsTyped w (.some e) := by
  rintro _ ⟨⟩
  exact ⟨h, hw⟩

theorem constant {c : APInt} (hw : c.width = w) : BuildsTyped w (.some (.constant c)) := some (e := .constant c) trivial hw

theorem bind {α : Type} {o : Option α} {f : α → Option Expr} (hf : ∀ a, o = .some a → BuildsTyped w (f a)) :
    BuildsTyped w (o >>= f) := by
  intro e he
  obtain ⟨a, ha, hfa⟩ := Option.bind_eq_some_iff.mp he
  exact hf a ha e hfa

theorem andThen {v : Nat} {f : Expr → Option Expr} (hx : BuildsTyped v x)
    (hf : ∀ e : Expr, e.Typed → e.width = v → BuildsTyped w (f e)) : BuildsTyped w (x >>= f) :=
  bind fun e he => hf e (hx e he).1 (hx e he).2

theorem ite {p : Prop} [Decidable p] (hx : p → BuildsTyped w x) (hy : ¬p → BuildsTyped w y) :
    BuildsTyped w (if p then x else y) := by
  split
  · exact hx ‹_›
  · exact hy ‹_›

end BuildsTyped

def TypedOp (w v : Nat) (f : Expr → Expr → Option Expr) : Prop :=
  ∀ l r : Expr, l.Typed → r.Typed → l.width = w → r.width = w → BuildsTyped v (f l r)

variable {w : Nat} {c : APInt} {l r e : Expr}

theorem Expr.Typed.binary {kind : BinaryKind} (hl : l.Typed) (hr : r.Typed) (hw : l.width = r.width) :
    (Expr.binary kind l r).Typed := ⟨hl, hr, hw⟩

theorem typedOp_binary (kind : BinaryKind) : TypedOp w w fun l r => some (.binary kind l r) :=
  fun _ _ hl hr hlw hrw => .some (hl.binary hr (hlw.trans hrw.symm)) hlw

theorem typedOp_cmp (kind : CmpKind) : TypedOp w 1 fun l r => some (.cmp kind l r) :=
  fun _ _ hl hr hlw hrw => .some ⟨hl, hr, hlw.trans hrw.symm⟩ rfl

theorem foldConstants_width {kind : BinaryKind} {a b : APInt} (h : foldConstants kind a b = some c) :
    c.width = a.width := by
  unfold foldConstants at h
  split at h
  · cases h
    rfl
  · cases h

theorem withConstantL_typed {kind : BinaryKind} {x : Option Expr} (hx : BuildsTyped c.width x) :
    BuildsTyped c.width (withConstantL kind c r x) := by
  unfold withConstantL
  refine .ite (fun _ => ?_) fun _ => .none
  split
  · exact .constant rfl
  · exact hx

theorem sum_createPartialR_typed (opt : Bool) (n : Nat) : ∀ (c : APInt) (r : Expr), r.nodes ≤ n → r.Typed →
    r.width = c.width → c.width ≠ 1 → BuildsTyped c.width (AddExpr.createPartialR opt c r) ∧
      BuildsTyped c.width (SubExpr.createPartialR opt c r) := by
  induction n with
  | zero => exact fun c r hn => absurd hn (by cases r <;> simp [Expr.nodes])
  | succ n ih =>
    intro c r hn hr hw hbool
    have hsum : ∀ {kind kind' : BinaryKind} {b : APInt} {x : Expr}, (Expr.binary kind' (.constant b) x).nodes ≤ n + 1 →
        (Expr.binary kind' (.constant b) x).Typed → b.width = c.width → ∀ ab, foldConstants kind c b = some ab →
        ab.width = c.width ∧ BuildsTyped ab.width (AddExpr.createPartialR opt ab x) ∧
          BuildsTyped ab.width (SubExpr.createPartialR opt ab x) := by
      intro kind kind' b x hnodes hbx hb ab hab
      have hab' := foldConstants_width hab
      have hx : b.width = x.width := hbx.2.2
      simp only [Expr.nodes] at hnodes
      exact ⟨hab', ih ab x (by omega) hbx.2.1 (hx.symm.trans (hb.trans hab'.symm)) (hab'.trans_ne hbool)⟩
    constructor
    · unfold AddExpr.createPartialR
      rw [if_neg hbool]
      refine .ite (fun _ => .some hr hw) fun _ => ?_
      split
      · refine .bind fun ab hab => ?_
        obtain ⟨hab', hadd, -⟩ := hsum hn hr hw ab hab
        exact hab' ▸ withConstantL_typed hadd
      · refine .bind fun ab hab => ?_
        obtain ⟨hab', -, hsub⟩ := hsum hn hr hw ab hab
        exact hab' ▸ withConstantL_typed hsub
      · exact .some (Expr.Typed.binary (l := .constant c) trivial hr hw.symm) rfl
    · unfold SubExpr.createPartialR
      rw [if_neg hbool]
      split
      · refine .bind fun ab hab => ?_
        obtain ⟨hab', -, hsub⟩ := hsum hn hr hw ab hab
        exact hab' ▸ withConstantL_typed hsub
      · refine .bind fun ab hab => ?_
        obtain ⟨hab', hadd, -⟩ := hsum hn hr hw ab hab
        exact hab' ▸ withConstantL_typed hadd
      · exact .some (Expr.Typed.binary (l := .constant c) trivial hr hw.symm) rfl

theorem AddExpr.create_constant_typed {opt : Bool} (hl : l.Typed) (hw : l.width = c.width) (hbool : c.width ≠ 1) :
    BuildsTyped c.width (AddExpr.create opt l (.constant c)) := by
  unfold AddExpr.create
  rw [if_pos (show l.width = (Expr.constant c).width from hw)]
  cases l with
  | constant v => exact .constant hw
  | _ => exact (sum_createPartialR_typed opt _ c _ le_rfl hl hw hbool).1

private theorem bounded_typed_ite {w q : Nat} {p : Prop} [Decidable p] {x y : Option (ExtractBound q)}
    (hx : p → BuildsTyped w (x.map (·.1))) (hy : ¬p → BuildsTyped w (y.map (·.1))) :
    BuildsTyped w ((if p then x else y).map (·.1)) := by
  split
  · exact hx ‹_›
  · exact hy ‹_›

private theorem bounded_typed_bind {v w q q' : Nat} {x : Option (ExtractBound q)}
    {f : ExtractBound q → Option (ExtractBound q')} (hx : BuildsTyped v (x.map (·.1)))
    (hf : ∀ y : ExtractBound q, y.1.Typed → y.1.width = v → BuildsTyped w ((f y).map (·.1))) :
    BuildsTyped w ((x >>= f).map (·.1)) := by
  cases x with
  | none => exact .none
  | some y => exact hf y (hx y.1 rfl).1 (hx y.1 rfl).2

theorem ConcatExpr.merge_typed {extract : (expr : Expr) → expr.nodes ≤ l.extractedNodes → Nat → Nat →
      Option (ExtractBound expr.nodes)}
    (hextract : ∀ (expr : Expr) h off w, expr.Typed → BuildsTyped w ((extract expr h off w).map (·.1)))
    (hl : l.Typed) (hr : r.Typed) : BuildsTyped (l.width + r.width) ((ConcatExpr.merge l r extract).map (·.1)) := by
  unfold ConcatExpr.merge
  split
  · exact .constant rfl
  · exact bounded_typed_ite (fun _ => hextract _ _ _ _ hl.1) fun _ => .some ⟨hl, hr, trivial⟩ rfl
  · exact .some ⟨hl, hr, trivial⟩ rfl

/-- `ExtractExpr::create`, by induction on the nodes of what is extracted from. -/
theorem ExtractExpr.createBounded_typed : ∀ (n : Nat) (e : Expr) (off w : Nat), e.nodes ≤ n → e.Typed →
    BuildsTyped w ((ExtractExpr.createBounded e off w).map (·.1)) := by
  intro n
  induction n with
  | zero => exact fun e _ _ hn => absurd hn (by cases e <;> simp [Expr.nodes])
  | succ n ih =>
    intro e off w hn he
    unfold ExtractExpr.createBounded
    refine bounded_typed_ite (fun hvalid => ?_) fun _ => .none
    refine bounded_typed_ite (fun hw => .some he hw.symm) fun _ => ?_
    split
    · exact .constant rfl
    · rename_i left right _
      simp only [Expr.nodes] at hn
      have hleft : left.nodes ≤ n := by omega
      have hright : right.nodes ≤ n := by omega
      refine bounded_typed_ite (fun _ => ?_) fun hoff => bounded_typed_ite (fun _ => ?_) fun hend => ?_
      · exact bounded_typed_bind (ih left _ w hleft he.1) fun x hx hw => .some hx hw
      · exact bounded_typed_bind (ih right _ w hright he.2.1) fun x hx hw => .some hx hw
      · refine bounded_typed_bind (ih left 0 _ hleft he.1) fun x hx hxw => ?_
        refine bounded_typed_bind (ih right off _ hright he.2.1) fun y hy hyw => ?_
        have hmerge := ConcatExpr.merge_typed (fun expr hexpr off w h =>
          ih expr off w (hexpr.trans (x.2.trans hleft)) h) hx hy
        refine bounded_typed_bind hmerge fun z hz hzw => .some hz ?_
        have hsum : z.1.width = w + off - right.width + (right.width - off) := by rw [hzw, hxw, hyw]
        exact hsum.trans (by omega)
    · exact .some ⟨he, hvalid⟩ rfl

theorem ConcatExpr.create_typed (hl : l.Typed) (hr : r.Typed) : BuildsTyped (l.width + r.width) (ConcatExpr.create l r) :=
  ConcatExpr.merge_typed (fun expr _ off w h => ExtractExpr.createBounded_typed expr.nodes expr off w le_rfl h) hl hr

end CgsKlee
