import CgsKlee.Expr.Visitor

/-!
# Canonical expressions

What the smart constructors leave out: a node over constants only, boolean arithmetic, bitwise operations with a boolean
constant, order of booleans, the negated and the reversed comparisons, an extract or a cast to the same width, and a
read of a known element of a constant array.  Everything that is built by the constructors is canonical: `Created.canonical`.
-/

namespace CgsKlee

open ConstantExpr

/-- The kinds that are left for booleans. -/
def BinaryKind.isBitwise : BinaryKind → Bool
  | .and | .or | .xor => true
  | _ => false

def CmpKind.isAllocated : CmpKind → Bool
  | .eq | .ult | .ule | .slt | .sle => true
  | _ => false

def ReadExpr.isKnown (root : ExprArray) (head : UpdateNode) : Expr → Bool
  | .constant c => decide (c.toNat < root.size ∧ head = .nil ∧ root.isSymbolicArray = false)
  | _ => false

mutual

/-- The expression has none of the nodes that the constructors leave out. -/
def Expr.Canonical : Expr → Prop
  | .constant _ => True
  | .notOptimized src => src.Canonical
  | .read root head index => head.Canonical ∧ index.Canonical ∧ ReadExpr.isKnown root head index = false
  | .select cond trueExpr falseExpr =>
    cond.Canonical ∧ trueExpr.Canonical ∧ falseExpr.Canonical ∧ cond.isConstant = false
  | .concat left right => left.Canonical ∧ right.Canonical ∧ (left.isConstant && right.isConstant) = false
  | .extract expr _ width => expr.Canonical ∧ expr.isConstant = false ∧ width < expr.width
  | .cast _ src width => src.Canonical ∧ src.isConstant = false ∧ src.width < width
  | .not expr => expr.Canonical ∧ expr.isConstant = false
  | .binary kind left right =>
    left.Canonical ∧ right.Canonical ∧ (left.isConstant && right.isConstant) = false ∧
      (left.width = 1 → kind.isBitwise = true ∧ left.isConstant = false ∧ right.isConstant = false)
  | .cmp kind left right =>
    left.Canonical ∧ right.Canonical ∧ (left.isConstant && right.isConstant) = false ∧
      kind.isAllocated = true ∧ (left.width = 1 → kind = .eq)

def UpdateNode.Canonical : UpdateNode → Prop
  | .nil => True
  | .cons index value next => index.Canonical ∧ value.Canonical ∧ next.Canonical

end

def CanonicalResult (x : Option Expr) : Prop := ∀ e, x = some e → e.Canonical

namespace CanonicalResult

variable {x : Option Expr} {e : Expr}

theorem none : CanonicalResult none := nofun

theorem pure (h : e.Canonical) : CanonicalResult (some e) := by
  rintro _ ⟨⟩
  exact h

theorem bind {f : Expr → Option Expr} (hx : CanonicalResult x) (hf : ∀ e, e.Canonical → CanonicalResult (f e)) :
    CanonicalResult (x >>= f) := by
  intro e he
  obtain ⟨e', he', he⟩ := Option.bind_eq_some_iff.mp he
  exact hf e' (hx e' he') e he

theorem ite {p : Prop} [Decidable p] {y : Option Expr} (hx : p → CanonicalResult x) (hy : ¬p → CanonicalResult y) :
    CanonicalResult (if p then x else y) := by
  split
  · exact hx ‹_›
  · exact hy ‹_›

end CanonicalResult

section Constructors

variable (opt : Bool) {e l r : Expr} {c : APInt}

theorem Expr.isConstant_eq_false (h : ∀ v, e = .constant v → False) : e.isConstant = false := by
  cases e with
  | constant v => exact absurd rfl (h v)
  | _ => rfl

variable {kind : BinaryKind} {fold : APInt → APInt → APInt}

theorem Expr.canonical_bitwise (hk : kind.isBitwise = true) (hl : l.Canonical) (hr : r.Canonical)
    (hcl : l.isConstant = false) (hcr : r.isConstant = false) : CanonicalResult (some (.binary kind l r)) :=
  .pure ⟨hl, hr, by rw [hcl]; rfl, fun _ => ⟨hk, hcl, hcr⟩⟩

theorem Expr.canonical_binary (hl : l.Canonical) (hr : r.Canonical)
    (hc : (l.isConstant && r.isConstant) = false) (h1 : l.width ≠ 1) : CanonicalResult (some (.binary kind l r)) :=
  .pure ⟨hl, hr, hc, fun hw => absurd hw h1⟩

theorem Expr.canonical_binary_constant (hl : l.Canonical) (hc : l.isConstant = false)
    (h1 : l.width ≠ 1) : CanonicalResult (some (.binary kind l (.constant c))) :=
  Expr.canonical_binary hl trivial (by rw [hc]; rfl) h1

theorem Expr.canonical_constant_binary (hr : r.Canonical) (hc : r.isConstant = false)
    (h1 : c.width ≠ 1) : CanonicalResult (some (.binary kind (.constant c) r)) :=
  Expr.canonical_binary trivial hr hc h1

theorem ConstantExpr.width_ne_one (h : ¬isAllOnes c = true) (h' : ¬isZero c = true) : c.width ≠ 1 := by
  intro hw
  obtain ⟨w, x⟩ := c
  obtain rfl : w = 1 := hw
  revert x
  decide

theorem createR_canonical {partialL : Expr → APInt → Option Expr}
    {partialR : APInt → Expr → Option Expr} {create : Expr → Expr → Option Expr}
    (hR : ∀ c, c.width = r.width → r.isConstant = false → CanonicalResult (partialR c r))
    (hL : ∀ c, l.width = c.width → l.isConstant = false → CanonicalResult (partialL l c))
    (hcreate : l.isConstant = false → r.isConstant = false → CanonicalResult (create l r)) :
    CanonicalResult (createR fold partialL partialR create l r) := by
  refine .ite (fun hw => ?_) fun _ => .none
  split
  · exact .pure trivial
  · rename_i hr
    exact hR _ hw (Expr.isConstant_eq_false hr)
  · rename_i hl
    exact hL _ hw (Expr.isConstant_eq_false hl)
  · rename_i hl hr _
    exact hcreate (Expr.isConstant_eq_false hl) (Expr.isConstant_eq_false hr)

theorem createB_canonical {create : Expr → Expr → Option Expr}
    (hcreate : (l.isConstant && r.isConstant) = false → CanonicalResult (create l r)) :
    CanonicalResult (createB fold create l r) := by
  refine .ite (fun _ => ?_) fun _ => .none
  split
  · exact .pure trivial
  · rename_i hlr
    refine hcreate ?_
    cases l with
    | constant cl => exact Expr.isConstant_eq_false fun cr hr => hlr cl cr rfl hr
    | _ => rfl

theorem AndExpr.createPartial_canonical (hl : l.Canonical) (hw : l.width = c.width) (hc : l.isConstant = false) :
    CanonicalResult (AndExpr.createPartial l c) :=
  .ite (fun _ => .pure hl) fun hones => .ite (fun _ => .pure trivial) fun hzero =>
    Expr.canonical_binary_constant hl hc (hw ▸ width_ne_one hones hzero)

theorem AndExpr.create_canonical (hl : l.Canonical) (hr : r.Canonical) : CanonicalResult (AndExpr.create l r) :=
  createR_canonical (fun _ hw => createPartial_canonical hr hw.symm) (fun _ hw => createPartial_canonical hl hw)
    (Expr.canonical_bitwise rfl hl hr)

theorem OrExpr.createPartial_canonical (hl : l.Canonical) (hw : l.width = c.width) (hc : l.isConstant = false) :
    CanonicalResult (OrExpr.createPartial l c) :=
  .ite (fun _ => .pure trivial) fun hones => .ite (fun _ => .pure hl) fun hzero =>
    Expr.canonical_binary_constant hl hc (hw ▸ width_ne_one hones hzero)

theorem OrExpr.create_canonical (hl : l.Canonical) (hr : r.Canonical) : CanonicalResult (OrExpr.create l r) :=
  createR_canonical (fun _ hw => createPartial_canonical hr hw.symm) (fun _ hw => createPartial_canonical hl hw)
    (Expr.canonical_bitwise rfl hl hr)

theorem EqExpr.plain_canonical (hl : l.Canonical) (hr : r.Canonical) (hc : (l.isConstant && r.isConstant) = false) :
    CanonicalResult (EqExpr.plain l r) :=
  .ite (fun _ => .pure trivial) fun _ => .pure ⟨hl, hr, hc, rfl, fun _ => rfl⟩

theorem EqExpr.plain_constant_canonical (hr : r.Canonical) (hc : r.isConstant = false) :
    CanonicalResult (EqExpr.plain (.constant c) r) := EqExpr.plain_canonical trivial hr hc

theorem EqExpr.withConstant_canonical {x : Option Expr} (hx : e.isConstant = false → CanonicalResult x) :
    CanonicalResult (EqExpr.withConstant e c x) := by
  refine .ite (fun _ => ?_) fun _ => .none
  split
  · exact .pure trivial
  · rename_i hc
    exact hx (Expr.isConstant_eq_false hc)

theorem EqExpr.matchPositions_canonical {mayBe : Nat → Option Expr} (hmay : ∀ i, CanonicalResult (mayBe i))
    {values : List APInt} {i n : Nat} {res : Expr} (hres : res.Canonical) :
    ∀ out, EqExpr.matchPositions c mayBe values i n res = some (some out) → out.Canonical := by
  induction values generalizing i n res with
  | nil =>
    intro out hout
    obtain rfl := Option.some.inj (Option.some.inj hout)
    exact hres
  | cons v values ih =>
    intro out hout
    unfold matchPositions at hout
    split at hout
    · split at hout
      · cases hout
      · obtain ⟨x, hx, hout⟩ := Option.bind_eq_some_iff.mp hout
        obtain ⟨res', hres', hout⟩ := Option.bind_eq_some_iff.mp hout
        exact ih (OrExpr.create_canonical hres (hmay i x hx) res' hres') out hout
    · exact ih hres out hout

theorem EqExpr.createPartialR_canonical {cl : APInt} (hr : r.Canonical) (hc : r.isConstant = false) :
    CanonicalResult (EqExpr.createPartialR opt cl r) := by
  fun_induction EqExpr.createPartialR opt cl r with
  | case1 cl r h1 htrue => exact .pure hr
  | case2 cl h1 htrue c right hfalse => exact .pure hr.2.1
  | case4 cl h1 htrue left right ihLeft ihRight =>
    refine .bind (withConstant_canonical (ihLeft hr.1)) fun l' hl' => ?_
    refine .bind (withConstant_canonical (ihRight hr.2.1)) fun r' hr' => ?_
    exact AndExpr.create_canonical hl' hr'
  | case6 cl h1 src w trunc hcl ih | case8 cl h1 src w trunc hcl ih => exact withConstant_canonical (ih hr.1)
  | case7 | case9 => exact .pure trivial
  | case10 cl h1 c right hcl ih | case12 cl h1 c right hcl ih => exact ih hr.2.1 hr.2.2.1
  | case11 | case13 => exact .none
  | case15 cl h1 root head index hopt hroot mayBe ih =>
    intro e he
    obtain ⟨out, hout, he⟩ := Option.bind_eq_some_iff.mp he
    cases out with
    | some res =>
      obtain rfl := Option.some.inj he
      exact matchPositions_canonical (fun i => withConstant_canonical (ih i hr.2.1)) (by trivial) _ hout
    | none => exact plain_constant_canonical hr rfl e he
  | case3 | case5 | case14 | case16 | case17 => exact plain_constant_canonical hr hc

theorem EqExpr.create_canonical (hl : l.Canonical) (hr : r.Canonical) : CanonicalResult (EqExpr.create opt l r) :=
  createR_canonical (fun _ _ => createPartialR_canonical opt hr) (fun _ _ => createPartialR_canonical opt hl)
    fun hc _ => EqExpr.plain_canonical hl hr (by rw [hc]; rfl)

theorem Expr.createIsZero_canonical (he : e.Canonical) : CanonicalResult (e.createIsZero opt) :=
  EqExpr.create_canonical opt he trivial

theorem XorExpr.createPartialR_canonical (hr : r.Canonical) (hc : r.isConstant = false) :
    CanonicalResult (XorExpr.createPartialR opt c r) :=
  .ite (fun _ => .pure hr) fun _ => .ite (fun _ => EqExpr.createPartialR_canonical opt hr hc)
    (Expr.canonical_constant_binary hr hc)

theorem XorExpr.create_canonical (hl : l.Canonical) (hr : r.Canonical) : CanonicalResult (XorExpr.create opt l r) :=
  createR_canonical (fun _ _ => createPartialR_canonical opt hr) (fun _ _ => createPartialR_canonical opt hl)
    (Expr.canonical_bitwise rfl hl hr)

theorem withConstantL_canonical {x : Option Expr} (hx : r.isConstant = false → CanonicalResult x) :
    CanonicalResult (withConstantL kind c r x) := by
  refine .ite (fun _ => ?_) fun _ => .none
  split
  · exact .pure trivial
  · rename_i hc
    exact hx (Expr.isConstant_eq_false hc)

private theorem folded_canonical {a b : APInt} {f : APInt → Option Expr}
    (hf : ∀ ab, CanonicalResult (f ab)) : CanonicalResult (foldConstants kind a b >>= f) := by
  intro e he
  obtain ⟨ab, -, hab⟩ := Option.bind_eq_some_iff.mp he
  exact hf ab e hab

theorem sum_createPartialR_canonical (cl : APInt) {r : Expr} (hr : r.Canonical) (hc : r.isConstant = false) :
    CanonicalResult (AddExpr.createPartialR opt cl r) ∧ CanonicalResult (SubExpr.createPartialR opt cl r) := by
  induction hn : r.nodes using Nat.strong_induction_on generalizing cl r with
  | _ n ih =>
  subst hn
  have hrest : ∀ {kind : BinaryKind} {b : APInt} {c : Expr}, r = .binary kind (.constant b) c → ∀ ab,
      CanonicalResult (withConstantL .add ab c (AddExpr.createPartialR opt ab c)) ∧
      CanonicalResult (withConstantL .sub ab c (SubExpr.createPartialR opt ab c)) := by
    rintro kind b c rfl ab
    have ih := ih c.nodes (by simp only [Expr.nodes]; omega) ab hr.2.1
    exact ⟨withConstantL_canonical fun hc => (ih hc rfl).1, withConstantL_canonical fun hc => (ih hc rfl).2⟩
  have hxor := XorExpr.createPartialR_canonical opt (c := cl) hr hc
  constructor
  · unfold AddExpr.createPartialR
    refine .ite (fun _ => hxor) fun h1 => .ite (fun _ => .pure hr) fun _ => ?_
    split
    · exact folded_canonical fun ab => (hrest rfl ab).1
    · exact folded_canonical fun ab => (hrest rfl ab).2
    · exact Expr.canonical_constant_binary hr hc h1
  · unfold SubExpr.createPartialR
    refine .ite (fun _ => hxor) fun h1 => ?_
    split
    · exact folded_canonical fun ab => (hrest rfl ab).2
    · exact folded_canonical fun ab => (hrest rfl ab).1
    · exact Expr.canonical_constant_binary hr hc h1

theorem AddExpr.createL_canonical (hr : r.Canonical) : CanonicalResult (AddExpr.createL opt c r) :=
  withConstantL_canonical fun hc => (sum_createPartialR_canonical opt c hr hc).1

theorem SubExpr.createL_canonical (hr : r.Canonical) : CanonicalResult (SubExpr.createL opt c r) :=
  withConstantL_canonical fun hc => (sum_createPartialR_canonical opt c hr hc).2

theorem SubExpr.createConstantR_canonical (hl : l.Canonical) : CanonicalResult (SubExpr.createConstantR opt l c) := by
  unfold SubExpr.createConstantR
  refine .ite (fun _ => ?_) fun _ => .none
  split
  · exact .pure trivial
  · rename_i hc
    exact (sum_createPartialR_canonical opt _ hl (Expr.isConstant_eq_false hc)).1

theorem sum_create_canonical {l r : Expr} (hl : l.Canonical) (hr : r.Canonical) :
    CanonicalResult (AddExpr.create opt l r) ∧ CanonicalResult (SubExpr.create opt l r) := by
  induction hn : l.nodes + r.nodes using Nat.strong_induction_on generalizing l r with
  | _ n ih =>
  subst hn
  constructor
  · unfold AddExpr.create
    refine .ite (fun _ => ?_) fun _ => .none
    split
    · exact .pure trivial
    · rename_i hc
      exact (sum_createPartialR_canonical opt _ hr (Expr.isConstant_eq_false hc)).1
    · rename_i hc _
      exact (sum_createPartialR_canonical opt _ hl (Expr.isConstant_eq_false hc)).1
    · rename_i hcl hcr _
      have hcl := Expr.isConstant_eq_false hcl
      have hcr := Expr.isConstant_eq_false hcr
      refine .ite (fun _ => Expr.canonical_bitwise rfl hl hr hcl hcr) fun h1 => ?_
      split
      · exact .bind (ih _ (by simp only [Expr.nodes]; omega) hl.2.1 hr rfl).1 fun _ => AddExpr.createL_canonical opt
      · exact .bind (ih _ (by simp only [Expr.nodes]; omega) hr hl.2.1 rfl).2 fun _ => AddExpr.createL_canonical opt
      · exact .bind (ih _ (by simp only [Expr.nodes]; omega) hl hr.2.1 rfl).1 fun _ => AddExpr.createL_canonical opt
      · exact .bind (ih _ (by simp only [Expr.nodes]; omega) hl hr.2.1 rfl).2 fun _ => AddExpr.createL_canonical opt
      · exact Expr.canonical_binary hl hr (by rw [hcl]; rfl) h1
  · unfold SubExpr.create
    refine .ite (fun _ => ?_) fun _ => .none
    split
    · exact .pure trivial
    · rename_i hc
      exact (sum_createPartialR_canonical opt _ hr (Expr.isConstant_eq_false hc)).2
    · rename_i hc _
      exact (sum_createPartialR_canonical opt _ hl (Expr.isConstant_eq_false hc)).1
    · rename_i hcl hcr _
      have hcl := Expr.isConstant_eq_false hcl
      have hcr := Expr.isConstant_eq_false hcr
      refine .ite (fun _ => Expr.canonical_bitwise rfl hl hr hcl hcr) fun h1 => ?_
      refine .ite (fun _ => .pure trivial) fun _ => ?_
      split
      · exact .bind (ih _ (by simp only [Expr.nodes]; omega) hl.2.1 hr rfl).2 fun _ => AddExpr.createL_canonical opt
      · exact .bind (ih _ (by simp only [Expr.nodes]; omega) hl.2.1 hr rfl).1 fun _ => SubExpr.createL_canonical opt
      · exact .bind (ih _ (by simp only [Expr.nodes]; omega) hl hr.2.1 rfl).2 fun _ =>
          SubExpr.createConstantR_canonical opt
      · exact .bind (ih _ (by simp only [Expr.nodes]; omega) hl hr.2.1 rfl).1 fun _ =>
          SubExpr.createConstantR_canonical opt
      · exact Expr.canonical_binary hl hr (by rw [hcl]; rfl) h1

theorem MulExpr.createPartialR_canonical (hr : r.Canonical) (hw : r.width = c.width) (hc : r.isConstant = false) :
    CanonicalResult (MulExpr.createPartialR c r) :=
  .ite (fun _ => AndExpr.createPartial_canonical hr hw hc) fun h1 => .ite (fun _ => .pure hr) fun _ =>
    .ite (fun _ => .pure trivial) fun _ => Expr.canonical_constant_binary hr hc h1

theorem MulExpr.create_canonical (hl : l.Canonical) (hr : r.Canonical) : CanonicalResult (MulExpr.create l r) :=
  createR_canonical (fun _ hw => createPartialR_canonical hr hw.symm) (fun _ hw => createPartialR_canonical hl hw)
    fun hcl hcr => .ite (fun _ => Expr.canonical_bitwise rfl hl hr hcl hcr) fun h1 =>
      Expr.canonical_binary hl hr (by rw [hcl]; rfl) h1

theorem createB_bool_canonical {bool node : Expr → Expr → Option Expr}
    (hbool : CanonicalResult (bool l r))
    (hnode : (l.isConstant && r.isConstant) = false → l.width ≠ 1 → CanonicalResult (node l r)) :
    CanonicalResult (createB fold (fun l r => if l.width = 1 then bool l r else node l r) l r) :=
  createB_canonical fun hc => .ite (fun _ => hbool) (hnode hc)

theorem createDivision_canonical {bool : Expr → Expr} (hl : l.Canonical) (hr : r.Canonical)
    (hbool : (bool l).Canonical) : CanonicalResult (createDivision kind bool l r) :=
  .ite (fun _ => .none) fun _ => createB_bool_canonical (.pure hbool) fun hc h1 =>
    Expr.canonical_binary hl hr hc h1

theorem andNot_canonical (hl : l.Canonical) (hr : r.Canonical) : CanonicalResult (andNot opt l r) :=
  .bind (Expr.createIsZero_canonical opt hr) fun _ => AndExpr.create_canonical hl

theorem notOr_canonical (hl : l.Canonical) (hr : r.Canonical) : CanonicalResult (notOr opt l r) :=
  .bind (Expr.createIsZero_canonical opt hl) fun _ h => OrExpr.create_canonical h hr

theorem BinaryKind.create_canonical (kind : BinaryKind) (hl : l.Canonical) (hr : r.Canonical) :
    CanonicalResult (kind.create opt l r) := by
  have hnode : ∀ kind : BinaryKind, (l.isConstant && r.isConstant) = false → l.width ≠ 1 →
      CanonicalResult (some (.binary kind l r)) :=
    fun _ => Expr.canonical_binary hl hr
  cases kind with
  | add => exact (sum_create_canonical opt hl hr).1
  | sub => exact (sum_create_canonical opt hl hr).2
  | mul => exact MulExpr.create_canonical hl hr
  | udiv | sdiv => exact createDivision_canonical hl hr hl
  | urem | srem => exact createDivision_canonical hl hr trivial
  | and => exact AndExpr.create_canonical hl hr
  | or => exact OrExpr.create_canonical hl hr
  | xor => exact XorExpr.create_canonical opt hl hr
  | shl => exact createB_bool_canonical (andNot_canonical opt hl hr) (hnode .shl)
  | lshr => exact createB_bool_canonical (andNot_canonical opt hl hr) (hnode .lshr)
  | ashr => exact createB_bool_canonical (.pure hl) (hnode .ashr)

theorem Expr.canonical_cmp {kind : CmpKind} (hk : kind.isAllocated = true) (hl : l.Canonical) (hr : r.Canonical)
    (hc : (l.isConstant && r.isConstant) = false) (h1 : l.width ≠ 1) : CanonicalResult (some (.cmp kind l r)) :=
  .pure ⟨hl, hr, hc, hk, fun hw => absurd hw h1⟩

theorem UltExpr.create_canonical (hl : l.Canonical) (hr : r.Canonical) : CanonicalResult (UltExpr.create opt l r) :=
  createB_bool_canonical (.bind (Expr.createIsZero_canonical opt hl) fun _ h => AndExpr.create_canonical h hr)
    (Expr.canonical_cmp rfl hl hr)

theorem UleExpr.create_canonical (hl : l.Canonical) (hr : r.Canonical) : CanonicalResult (UleExpr.create opt l r) :=
  createB_bool_canonical (notOr_canonical opt hl hr) (Expr.canonical_cmp rfl hl hr)

theorem SltExpr.create_canonical (hl : l.Canonical) (hr : r.Canonical) : CanonicalResult (SltExpr.create opt l r) :=
  createB_bool_canonical (andNot_canonical opt hl hr) (Expr.canonical_cmp rfl hl hr)

theorem SleExpr.create_canonical (hl : l.Canonical) (hr : r.Canonical) : CanonicalResult (SleExpr.create opt l r) :=
  createB_bool_canonical (.bind (Expr.createIsZero_canonical opt hr) fun _ h => OrExpr.create_canonical hl h)
    (Expr.canonical_cmp rfl hl hr)

theorem CmpKind.create_canonical (kind : CmpKind) (hl : l.Canonical) (hr : r.Canonical) :
    CanonicalResult (kind.create opt l r) := by
  cases kind with
  | eq => exact EqExpr.create_canonical opt hl hr
  | ne => exact .bind (EqExpr.create_canonical opt hl hr) fun _ h => EqExpr.create_canonical opt trivial h
  | ult => exact UltExpr.create_canonical opt hl hr
  | ule => exact UleExpr.create_canonical opt hl hr
  | slt => exact SltExpr.create_canonical opt hl hr
  | sle => exact SleExpr.create_canonical opt hl hr
  | ugt => exact UltExpr.create_canonical opt hr hl
  | uge => exact UleExpr.create_canonical opt hr hl
  | sgt => exact SltExpr.create_canonical opt hr hl
  | sge => exact SleExpr.create_canonical opt hr hl

theorem SelectExpr.create_canonical {c t f : Expr} (hc : c.Canonical) (ht : t.Canonical) (hf : f.Canonical) :
    CanonicalResult (SelectExpr.create opt c t f) := by
  unfold SelectExpr.create
  refine .ite (fun _ => ?_) fun _ => .none
  split
  · refine .pure ?_
    split
    · exact ht
    · exact hf
  · rename_i hcond
    have hself : CanonicalResult (some (.select c t f)) := .pure ⟨hc, ht, hf, Expr.isConstant_eq_false hcond⟩
    have hnot := Expr.createIsZero_canonical opt hc
    refine .ite (fun _ => .pure ht) fun _ => .ite (fun _ => ?_) fun _ => hself
    split
    · exact .ite (fun _ => OrExpr.create_canonical hc hf) fun _ =>
        .bind hnot fun _ h => AndExpr.create_canonical h hf
    · exact .ite (fun _ => .bind hnot fun _ h => OrExpr.create_canonical h ht) fun _ =>
        AndExpr.create_canonical hc ht
    · exact hself

theorem ReadExpr.rollback_canonical {index : Expr} : ∀ (head : UpdateNode) (out : Expr ⊕ UpdateNode),
    head.Canonical → ReadExpr.rollback opt index head = some out → out.elim Expr.Canonical UpdateNode.Canonical
  | .nil, out, _, hout => by
    obtain rfl : .inr .nil = out := by simpa [ReadExpr.rollback] using hout
    trivial
  | .cons i value next, out, hhead, hout => by
    unfold ReadExpr.rollback at hout
    obtain ⟨eq, -, hout⟩ := Option.bind_eq_some_iff.mp hout
    split at hout
    · split at hout
      · obtain rfl : .inl value = out := Option.some.inj hout
        exact hhead.2.1
      · exact ReadExpr.rollback_canonical next out hhead.2.2 hout
    · obtain rfl : .inr (.cons i value next) = out := Option.some.inj hout
      exact hhead

theorem ReadExpr.create_canonical {root : ExprArray} {head : UpdateNode} {index : Expr} (hhead : head.Canonical)
    (hindex : index.Canonical) : CanonicalResult (ReadExpr.create opt root head index) := by
  intro e he
  unfold ReadExpr.create at he
  obtain ⟨out, hout, hresult⟩ := Option.bind_eq_some_iff.mp he
  have hcan := ReadExpr.rollback_canonical opt head out hhead hout
  clear he
  revert e
  change CanonicalResult _
  cases out with
  | inl value => exact .pure hcan
  | inr un =>
    dsimp only
    split
    · rename_i c
      refine .ite (fun _ => .ite (fun hsize => .ite (fun _ => .pure trivial) fun hknown => ?_) fun hsize => ?_)
        fun _ => .none
      · refine .pure ⟨hcan, trivial, ?_⟩
        unfold isKnown
        simp only [decide_eq_false_iff_not]
        rintro ⟨-, rfl, hconst⟩
        exact hknown ⟨by simp [hconst], rfl⟩
      · refine .pure ⟨hhead, trivial, ?_⟩
        unfold isKnown
        simp only [decide_eq_false_iff_not]
        rintro ⟨hlt, -⟩
        exact hsize hlt
    · rename_i hc
      refine .pure ⟨hhead, hindex, ?_⟩
      cases index with
      | constant v => exact absurd rfl (hc v)
      | _ => rfl

private theorem bounded_canonical_bind {p q : Nat} {x : Option (ExtractBound p)}
    {f : ExtractBound p → Option (ExtractBound q)} (hx : CanonicalResult (x.map (·.1)))
    (hf : ∀ y : ExtractBound p, y.1.Canonical → CanonicalResult ((f y).map (·.1))) :
    CanonicalResult ((x >>= f).map (·.1)) := by
  intro e he
  obtain ⟨z, hz, rfl⟩ := Option.map_eq_some_iff.mp he
  obtain ⟨y, hy, hz⟩ := Option.bind_eq_some_iff.mp hz
  exact hf y (hx y.1 (by rw [hy]; rfl)) z.1 (by rw [hz]; rfl)

private theorem bounded_canonical_ite {q : Nat} {b : Prop} [Decidable b] {x y : Option (ExtractBound q)}
    (hx : b → CanonicalResult (x.map (·.1))) (hy : ¬b → CanonicalResult (y.map (·.1))) :
    CanonicalResult ((if b then x else y).map (·.1)) := by
  split
  · exact hx ‹_›
  · exact hy ‹_›

theorem ConcatExpr.merge_canonical
    {extract : (expr : Expr) → expr.nodes ≤ l.extractedNodes → Nat → Nat → Option (ExtractBound expr.nodes)}
    (hextract : ∀ expr h off w, expr.Canonical → CanonicalResult ((extract expr h off w).map (·.1)))
    (hl : l.Canonical) (hr : r.Canonical) : CanonicalResult ((ConcatExpr.merge l r extract).map (·.1)) := by
  by_cases hc : (l.isConstant && r.isConstant) = false
  · unfold ConcatExpr.merge
    split
    · exact .pure trivial
    · exact bounded_canonical_ite (fun _ => hextract _ _ _ _ hl.1) fun _ => .pure ⟨hl, hr, rfl⟩
    · exact .pure ⟨hl, hr, hc⟩
  · cases l with
    | constant cl =>
      cases r with
      | constant cr => exact .pure trivial
      | _ => exact absurd rfl hc
    | _ => exact absurd rfl hc

theorem ExtractExpr.createBounded_canonical : ∀ (n : Nat) (e : Expr) (off w : Nat), e.nodes ≤ n → e.Canonical →
    CanonicalResult ((ExtractExpr.createBounded e off w).map (·.1)) := by
  intro n
  induction n using Nat.strong_induction_on with
  | _ n ih =>
  intro e off w hn he
  unfold ExtractExpr.createBounded
  refine bounded_canonical_ite (fun hvalid => ?_) fun _ => .none
  refine bounded_canonical_ite (fun _ => .pure he) fun hne => ?_
  split
  · exact .pure trivial
  · rename_i left right
    simp only [Expr.nodes] at hn
    have hleft : left.nodes < n := by omega
    have hright : right.nodes < n := by omega
    refine bounded_canonical_ite (fun _ => ?_) fun _ => bounded_canonical_ite (fun _ => ?_) fun _ => ?_
    · exact bounded_canonical_bind (ih _ hleft left _ _ le_rfl he.1) fun _ h => .pure h
    · exact bounded_canonical_bind (ih _ hright right _ _ le_rfl he.2.1) fun _ h => .pure h
    · refine bounded_canonical_bind (ih _ hleft left _ _ le_rfl he.1) fun x hx => ?_
      refine bounded_canonical_bind (ih _ hright right _ _ le_rfl he.2.1) fun y hy => ?_
      refine bounded_canonical_bind (ConcatExpr.merge_canonical ?_ hx hy) fun _ h => .pure h
      intro expr hle off w hexpr
      exact ih _ (lt_of_le_of_lt (hle.trans x.2) hleft) expr off w le_rfl hexpr
  · rename_i hc _
    exact .pure ⟨he, Expr.isConstant_eq_false hc, by omega⟩

theorem ExtractExpr.create_canonical {off w : Nat} (he : e.Canonical) : CanonicalResult (ExtractExpr.create e off w) :=
  ExtractExpr.createBounded_canonical e.nodes e off w le_rfl he

theorem ConcatExpr.create_canonical (hl : l.Canonical) (hr : r.Canonical) : CanonicalResult (ConcatExpr.create l r) :=
  ConcatExpr.merge_canonical (fun expr _ off w h => ExtractExpr.createBounded_canonical _ expr off w le_rfl h) hl hr

theorem NotExpr.create_canonical (he : e.Canonical) : CanonicalResult (NotExpr.create e) := by
  unfold NotExpr.create
  split
  · exact .pure trivial
  · rename_i hc
    exact .pure ⟨he, Expr.isConstant_eq_false hc⟩

theorem CastExpr.create_canonical {kind : CastKind} {w : Nat} (he : e.Canonical) :
    CanonicalResult (CastExpr.create kind e w) := by
  unfold CastExpr.create
  refine .ite (fun _ => .pure he) fun hne => .ite (fun _ => ExtractExpr.create_canonical he) fun hlt => ?_
  split
  · exact .pure trivial
  · rename_i hc
    exact .pure ⟨he, Expr.isConstant_eq_false hc, by omega⟩

end Constructors

def Expr.updates : Expr → UpdateNode
  | .read _ head _ => head
  | _ => .nil

theorem Expr.recreate_canonical (opt : Bool) (e : Expr) (hkids : ∀ k ∈ e.kids, k.Canonical)
    (hupdates : e.updates.Canonical) : CanonicalResult (e.recreate opt) := by
  cases e with
  | constant v => exact .pure trivial
  | notOptimized src => exact .pure (hkids src (.head _))
  | read root head index => exact ReadExpr.create_canonical opt hupdates (hkids index (.head _))
  | select c t f =>
    exact SelectExpr.create_canonical opt (hkids c (.head _)) (hkids t (.tail _ (.head _)))
      (hkids f (.tail _ (.tail _ (.head _))))
  | concat l r => exact ConcatExpr.create_canonical (hkids l (.head _)) (hkids r (.tail _ (.head _)))
  | extract e off w => exact ExtractExpr.create_canonical (hkids e (.head _))
  | cast kind e w => exact CastExpr.create_canonical (hkids e (.head _))
  | not e => exact NotExpr.create_canonical (hkids e (.head _))
  | binary kind l r => exact kind.create_canonical opt (hkids l (.head _)) (hkids r (.tail _ (.head _)))
  | cmp kind l r => exact kind.create_canonical opt (hkids l (.head _)) (hkids r (.tail _ (.head _)))

mutual

inductive Expr.Created (opt : Bool) : Expr → Prop
  | create {p e : Expr} (hkids : ∀ k ∈ p.kids, k.Created opt) (hupdates : p.updates.Created opt)
      (he : p.recreate opt = some e) : e.Created opt

inductive UpdateNode.Created (opt : Bool) : UpdateNode → Prop
  | nil : UpdateNode.Created opt .nil
  | extend {index value : Expr} {next : UpdateNode} (hindex : index.Created opt) (hvalue : value.Created opt)
      (hnext : next.Created opt) : (UpdateNode.cons index value next).Created opt

end

mutual

theorem Expr.Created.canonical {opt : Bool} {e : Expr} : e.Created opt → e.Canonical
  | .create hkids hupdates he =>
    Expr.recreate_canonical opt _ (fun k hk => (hkids k hk).canonical) hupdates.canonical e he

theorem UpdateNode.Created.canonical {opt : Bool} {u : UpdateNode} : u.Created opt → u.Canonical
  | .nil => trivial
  | .extend hindex hvalue hnext => ⟨hindex.canonical, hvalue.canonical, hnext.canonical⟩

end

end CgsKlee
