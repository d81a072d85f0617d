import CgsKlee.Expr.EqSound

/-!
# A weight that no constructor increases

Smart constructors may return more nodes than they get: a negated disjunction becomes a conjunction of negations, and
an equation with a read of a constant array becomes a disjunction of up to a hundred equations.  The `weight` of an
expression counts its reads, each a hundred times over for what is in its index, and its nodes that only have
constants below them.  Constants have no weight and everything else has, and `Expr.recreate_weight` says that a
constructor returns nothing heavier than its operands.  So the replacement of anything by a constant can be repeated
only finitely often.
-/

namespace CgsKlee

mutual

def Expr.weight : Expr → Nat
  | .constant _ => 0
  | .notOptimized src => src.weight + 1
  | .read _ head index => head.weight + 100 * index.weight + 1
  | .select cond trueExpr falseExpr => max 1 (cond.weight + trueExpr.weight + falseExpr.weight)
  | .concat left right => max 1 (left.weight + right.weight)
  | .extract expr _ _ => max 1 expr.weight
  | .cast _ src _ => max 1 src.weight
  | .not expr => max 1 expr.weight
  | .binary _ left right => max 1 (left.weight + right.weight)
  | .cmp _ left right => max 1 (left.weight + right.weight)

def UpdateNode.weight : UpdateNode → Nat
  | .nil => 0
  | .cons index value next => index.weight + value.weight + next.weight

end

attribute [local simp] Expr.weight

def Expr.operandsWeight : Expr → Nat
  | .constant _ => 0
  | .notOptimized src => src.weight + 1
  | .read _ head index => head.weight + 100 * index.weight + 1
  | .select cond trueExpr falseExpr => cond.weight + trueExpr.weight + falseExpr.weight
  | .concat left right => left.weight + right.weight
  | .extract expr _ _ => expr.weight
  | .cast _ src _ => src.weight
  | .not expr => expr.weight
  | .binary _ left right => left.weight + right.weight
  | .cmp _ left right => left.weight + right.weight

def Lighter (n : Nat) (result : Option Expr) : Prop := ∀ e, result = some e → e.weight ≤ n

variable {l r e : Expr} {c : APInt} {n n' : Nat} {x : Option Expr}

theorem Expr.one_le_weight (h : ∀ c, e = .constant c → False) : 1 ≤ e.weight := by
  cases e with
  | constant c => exact absurd rfl (h c)
  | notOptimized | read => simp
  | select | concat | extract | cast | not | binary | cmp => simp

theorem Expr.one_le_weight_add (h : ∀ c c', l = .constant c → r = .constant c' → False) :
    1 ≤ l.weight + r.weight := by
  by_cases hl : ∃ c, l = .constant c
  · obtain ⟨c, rfl⟩ := hl
    have := Expr.one_le_weight fun c' hr => h c c' rfl hr
    omega
  · have := Expr.one_le_weight fun c hc => hl ⟨c, hc⟩
    omega

namespace Lighter

theorem none : Lighter n none := nofun

theorem pure (h : e.weight ≤ n) : Lighter n (some e) := by
  rintro _ ⟨rfl⟩
  exact h

theorem mono (hx : Lighter n x) (h : n ≤ n') : Lighter n' x := fun e he => (hx e he).trans h

theorem bind {f : Expr → Option Expr} (hx : Lighter n x) (hf : ∀ e, e.weight ≤ n → Lighter n' (f e)) :
    Lighter n' (x >>= f) := by
  intro e he
  obtain ⟨y, rfl, hy⟩ := Option.bind_eq_some_iff.mp he
  exact hf y (hx y rfl) e hy

theorem ite {p : Prop} [Decidable p] {y : Option Expr} (hx : p → Lighter n x) (hy : ¬p → Lighter n y) :
    Lighter n (if p then x else y) := by
  split
  · rename_i h
    exact hx h
  · rename_i h
    exact hy h

end Lighter

theorem createR_lighter {fold : APInt → APInt → APInt} {partialL : Expr → APInt → Option Expr}
    {partialR : APInt → Expr → Option Expr} {create : Expr → Expr → Option Expr}
    (hR : ∀ c, Lighter (max 1 r.weight) (partialR c r)) (hL : ∀ c, Lighter (max 1 l.weight) (partialL l c))
    (hcreate : Lighter (max 1 (l.weight + r.weight)) (create l r)) :
    Lighter (l.weight + r.weight) (createR fold partialL partialR create l r) := by
  unfold createR
  refine Lighter.ite (fun _ => ?_) fun _ => Lighter.none
  split
  · exact Lighter.pure (Nat.zero_le _)
  · rename_i hr
    have := Expr.one_le_weight hr
    exact (hR _).mono (by omega)
  · rename_i hl _
    have := Expr.one_le_weight hl
    exact (hL _).mono (by omega)
  · rename_i hl hr _
    have := Expr.one_le_weight hl
    exact hcreate.mono (by omega)

theorem createB_lighter {fold : APInt → APInt → APInt} {create : Expr → Expr → Option Expr}
    (hcreate : Lighter (max 1 (l.weight + r.weight)) (create l r)) :
    Lighter (l.weight + r.weight) (createB fold create l r) := by
  unfold createB
  refine Lighter.ite (fun _ => ?_) fun _ => Lighter.none
  split
  · exact Lighter.pure (Nat.zero_le _)
  · rename_i h
    have := Expr.one_le_weight_add h
    exact hcreate.mono (by omega)

theorem AndExpr.createPartial_lighter : Lighter (max 1 l.weight) (AndExpr.createPartial l c) := by
  refine Lighter.ite (fun _ => Lighter.pure (by omega)) fun _ => Lighter.ite (fun _ => ?_) fun _ => ?_
  · exact Lighter.pure (Nat.zero_le _)
  · exact Lighter.pure le_rfl

theorem AndExpr.create_lighter : Lighter (l.weight + r.weight) (AndExpr.create l r) :=
  createR_lighter (fun _ => AndExpr.createPartial_lighter) (fun _ => AndExpr.createPartial_lighter)
    (Lighter.pure le_rfl)

theorem OrExpr.createPartial_lighter : Lighter (max 1 l.weight) (OrExpr.createPartial l c) := by
  refine Lighter.ite (fun _ => ?_) fun _ => Lighter.ite (fun _ => Lighter.pure (by omega)) fun _ => ?_
  · exact Lighter.pure (Nat.zero_le _)
  · exact Lighter.pure le_rfl

theorem OrExpr.create_lighter : Lighter (l.weight + r.weight) (OrExpr.create l r) :=
  createR_lighter (fun _ => OrExpr.createPartial_lighter) (fun _ => OrExpr.createPartial_lighter)
    (Lighter.pure le_rfl)

theorem EqExpr.plain_lighter : Lighter (max 1 (l.weight + r.weight)) (EqExpr.plain l r) :=
  Lighter.ite (fun _ => Lighter.pure (Nat.zero_le _)) fun _ => Lighter.pure le_rfl

theorem EqExpr.plain_constant_lighter : Lighter (max 1 r.weight) (EqExpr.plain (.constant c) r) :=
  EqExpr.plain_lighter.mono (by simp only [Expr.weight]; omega)

theorem EqExpr.withConstant_lighter (hx : Lighter (max 1 e.weight) x) :
    Lighter e.weight (EqExpr.withConstant e c x) := by
  unfold EqExpr.withConstant
  refine Lighter.ite (fun _ => ?_) fun _ => Lighter.none
  split
  · exact Lighter.pure (Nat.zero_le _)
  · rename_i h
    have := Expr.one_le_weight h
    exact hx.mono (by omega)

theorem EqExpr.matchPositions_lighter {cl : APInt} {mayBe : Nat → Option Expr} {w : Nat}
    (hmayBe : ∀ i, Lighter w (mayBe i)) : ∀ (values : List APInt) (i numMatches : Nat) (res : Expr),
    numMatches ≤ 100 → res.weight ≤ numMatches * w → ∀ out,
    EqExpr.matchPositions cl mayBe values i numMatches res = some (some out) → out.weight ≤ 100 * w := by
  intro values
  induction values with
  | nil =>
    intro i numMatches res hn hres out hout
    obtain rfl : res = out := by simpa [EqExpr.matchPositions] using hout
    exact hres.trans (Nat.mul_le_mul_right w hn)
  | cons value values ih =>
    intro i numMatches res hn hres out hout
    unfold EqExpr.matchPositions at hout
    split at hout
    · split at hout
      · simp at hout
      · obtain ⟨index, hindex, hout⟩ := Option.bind_eq_some_iff.mp hout
        obtain ⟨or, hor, hout⟩ := Option.bind_eq_some_iff.mp hout
        have hw := hmayBe i index hindex
        have hwor := OrExpr.create_lighter or hor
        refine ih (i + 1) (numMatches + 1) or (by omega) ?_ out hout
        rw [Nat.succ_mul]
        omega
    · exact ih (i + 1) numMatches res hn hres out hout

section ConstArrayOpt

variable (constArrayOpt : Bool)

theorem EqExpr.createPartialR_lighter (cl : APInt) (r : Expr) :
    Lighter (max 1 r.weight) (EqExpr.createPartialR constArrayOpt cl r) := by
  fun_induction EqExpr.createPartialR constArrayOpt cl r with
  | case1 cl r => exact Lighter.pure (by omega)
  | case2 cl h1 htrue c right hc => exact Lighter.pure (by simp only [Expr.weight]; omega)
  | case4 cl h1 htrue left right ihLeft ihRight =>
    refine Lighter.bind (EqExpr.withConstant_lighter ihLeft) fun l' hl' => ?_
    refine Lighter.bind (EqExpr.withConstant_lighter ihRight) fun r' hr' => ?_
    exact AndExpr.create_lighter.mono (by simp only [Expr.weight]; omega)
  | case6 cl h1 src w trunc hcl ih | case8 cl h1 src w trunc hcl ih =>
    exact (EqExpr.withConstant_lighter ih).mono (by simp only [Expr.weight]; omega)
  | case7 cl h1 src w trunc hcl | case9 cl h1 src w trunc hcl => exact Lighter.pure (Nat.zero_le _)
  | case10 cl h1 c right hc ih | case12 cl h1 c right hc ih =>
    exact ih.mono (by simp only [Expr.weight]; omega)
  | case11 | case13 => exact Lighter.none
  | case15 cl h1 root head index hopt hroot mayBe ih =>
    intro e he
    obtain ⟨out, hout, he⟩ := Option.bind_eq_some_iff.mp he
    cases out with
    | some res =>
      obtain rfl : res = e := Option.some.inj he
      have hres := EqExpr.matchPositions_lighter (fun i => EqExpr.withConstant_lighter (ih i)) _ 0 0 _ (by omega)
        (Nat.zero_le _) res hout
      simp only [Expr.weight]
      omega
    | none => exact EqExpr.plain_constant_lighter e he
  | case3 | case5 | case14 | case16 | case17 => exact EqExpr.plain_constant_lighter

theorem EqExpr.create_lighter : Lighter (l.weight + r.weight) (EqExpr.create constArrayOpt l r) :=
  createR_lighter (fun c => EqExpr.createPartialR_lighter constArrayOpt c r)
    (fun c => EqExpr.createPartialR_lighter constArrayOpt c l) EqExpr.plain_lighter

theorem Expr.createIsZero_lighter : Lighter e.weight (e.createIsZero constArrayOpt) :=
  EqExpr.create_lighter constArrayOpt

theorem XorExpr.createPartialR_lighter (cl : APInt) (r : Expr) :
    Lighter (max 1 r.weight) (XorExpr.createPartialR constArrayOpt cl r) := by
  refine Lighter.ite (fun _ => Lighter.pure (by omega)) fun _ => Lighter.ite (fun _ => ?_) fun _ => ?_
  · exact EqExpr.createPartialR_lighter constArrayOpt _ r
  · exact Lighter.pure (by simp only [Expr.weight]; omega)

theorem XorExpr.create_lighter : Lighter (l.weight + r.weight) (XorExpr.create constArrayOpt l r) :=
  createR_lighter (fun c => XorExpr.createPartialR_lighter constArrayOpt c r)
    (fun c => XorExpr.createPartialR_lighter constArrayOpt c l) (Lighter.pure le_rfl)

theorem withConstantL_lighter {kind : BinaryKind} (hx : Lighter (max 1 r.weight) x) :
    Lighter r.weight (withConstantL kind c r x) := by
  unfold withConstantL
  refine Lighter.ite (fun _ => ?_) fun _ => Lighter.none
  split
  · exact Lighter.pure (Nat.zero_le _)
  · rename_i h
    have := Expr.one_le_weight h
    exact hx.mono (by omega)

private theorem folded_lighter {kind : BinaryKind} {a b : APInt} {f : APInt → Option Expr}
    (hf : ∀ ab, Lighter n (f ab)) : Lighter n (foldConstants kind a b >>= f) := by
  intro e he
  obtain ⟨ab, -, hab⟩ := Option.bind_eq_some_iff.mp he
  exact hf ab e hab

theorem sum_createPartialR_lighter (cl : APInt) (r : Expr) :
    Lighter (max 1 r.weight) (AddExpr.createPartialR constArrayOpt cl r) ∧
    Lighter (max 1 r.weight) (SubExpr.createPartialR constArrayOpt cl r) := by
  induction hn : r.nodes using Nat.strong_induction_on generalizing cl r with
  | _ n ih =>
  subst hn
  have hrest : ∀ {kind : BinaryKind} {b : APInt} {c : Expr}, r = .binary kind (.constant b) c → ∀ ab,
      Lighter (max 1 r.weight) (withConstantL .add ab c (AddExpr.createPartialR constArrayOpt ab c)) ∧
      Lighter (max 1 r.weight) (withConstantL .sub ab c (SubExpr.createPartialR constArrayOpt ab c)) := by
    rintro kind b c rfl ab
    obtain ⟨hadd, hsub⟩ := ih c.nodes (by simp only [Expr.nodes]; omega) ab c rfl
    have hle : c.weight ≤ max 1 (Expr.binary kind (.constant b) c).weight := by simp only [Expr.weight]; omega
    exact ⟨(withConstantL_lighter hadd).mono hle, (withConstantL_lighter hsub).mono hle⟩
  have hxor := XorExpr.createPartialR_lighter constArrayOpt cl r
  constructor
  · unfold AddExpr.createPartialR
    refine Lighter.ite (fun _ => hxor) fun _ => Lighter.ite (fun _ => Lighter.pure (by omega)) fun _ => ?_
    split
    · exact folded_lighter fun ab => (hrest rfl ab).1
    · exact folded_lighter fun ab => (hrest rfl ab).2
    · exact Lighter.pure (by simp only [Expr.weight]; omega)
  · unfold SubExpr.createPartialR
    refine Lighter.ite (fun _ => hxor) fun _ => ?_
    split
    · exact folded_lighter fun ab => (hrest rfl ab).2
    · exact folded_lighter fun ab => (hrest rfl ab).1
    · exact Lighter.pure (by simp only [Expr.weight]; omega)

theorem AddExpr.createL_lighter : Lighter r.weight (AddExpr.createL constArrayOpt c r) :=
  withConstantL_lighter (sum_createPartialR_lighter constArrayOpt c r).1

theorem SubExpr.createL_lighter : Lighter r.weight (SubExpr.createL constArrayOpt c r) :=
  withConstantL_lighter (sum_createPartialR_lighter constArrayOpt c r).2

theorem SubExpr.createConstantR_lighter : Lighter l.weight (SubExpr.createConstantR constArrayOpt l c) := by
  unfold SubExpr.createConstantR
  refine Lighter.ite (fun _ => ?_) fun _ => Lighter.none
  split
  · exact Lighter.pure (Nat.zero_le _)
  · rename_i h
    have := Expr.one_le_weight h
    exact (sum_createPartialR_lighter constArrayOpt _ l).1.mono (by omega)

theorem sum_create_lighter (l r : Expr) : Lighter (l.weight + r.weight) (AddExpr.create constArrayOpt l r) ∧
    Lighter (l.weight + r.weight) (SubExpr.create constArrayOpt l r) := by
  induction hn : l.nodes + r.nodes using Nat.strong_induction_on generalizing l r with
  | _ n ih =>
  subst hn
  constructor
  · unfold AddExpr.create
    refine Lighter.ite (fun _ => ?_) fun _ => Lighter.none
    split
    · exact Lighter.pure (Nat.zero_le _)
    · rename_i hr
      have := Expr.one_le_weight hr
      exact (sum_createPartialR_lighter constArrayOpt _ _).1.mono (by omega)
    · rename_i hl _
      have := Expr.one_le_weight hl
      exact (sum_createPartialR_lighter constArrayOpt _ _).1.mono (by omega)
    · rename_i hl hr _
      have := Expr.one_le_weight hl
      refine Lighter.ite (fun _ => Lighter.pure (by simp only [Expr.weight]; omega)) fun _ => ?_
      split
      · refine Lighter.bind (ih _ (by simp only [Expr.nodes]; omega) _ _ rfl).1 fun e he => ?_
        exact (AddExpr.createL_lighter constArrayOpt).mono (by simp only [Expr.weight]; omega)
      · refine Lighter.bind (ih _ (by simp only [Expr.nodes]; omega) _ _ rfl).2 fun e he => ?_
        exact (AddExpr.createL_lighter constArrayOpt).mono (by simp only [Expr.weight]; omega)
      · refine Lighter.bind (ih _ (by simp only [Expr.nodes]; omega) _ _ rfl).1 fun e he => ?_
        exact (AddExpr.createL_lighter constArrayOpt).mono (by simp only [Expr.weight]; omega)
      · refine Lighter.bind (ih _ (by simp only [Expr.nodes]; omega) _ _ rfl).2 fun e he => ?_
        exact (AddExpr.createL_lighter constArrayOpt).mono (by simp only [Expr.weight]; omega)
      · exact Lighter.pure (by simp only [Expr.weight]; omega)
  · unfold SubExpr.create
    refine Lighter.ite (fun _ => ?_) fun _ => Lighter.none
    split
    · exact Lighter.pure (Nat.zero_le _)
    · rename_i hr
      have := Expr.one_le_weight hr
      exact (sum_createPartialR_lighter constArrayOpt _ _).2.mono (by omega)
    · rename_i hl _
      have := Expr.one_le_weight hl
      exact (sum_createPartialR_lighter constArrayOpt _ _).1.mono (by omega)
    · rename_i hl hr _
      have := Expr.one_le_weight hl
      refine Lighter.ite (fun _ => Lighter.pure (by simp only [Expr.weight]; omega)) fun _ => ?_
      refine Lighter.ite (fun _ => Lighter.pure (Nat.zero_le _)) fun _ => ?_
      split
      · refine Lighter.bind (ih _ (by simp only [Expr.nodes]; omega) _ _ rfl).2 fun e he => ?_
        exact (AddExpr.createL_lighter constArrayOpt).mono (by simp only [Expr.weight]; omega)
      · refine Lighter.bind (ih _ (by simp only [Expr.nodes]; omega) _ _ rfl).1 fun e he => ?_
        exact (SubExpr.createL_lighter constArrayOpt).mono (by simp only [Expr.weight]; omega)
      · refine Lighter.bind (ih _ (by simp only [Expr.nodes]; omega) _ _ rfl).2 fun e he => ?_
        exact (SubExpr.createConstantR_lighter constArrayOpt).mono (by simp only [Expr.weight]; omega)
      · refine Lighter.bind (ih _ (by simp only [Expr.nodes]; omega) _ _ rfl).1 fun e he => ?_
        exact (SubExpr.createConstantR_lighter constArrayOpt).mono (by simp only [Expr.weight]; omega)
      · exact Lighter.pure (by simp only [Expr.weight]; omega)

theorem MulExpr.createPartialR_lighter : Lighter (max 1 r.weight) (MulExpr.createPartialR c r) := by
  refine Lighter.ite (fun _ => AndExpr.createPartial_lighter) fun _ => Lighter.ite (fun _ => ?_) fun _ => ?_
  · exact Lighter.pure (by omega)
  · refine Lighter.ite (fun _ => Lighter.pure (Nat.zero_le _)) fun _ => Lighter.pure ?_
    simp only [Expr.weight]
    omega

theorem MulExpr.create_lighter : Lighter (l.weight + r.weight) (MulExpr.create l r) :=
  createR_lighter (fun _ => MulExpr.createPartialR_lighter) (fun _ => MulExpr.createPartialR_lighter)
    (Lighter.ite (fun _ => Lighter.pure le_rfl) fun _ => Lighter.pure le_rfl)

theorem createDivision_lighter {kind : BinaryKind} {bool : Expr → Expr} (hbool : ∀ l, (bool l).weight ≤ l.weight) :
    Lighter (l.weight + r.weight) (createDivision kind bool l r) := by
  refine Lighter.ite (fun _ => Lighter.none) fun _ => createB_lighter (Lighter.ite (fun _ => ?_) fun _ => ?_)
  · have := hbool l
    exact Lighter.pure (by omega)
  · exact Lighter.pure le_rfl

theorem andNot_lighter : Lighter (l.weight + r.weight) (andNot constArrayOpt l r) :=
  Lighter.bind (Expr.createIsZero_lighter constArrayOpt) fun _ _ => AndExpr.create_lighter.mono (by omega)

theorem notOr_lighter : Lighter (l.weight + r.weight) (notOr constArrayOpt l r) :=
  Lighter.bind (Expr.createIsZero_lighter constArrayOpt) fun _ _ => OrExpr.create_lighter.mono (by omega)

theorem createB_bool_lighter {fold : APInt → APInt → APInt} {bool node : Expr → Expr → Option Expr}
    (hbool : Lighter (l.weight + r.weight) (bool l r)) (hnode : Lighter (max 1 (l.weight + r.weight)) (node l r)) :
    Lighter (l.weight + r.weight) (createB fold (fun l r => if l.width = 1 then bool l r else node l r) l r) :=
  createB_lighter (Lighter.ite (fun _ => hbool.mono (by omega)) fun _ => hnode)

theorem BinaryKind.create_lighter (kind : BinaryKind) :
    Lighter (l.weight + r.weight) (kind.create constArrayOpt l r) := by
  cases kind with
  | add => exact (sum_create_lighter constArrayOpt l r).1
  | sub => exact (sum_create_lighter constArrayOpt l r).2
  | mul => exact MulExpr.create_lighter
  | udiv | sdiv => exact createDivision_lighter fun _ => le_rfl
  | urem | srem => exact createDivision_lighter fun _ => Nat.zero_le _
  | and => exact AndExpr.create_lighter
  | or => exact OrExpr.create_lighter
  | xor => exact XorExpr.create_lighter constArrayOpt
  | shl | lshr => exact createB_bool_lighter (andNot_lighter constArrayOpt) (Lighter.pure le_rfl)
  | ashr => exact createB_bool_lighter (Lighter.pure (Nat.le_add_right _ _)) (Lighter.pure le_rfl)

theorem UltExpr.create_lighter : Lighter (l.weight + r.weight) (UltExpr.create constArrayOpt l r) :=
  createB_bool_lighter (Lighter.bind (Expr.createIsZero_lighter constArrayOpt) fun _ _ =>
    AndExpr.create_lighter.mono (by omega)) (Lighter.pure le_rfl)

theorem UleExpr.create_lighter : Lighter (l.weight + r.weight) (UleExpr.create constArrayOpt l r) :=
  createB_bool_lighter (notOr_lighter constArrayOpt) (Lighter.pure le_rfl)

theorem SltExpr.create_lighter : Lighter (l.weight + r.weight) (SltExpr.create constArrayOpt l r) :=
  createB_bool_lighter (andNot_lighter constArrayOpt) (Lighter.pure le_rfl)

theorem SleExpr.create_lighter : Lighter (l.weight + r.weight) (SleExpr.create constArrayOpt l r) :=
  createB_bool_lighter (Lighter.bind (Expr.createIsZero_lighter constArrayOpt) fun _ _ =>
    OrExpr.create_lighter.mono (by omega)) (Lighter.pure le_rfl)

theorem CmpKind.create_lighter (kind : CmpKind) : Lighter (l.weight + r.weight) (kind.create constArrayOpt l r) := by
  cases kind with
  | eq => exact EqExpr.create_lighter constArrayOpt
  | ne =>
    refine Lighter.bind (EqExpr.create_lighter constArrayOpt) fun e he => ?_
    exact (EqExpr.create_lighter constArrayOpt).mono (by simp only [Expr.ofBool, Expr.weight]; omega)
  | ult => exact UltExpr.create_lighter constArrayOpt
  | ule => exact UleExpr.create_lighter constArrayOpt
  | slt => exact SltExpr.create_lighter constArrayOpt
  | sle => exact SleExpr.create_lighter constArrayOpt
  | ugt => exact (UltExpr.create_lighter constArrayOpt).mono (by omega)
  | uge => exact (UleExpr.create_lighter constArrayOpt).mono (by omega)
  | sgt => exact (SltExpr.create_lighter constArrayOpt).mono (by omega)
  | sge => exact (SleExpr.create_lighter constArrayOpt).mono (by omega)

theorem SelectExpr.create_lighter {c t f : Expr} :
    Lighter (c.weight + t.weight + f.weight) (SelectExpr.create constArrayOpt c t f) := by
  unfold SelectExpr.create
  refine Lighter.ite (fun _ => ?_) fun _ => Lighter.none
  split
  · refine Lighter.pure ?_
    split <;> omega
  · rename_i hc
    have := Expr.one_le_weight hc
    have hself : Lighter (c.weight + t.weight + f.weight) (some (.select c t f)) :=
      Lighter.pure (by simp only [Expr.weight]; omega)
    refine Lighter.ite (fun _ => Lighter.pure (by omega)) fun _ => Lighter.ite (fun _ => ?_) fun _ => hself
    split
    · refine Lighter.ite (fun _ => OrExpr.create_lighter.mono (by omega)) fun _ => ?_
      exact Lighter.bind (Expr.createIsZero_lighter constArrayOpt) fun _ _ =>
        AndExpr.create_lighter.mono (by omega)
    · refine Lighter.ite (fun _ => ?_) fun _ => AndExpr.create_lighter.mono (by omega)
      exact Lighter.bind (Expr.createIsZero_lighter constArrayOpt) fun _ _ =>
        OrExpr.create_lighter.mono (by omega)
    · exact hself

theorem ReadExpr.rollback_weight {index : Expr} : ∀ (head : UpdateNode) (out : Expr ⊕ UpdateNode),
    ReadExpr.rollback constArrayOpt index head = some out → out.elim Expr.weight UpdateNode.weight ≤ head.weight
  | .nil, out, hout => by
    obtain rfl : .inr .nil = out := by simpa [ReadExpr.rollback] using hout
    exact le_rfl
  | .cons i value next, out, hout => by
    unfold ReadExpr.rollback at hout
    obtain ⟨eq, -, hout⟩ := Option.bind_eq_some_iff.mp hout
    split at hout
    · split at hout
      · obtain rfl : .inl value = out := Option.some.inj hout
        simp only [UpdateNode.weight, Sum.elim_inl]
        omega
      · have := ReadExpr.rollback_weight next out hout
        simp only [UpdateNode.weight]
        omega
    · obtain rfl : .inr (.cons i value next) = out := Option.some.inj hout
      exact le_rfl

theorem ReadExpr.create_lighter {root : ExprArray} {head : UpdateNode} {index : Expr} :
    Lighter (head.weight + 100 * index.weight + 1) (ReadExpr.create constArrayOpt root head index) := by
  intro e he
  unfold ReadExpr.create at he
  obtain ⟨out, hout, hresult⟩ := Option.bind_eq_some_iff.mp he
  have hw := ReadExpr.rollback_weight constArrayOpt head out hout
  clear he
  revert e
  show Lighter _ _
  cases out with
  | inl value => exact Lighter.pure (by simp only [Sum.elim_inl] at hw; omega)
  | inr un =>
    simp only [Sum.elim_inr] at hw
    have hself : Lighter (head.weight + 100 * index.weight + 1) (some (.read root head index)) := Lighter.pure le_rfl
    dsimp only
    split
    · refine Lighter.ite (fun _ => Lighter.ite (fun _ => Lighter.ite (fun _ => ?_) fun _ => ?_) fun _ => hself)
        fun _ => Lighter.none
      · exact Lighter.pure (Nat.zero_le _)
      · exact Lighter.pure (by simp only [Expr.weight]; omega)
    · exact hself

end ConstArrayOpt

private theorem bounded_lighter_bind {p q : Nat} {x : Option (ExtractBound p)}
    {g : ExtractBound p → Option (ExtractBound q)} (hx : Lighter n (x.map (·.1)))
    (hg : ∀ y, y.1.weight ≤ n → Lighter n' ((g y).map (·.1))) : Lighter n' ((x >>= g).map (·.1)) := by
  cases x with
  | none => exact Lighter.none
  | some y => exact hg y (hx y.1 rfl)

private theorem bounded_lighter_ite {q : Nat} {b : Prop} [Decidable b] {x y : Option (ExtractBound q)}
    (hx : b → Lighter n (x.map (·.1))) (hy : ¬b → Lighter n (y.map (·.1))) :
    Lighter n ((if b then x else y).map (·.1)) := by
  by_cases h : b
  · rw [if_pos h]
    exact hx h
  · rw [if_neg h]
    exact hy h

theorem ConcatExpr.merge_lighter
    {extract : (expr : Expr) → expr.nodes ≤ l.extractedNodes → Nat → Nat → Option (ExtractBound expr.nodes)}
    (hextract : ∀ (expr : Expr) (h : expr.nodes ≤ l.extractedNodes) (off w : Nat),
      Lighter expr.weight ((extract expr h off w).map (·.1))) :
    Lighter (l.weight + r.weight) ((ConcatExpr.merge l r extract).map (·.1)) := by
  unfold ConcatExpr.merge
  split
  · exact Lighter.pure (Nat.zero_le _)
  · refine bounded_lighter_ite (fun _ => (hextract _ (Nat.le_refl _) _ _).mono ?_) fun _ => Lighter.pure ?_
    · simp only [Expr.weight]
      omega
    · simp only [Expr.weight]
      omega
  · rename_i h _
    have : 1 ≤ l.weight + r.weight := by
      refine Expr.one_le_weight_add fun c c' hl hr => ?_
      subst hl hr
      exact h c c' extract rfl rfl HEq.rfl
    exact Lighter.pure (by simp only [Expr.weight]; omega)

theorem ExtractExpr.createBounded_lighter : ∀ (n : Nat) (e : Expr) (off w : Nat), e.nodes ≤ n →
    Lighter e.weight ((ExtractExpr.createBounded e off w).map (·.1)) := by
  intro n
  induction n with
  | zero =>
    intro e off w hn
    cases e <;> simp [Expr.nodes] at hn
  | succ n ih =>
    intro e off w hn
    unfold ExtractExpr.createBounded
    refine bounded_lighter_ite (fun _ => ?_) fun _ => Lighter.none
    refine bounded_lighter_ite (fun _ => Lighter.pure le_rfl) fun _ => ?_
    split
    · exact Lighter.pure (Nat.zero_le _)
    · rename_i left right _ _
      simp only [Expr.nodes] at hn
      refine bounded_lighter_ite (fun _ => ?_) fun _ => bounded_lighter_ite (fun _ => ?_) fun _ => ?_
      · refine bounded_lighter_bind (ih left _ w (by omega)) fun x hx => Lighter.pure ?_
        simp only [Expr.weight]
        omega
      · refine bounded_lighter_bind (ih right _ w (by omega)) fun x hx => Lighter.pure ?_
        simp only [Expr.weight]
        omega
      · refine bounded_lighter_bind (ih left 0 _ (by omega)) fun x hx => ?_
        refine bounded_lighter_bind (ih right off _ (by omega)) fun y hy => ?_
        have hmerge := ConcatExpr.merge_lighter (r := y.1)
          fun expr hexpr off w => ih expr off w (hexpr.trans (x.2.trans (by omega)))
        refine bounded_lighter_bind hmerge fun z hz => Lighter.pure ?_
        simp only [Expr.weight]
        omega
    · rename_i h _
      have := Expr.one_le_weight h
      exact Lighter.pure (by simp only [Expr.weight]; omega)

theorem ExtractExpr.create_lighter {off w : Nat} : Lighter e.weight (ExtractExpr.create e off w) :=
  ExtractExpr.createBounded_lighter e.nodes e off w le_rfl

theorem ConcatExpr.create_lighter : Lighter (l.weight + r.weight) (ConcatExpr.create l r) :=
  ConcatExpr.merge_lighter fun expr _ off w => ExtractExpr.createBounded_lighter expr.nodes expr off w le_rfl

theorem NotExpr.create_lighter : Lighter e.weight (NotExpr.create e) := by
  unfold NotExpr.create
  split
  · exact Lighter.pure (Nat.zero_le _)
  · rename_i h
    have := Expr.one_le_weight h
    exact Lighter.pure (by simp only [Expr.weight]; omega)

theorem CastExpr.create_lighter {kind : CastKind} {w : Nat} : Lighter e.weight (CastExpr.create kind e w) := by
  refine Lighter.ite (fun _ => Lighter.pure le_rfl) fun _ => Lighter.ite (fun _ => ?_) fun _ => ?_
  · exact ExtractExpr.create_lighter
  · split
    · exact Lighter.pure (Nat.zero_le _)
    · rename_i h
      have := Expr.one_le_weight h
      exact Lighter.pure (by simp only [Expr.weight]; omega)

theorem Expr.recreate_weight (constArrayOpt : Bool) (e : Expr) :
    Lighter e.operandsWeight (e.recreate constArrayOpt) := by
  cases e with
  | constant value => exact Lighter.pure le_rfl
  | notOptimized src => exact Lighter.pure le_rfl
  | read root head index => exact ReadExpr.create_lighter constArrayOpt
  | select c t f => exact SelectExpr.create_lighter constArrayOpt
  | concat l r => exact ConcatExpr.create_lighter
  | extract e off w => exact ExtractExpr.create_lighter
  | cast kind src w => exact CastExpr.create_lighter
  | not e => exact NotExpr.create_lighter
  | binary kind l r => exact kind.create_lighter constArrayOpt
  | cmp kind l r => exact kind.create_lighter constArrayOpt

end CgsKlee
