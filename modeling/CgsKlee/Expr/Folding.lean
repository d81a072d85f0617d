import CgsKlee.Expr.Evaluator
import CgsKlee.Expr.Canonical

/-!
# Folding to constants

A node over constants is folded to a constant, unless it keeps an expression from being optimized or divides by zero.
So evaluation ends with a constant if every array that is read has contents: `ExprEvaluator.visit_constant`.
-/

namespace CgsKlee

open ConstantExpr

mutual

def Expr.NoNotOptimized : Expr → Prop
  | .constant _ => True
  | .notOptimized _ => False
  | .read _ head index => head.NoNotOptimized ∧ index.NoNotOptimized
  | .select cond trueExpr falseExpr => cond.NoNotOptimized ∧ trueExpr.NoNotOptimized ∧ falseExpr.NoNotOptimized
  | .concat left right => left.NoNotOptimized ∧ right.NoNotOptimized
  | .extract expr _ _ => expr.NoNotOptimized
  | .cast _ src _ => src.NoNotOptimized
  | .not expr => expr.NoNotOptimized
  | .binary _ left right => left.NoNotOptimized ∧ right.NoNotOptimized
  | .cmp _ left right => left.NoNotOptimized ∧ right.NoNotOptimized

def UpdateNode.NoNotOptimized : UpdateNode → Prop
  | .nil => True
  | .cons index value next => index.NoNotOptimized ∧ value.NoNotOptimized ∧ next.NoNotOptimized

end

def Expr.isOperation : Expr → Bool
  | .constant _ | .notOptimized _ | .read _ _ _ => false
  | _ => true

def FoldsTo (x : Option Expr) : Prop := ∃ c, x = some (.constant c)

variable {opt : Bool} {m : Valuation} {a b : APInt}

theorem createDivision_folds {kind : BinaryKind} {bool : Expr → Expr} (hw : a.width = b.width) (hb : b.toNat ≠ 0) :
    createDivision kind bool (.constant a) (.constant b) = some (.constant (APInt.map₂ kind.apply a b)) := by
  have hzero : dividesByZero (.constant a) (.constant b) = false := decide_eq_false hb
  unfold createDivision
  rw [hzero, if_neg Bool.false_ne_true]
  exact if_pos hw

theorem BinaryKind.create_folds (kind : BinaryKind) (hw : a.width = b.width)
    (hb : kind.isDivision = true → b.toNat ≠ 0) :
    kind.create opt (.constant a) (.constant b) = some (.constant (APInt.map₂ kind.apply a b)) := by
  cases kind with
  | add =>
    show AddExpr.create opt (.constant a) (.constant b) = _
    unfold AddExpr.create
    exact if_pos hw
  | sub =>
    show SubExpr.create opt (.constant a) (.constant b) = _
    unfold SubExpr.create
    exact if_pos hw
  | udiv | sdiv | urem | srem => exact createDivision_folds hw (hb rfl)
  | mul | and | or | xor | shl | lshr | ashr => exact if_pos hw

theorem CmpKind.create_folds (kind : CmpKind) (hw : a.width = b.width) :
    FoldsTo (kind.create opt (.constant a) (.constant b)) := by
  have heq : ∀ {a b : APInt}, a.width = b.width → EqExpr.create opt (.constant a) (.constant b) =
      some (.constant (APInt.rel₂ CmpKind.eq.apply a b)) := fun h => if_pos h
  cases kind with
  | eq => exact ⟨_, heq hw⟩
  | ne =>
    refine ⟨APInt.rel₂ CmpKind.eq.apply (.ofBool false) (APInt.rel₂ CmpKind.eq.apply a b), ?_⟩
    show (EqExpr.create opt (.constant a) (.constant b)).bind (EqExpr.create opt (.ofBool false)) = _
    rw [heq hw]
    exact heq rfl
  | ult | ule | slt | sle => exact ⟨_, if_pos hw⟩
  | ugt | uge | sgt | sge => exact ⟨_, if_pos hw.symm⟩

theorem ExtractExpr.create_folds {off w : Nat} (h : 0 < w ∧ off + w ≤ a.width) :
    FoldsTo (ExtractExpr.create (.constant a) off w) := by
  unfold FoldsTo ExtractExpr.create ExtractExpr.createBounded
  rw [if_pos (show 0 < w ∧ off + w ≤ (Expr.constant a).width from h)]
  split
  · exact ⟨a, rfl⟩
  · exact ⟨a.extract off w, rfl⟩

theorem CastExpr.create_folds {kind : CastKind} {w : Nat} (h : a.width ≤ w) :
    FoldsTo (CastExpr.create kind (.constant a) w) := by
  unfold FoldsTo CastExpr.create
  split
  · exact ⟨a, rfl⟩
  · rw [if_neg (show ¬w < (Expr.constant a).width from Nat.not_lt.mpr h)]
    exact ⟨_, rfl⟩

theorem Expr.exists_constant {e : Expr} (h : e.isConstant = true) : ∃ c, e = .constant c := by
  cases e with
  | constant c => exact ⟨c, rfl⟩
  | _ => cases h

theorem Expr.recreate_folds {e : Expr} (he : e.WellTyped) (hd : e.Defined m) (hop : e.isOperation = true)
    (hkids : ∀ k ∈ e.kids, k.isConstant = true) : FoldsTo (e.recreate opt) := by
  cases e with
  | constant | notOptimized | read => cases hop
  | select c t f =>
    obtain ⟨c, rfl⟩ := exists_constant (hkids c (.head _))
    obtain ⟨t, rfl⟩ := exists_constant (hkids t (.tail _ (.head _)))
    obtain ⟨f, rfl⟩ := exists_constant (hkids f (.tail _ (.tail _ (.head _))))
    have hselect : SelectExpr.create opt (.constant c) (.constant t) (.constant f) =
        some (if ConstantExpr.isTrue c then .constant t else .constant f) := if_pos he.2.2.2
    unfold FoldsTo
    rw [recreate, hselect]
    split
    · exact ⟨t, rfl⟩
    · exact ⟨f, rfl⟩
  | concat l r =>
    obtain ⟨l, rfl⟩ := exists_constant (hkids l (.head _))
    obtain ⟨r, rfl⟩ := exists_constant (hkids r (.tail _ (.head _)))
    exact ⟨_, rfl⟩
  | extract e off w =>
    obtain ⟨c, rfl⟩ := exists_constant (hkids e (.head _))
    exact ExtractExpr.create_folds he.2
  | cast kind e w =>
    obtain ⟨c, rfl⟩ := exists_constant (hkids e (.head _))
    exact CastExpr.create_folds he.2
  | not e =>
    obtain ⟨c, rfl⟩ := exists_constant (hkids e (.head _))
    exact ⟨_, rfl⟩
  | binary kind l r =>
    obtain ⟨l, rfl⟩ := exists_constant (hkids l (.head _))
    obtain ⟨r, rfl⟩ := exists_constant (hkids r (.tail _ (.head _)))
    exact ⟨_, kind.create_folds he.2.2 hd.2.2⟩
  | cmp kind l r =>
    obtain ⟨l, rfl⟩ := exists_constant (hkids l (.head _))
    obtain ⟨r, rfl⟩ := exists_constant (hkids r (.tail _ (.head _)))
    exact kind.create_folds he.2.2

namespace ExprEvaluator

variable {getInitialValue : ExprArray → Nat → Option Expr} {e : Expr} {ks : List Expr}

theorem isOperation_withKids (e : Expr) (ks : List Expr) : (e.withKids ks).isOperation = e.isOperation := by
  unfold Expr.withKids
  split <;> rfl

theorem kids_withKids (h : ks.length = e.kids.length) : (e.withKids ks).kids = ks := by
  cases e with
  | constant =>
    rw [List.length_eq_zero_iff.mp h]
    rfl
  | notOptimized | read | extract | cast | not =>
    obtain ⟨k, rfl⟩ := List.length_eq_one_iff.mp h
    rfl
  | concat | binary | cmp =>
    obtain ⟨k, k', rfl⟩ := List.length_eq_two.mp h
    rfl
  | select =>
    obtain ⟨k, k', k'', rfl⟩ := List.length_eq_three.mp h
    rfl

theorem rebuild_folds (he : e.WellTyped) (hd : e.Defined m) (hop : e.isOperation = true)
    (href : List.Forall₂ (Expr.RefinesOn opt (· = m)) e.kids ks) (hks : ∀ k ∈ ks, k.isConstant = true) :
    FoldsTo (e.rebuild opt ks) := by
  have hwith := Expr.withKids_refinesOn he href
  refine Expr.recreate_folds hwith.wellTyped (hwith.defined m rfl hd) ((isOperation_withKids e ks).trans hop) ?_
  rw [kids_withKids href.length_eq.symm]
  exact hks

theorem visitExpr_folds {x : Option Expr} (he : e.WellTyped) (hd : e.Defined m) (hop : e.isOperation = true)
    (hx : ¬e.kids.all Expr.isConstant = true → FoldsTo x) : FoldsTo (visitExpr opt e x) := by
  unfold visitExpr
  split
  · rename_i hall
    refine rebuild_folds he hd hop (List.forall₂_same.mpr fun k hk => .refl (he.kid hk)) ?_
    exact List.all_eq_true.mp hall
  · exact hx ‹_›

theorem doChildren_folds (he : e.WellTyped) (hd : e.Defined m) (hop : e.isOperation = true)
    (href : List.Forall₂ (Expr.RefinesOn opt (· = m)) e.kids ks) (hks : ∀ k ∈ ks, k.isConstant = true)
    (hne : ¬e.kids.all Expr.isConstant = true) : FoldsTo (doChildren opt e ks) := by
  obtain ⟨c, hc⟩ := rebuild_folds he hd hop href hks
  have hchanged : ks ≠ e.kids := by
    rintro rfl
    exact hne (List.all_eq_true.mpr hks)
  refine ⟨c, ?_⟩
  unfold doChildren
  rw [if_neg hchanged, hc]
  rfl

theorem protectedDivOperation_folds {kind : BinaryKind} {left right : Expr} {c₀ c₁ : APInt}
    (he : (Expr.binary kind left right).WellTyped) (hd : (Expr.binary kind left right).Defined m)
    (h₀ : left.RefinesOn opt (· = m) (.constant c₀)) (h₁ : right.RefinesOn opt (· = m) (.constant c₁))
    (hdiv : kind.isDivision = true) (hne : ¬(Expr.binary kind left right).kids.all Expr.isConstant = true) :
    FoldsTo (protectedDivOperation opt kind left right (.constant c₀) (.constant c₁)) := by
  have hc₁ : ¬isZero c₁ = true := by
    have heval : c₁ = right.eval m := h₁.eval m rfl fun _ => hd.2.1
    rw [heval]
    simpa [isZero] using hd.2.2 hdiv
  unfold protectedDivOperation
  dsimp only
  rw [if_neg hc₁, if_pos]
  · exact rebuild_folds he hd rfl (.cons h₀ (.cons h₁ .nil)) (by simp [Expr.isConstant])
  · by_contra heq
    rw [not_or, not_not, not_not] at heq
    obtain ⟨rfl, rfl⟩ := heq
    exact hne rfl

theorem refinesOn_value (he : e.WellTyped) : e.RefinesOn opt (· = m) (.constant (e.eval m)) :=
  ⟨trivial, e.width_eval m he, fun _ _ _ => trivial, fun _ hm _ => hm ▸ rfl⟩

def kidValues (m : Valuation) (e : Expr) : List Expr := e.kids.map fun k => .constant (k.eval m)

theorem kidValues_refinesOn (he : e.WellTyped) : List.Forall₂ (Expr.RefinesOn opt (· = m)) e.kids (kidValues m e) :=
  List.forall₂_map_right_iff.mpr (List.forall₂_same.mpr fun _ hk => refinesOn_value (he.kid hk))

theorem isConstant_kidValues : ∀ k ∈ kidValues m e, k.isConstant = true := by
  intro k hk
  obtain ⟨k', -, rfl⟩ := List.mem_map.mp hk
  rfl

theorem visitExpr_value {x : Option Expr} (he : e.WellTyped) (hd : e.Defined m) (hop : e.isOperation = true)
    (hx : ¬e.kids.all Expr.isConstant = true → FoldsTo x)
    (href : ∀ e', x = some e' → e.RefinesOn opt (· = m) e') :
    visitExpr opt e x = some (.constant (e.eval m)) := by
  have hfolds : FoldsTo (visitExpr opt e x) := visitExpr_folds he hd hop hx
  obtain ⟨c, hc⟩ := hfolds
  have hrefines := visitExpr_refinesOn he (fun k hk => he.kid hk) (href _) hc
  have heval : c = e.eval m := hrefines.eval m rfl fun _ => hd
  rw [hc, heval]

theorem doChildren_value (he : e.WellTyped) (hd : e.Defined m) (hop : e.isOperation = true) :
    visitExpr opt e (doChildren opt e (kidValues m e)) = some (.constant (e.eval m)) :=
  visitExpr_value he hd hop (doChildren_folds he hd hop (kidValues_refinesOn he) isConstant_kidValues)
    fun _ he' => doChildren_refinesOn he (kidValues_refinesOn he) he'

end ExprEvaluator

mutual

/-- The expressions that an evaluation visits, where the arrays have the contents `m`. -/
def Expr.visits (m : Valuation) : Expr → List Expr
  | .constant value => [.constant value]
  | .notOptimized src => .notOptimized src :: src.visits m
  | .read root head index =>
    .read root head index :: (index.visits m ++ head.visits m (index.eval m).toNat)
  | .select cond trueExpr falseExpr =>
    .select cond trueExpr falseExpr :: (cond.visits m ++ trueExpr.visits m ++ falseExpr.visits m)
  | .concat left right => .concat left right :: (left.visits m ++ right.visits m)
  | .extract expr offset width => .extract expr offset width :: expr.visits m
  | .cast kind src width => .cast kind src width :: src.visits m
  | .not expr => .not expr :: expr.visits m
  | .binary kind left right => .binary kind left right :: (left.visits m ++ right.visits m)
  | .cmp kind left right => .cmp kind left right :: (left.visits m ++ right.visits m)

def UpdateNode.visits (m : Valuation) (i : Nat) : UpdateNode → List Expr
  | .nil => []
  | .cons index value next =>
    index.visits m ++ if (index.eval m).toNat = i then value.visits m else next.visits m i

end

/-- A `NotOptimizedExpr` of a constant, which evaluation leaves as it is. -/
def Expr.IsStuck (e : Expr) : Prop := ∃ c, e = .notOptimized (.constant c)

mutual

theorem Expr.NoNotOptimized.visits : ∀ e : Expr, e.NoNotOptimized → ∀ s ∈ e.visits m, ¬s.IsStuck
  | .constant c, _, s, hs => by
    obtain rfl := List.mem_singleton.mp hs
    rintro ⟨_, h⟩
    cases h
  | .read root head index, h, s, hs => by
    rcases List.mem_cons.mp hs with rfl | hs
    · rintro ⟨_, h⟩
      cases h
    · rcases List.mem_append.mp hs with hs | hs
      · exact Expr.NoNotOptimized.visits index h.2 s hs
      · exact UpdateNode.NoNotOptimized.visits head h.1 s hs
  | .select c t f, h, s, hs => by
    rcases List.mem_cons.mp hs with rfl | hs
    · rintro ⟨_, h⟩
      cases h
    · rcases List.mem_append.mp hs with hs | hs
      · rcases List.mem_append.mp hs with hs | hs
        · exact Expr.NoNotOptimized.visits c h.1 s hs
        · exact Expr.NoNotOptimized.visits t h.2.1 s hs
      · exact Expr.NoNotOptimized.visits f h.2.2 s hs
  | .concat l r, h, s, hs | .binary _ l r, h, s, hs | .cmp _ l r, h, s, hs => by
    rcases List.mem_cons.mp hs with rfl | hs
    · rintro ⟨_, h⟩
      cases h
    · rcases List.mem_append.mp hs with hs | hs
      · exact Expr.NoNotOptimized.visits l h.1 s hs
      · exact Expr.NoNotOptimized.visits r h.2 s hs
  | .extract e _ _, h, s, hs | .cast _ e _, h, s, hs | .not e, h, s, hs => by
    rcases List.mem_cons.mp hs with rfl | hs
    · rintro ⟨_, h⟩
      cases h
    · exact Expr.NoNotOptimized.visits e h s hs

theorem UpdateNode.NoNotOptimized.visits {i : Nat} : ∀ u : UpdateNode, u.NoNotOptimized →
    ∀ s ∈ u.visits m i, ¬s.IsStuck
  | .cons index value next, h, s, hs => by
    rcases List.mem_append.mp hs with hs | hs
    · exact Expr.NoNotOptimized.visits index h.1 s hs
    · split at hs
      · exact Expr.NoNotOptimized.visits value h.2.1 s hs
      · exact UpdateNode.NoNotOptimized.visits next h.2.2 s hs

end

namespace ExprEvaluator

variable {getInitialValue : ExprArray → Nat → Option Expr}

/-- The indices of the array fit an `unsigned`, and `getInitialValue` gives its contents. -/
def Found (getInitialValue : ExprArray → Nat → Option Expr) (m : Valuation) (a : ExprArray) : Prop :=
  a.WellFormed → a.size ≤ 2 ^ 32 ∧
    (a.isSymbolicArray = true → ∀ i < a.size, getInitialValue a i = some (.constant ⟨a.range, m a i⟩))

mutual

theorem visit_value : ∀ {e : Expr}, e.WellTyped → e.ForallArrays (Found getInitialValue m) → e.Defined m →
    (∀ s ∈ e.visits m, ¬s.IsStuck) → visit opt getInitialValue e = some (.constant (e.eval m))
  | .constant c, _, _, _, _ => by unfold visit; rfl
  | .read root head index, h, ha, hd, hv => by
    have hc := visit_value h.2.2.1 ha.2.2 hd.2.1 fun s hs => hv s (.tail _ (List.mem_append_left _ hs))
    have hwidth : (index.eval m).width ≤ 64 :=
      ((index.width_eval m h.2.2.1).trans h.2.2.2).le.trans h.1.domain_le
    have hmod : (index.eval m).toNat % 2 ^ 32 = (index.eval m).toNat :=
      Nat.mod_eq_of_lt (hd.2.2.trans_le (ha.1 h.1).1)
    unfold visit getZExtValue
    rw [hc]
    simp only [Option.bind_eq_bind, Option.bind_some, if_pos hwidth, hmod]
    exact evalRead_value h.1 h.2.1 ha.1 ha.2.1 hd.1 hd.2.2
      fun s hs => hv s (.tail _ (List.mem_append_right _ hs))
  | .notOptimized src, h, ha, hd, hv => by
    have hc := visit_value (e := src) h ha hd fun s hs => hv s (.tail _ hs)
    have hkids : ¬(Expr.notOptimized src).kids.all Expr.isConstant = true := by
      intro hall
      obtain ⟨c, rfl⟩ := Expr.exists_constant (List.all_eq_true.mp hall src (.head _))
      exact hv _ (.head _) ⟨c, rfl⟩
    have hchanged : [.constant (src.eval m)] ≠ (Expr.notOptimized src).kids := by
      intro heq
      rw [← heq] at hkids
      exact hkids rfl
    unfold visit visitExpr
    rw [if_neg hkids, hc]
    change doChildren opt (.notOptimized src) [.constant (src.eval m)] = _
    unfold doChildren
    rw [if_neg hchanged]
    rfl
  | .select c t f, h, ha, hd, hv => by
    have hc := visit_value h.1 ha.1 hd.1 fun s hs =>
      hv s (.tail _ (List.mem_append_left _ (List.mem_append_left _ hs)))
    have ht := visit_value h.2.1 ha.2.1 hd.2.1 fun s hs =>
      hv s (.tail _ (List.mem_append_left _ (List.mem_append_right _ hs)))
    have hf := visit_value h.2.2.1 ha.2.2 hd.2.2 fun s hs => hv s (.tail _ (List.mem_append_right _ hs))
    unfold visit
    rw [hc, ht, hf]
    exact doChildren_value h hd rfl
  | .concat l r, h, ha, hd, hv => by
    have hl := visit_value h.1 ha.1 hd.1 fun s hs => hv s (.tail _ (List.mem_append_left _ hs))
    have hr := visit_value h.2 ha.2 hd.2 fun s hs => hv s (.tail _ (List.mem_append_right _ hs))
    unfold visit
    rw [hl, hr]
    exact doChildren_value h hd rfl
  | .extract e off w, h, ha, hd, hv => by
    have hc := visit_value (e := e) h.1 ha hd fun s hs => hv s (.tail _ hs)
    unfold visit
    rw [hc]
    exact doChildren_value h hd rfl
  | .cast kind e w, h, ha, hd, hv => by
    have hc := visit_value (e := e) h.1 ha hd fun s hs => hv s (.tail _ hs)
    unfold visit
    rw [hc]
    exact doChildren_value h hd rfl
  | .not e, h, ha, hd, hv => by
    have hc := visit_value (e := e) h ha hd fun s hs => hv s (.tail _ hs)
    unfold visit
    rw [hc]
    exact doChildren_value (e := .not e) h hd rfl
  | .binary kind l r, h, ha, hd, hv => by
    have hl := visit_value h.1 ha.1 hd.1 fun s hs => hv s (.tail _ (List.mem_append_left _ hs))
    have hr := visit_value h.2.1 ha.2 hd.2.1 fun s hs => hv s (.tail _ (List.mem_append_right _ hs))
    have hkids : List.Forall₂ (Expr.RefinesOn opt (· = m)) [l, r] [.constant (l.eval m), .constant (r.eval m)] :=
      kidValues_refinesOn h
    unfold visit
    rw [hl, hr]
    simp only [Option.bind_eq_bind, Option.bind_some]
    split
    · refine visitExpr_value h hd rfl (fun hne => ?_) fun _ he' => ?_
      · exact protectedDivOperation_folds h hd (refinesOn_value h.1) (refinesOn_value h.2.1) ‹_› hne
      · exact protectedDivOperation_refinesOn h (refinesOn_value h.1) (refinesOn_value h.2.1) he'
    · exact doChildren_value h hd rfl
  | .cmp kind l r, h, ha, hd, hv => by
    have hl := visit_value h.1 ha.1 hd.1 fun s hs => hv s (.tail _ (List.mem_append_left _ hs))
    have hr := visit_value h.2.1 ha.2 hd.2 fun s hs => hv s (.tail _ (List.mem_append_right _ hs))
    unfold visit
    rw [hl, hr]
    exact doChildren_value h hd rfl

theorem evalRead_value {root : ExprArray} {index : Nat} (hroot : root.WellFormed) :
    ∀ {head : UpdateNode}, head.WellTyped root → Found getInitialValue m root →
      head.ForallArrays (Found getInitialValue m) → head.Defined m → index < root.size →
      (∀ s ∈ head.visits m index, ¬s.IsStuck) →
      evalRead opt getInitialValue root index head =
        some (.constant (head.lookup m ⟨root.range, root.initial m index⟩ index))
  | .nil, _, hfound, _, _, hlt, _ => by
    unfold evalRead UpdateNode.lookup ExprArray.initial
    cases hsym : root.isSymbolicArray with
    | true => simpa using (hfound hroot).2 hsym index hlt
    | false => simp [hlt]
  | .cons i value next, h, hfound, ha, hd, hlt, hv => by
    have hc := visit_value h.1 ha.1 hd.1 fun s hs => hv s (List.mem_append_left _ hs)
    have hwidth : (i.eval m).width ≤ 64 :=
      ((i.width_eval m h.1).trans h.2.2.2.1).le.trans hroot.domain_le
    unfold evalRead getZExtValue UpdateNode.lookup
    unfold UpdateNode.visits at hv
    rw [hc]
    simp only [Option.bind_eq_bind, Option.bind_some, if_pos hwidth]
    split
    · rename_i heq
      rw [if_pos heq] at hv
      exact visit_value h.2.1 ha.2.1 hd.2.1 fun s hs => hv s (List.mem_append_right _ hs)
    · rename_i hne
      rw [if_neg hne] at hv
      exact evalRead_value hroot h.2.2.1 hfound ha.2.2 hd.2.2 hlt fun s hs => hv s (List.mem_append_right _ hs)

end

def InitialConstant (getInitialValue : ExprArray → Nat → Option Expr) (a : ExprArray) : Prop :=
  a.isSymbolicArray = true → ∀ i < a.size, FoldsTo (getInitialValue a i)

theorem InitialConstant.found (hinit : InitialRefines opt (· = m) getInitialValue) {a : ExprArray}
    (ha : InitialConstant getInitialValue a) (hdom : a.domain ≤ 32) : Found getInitialValue m a := by
  intro hwf
  refine ⟨hwf.size_le.trans (Nat.pow_le_pow_right (by omega) hdom), fun hsym i hi => ?_⟩
  obtain ⟨c, hc⟩ := ha hsym i hi
  have hlt : i < 2 ^ a.domain := hi.trans_le hwf.size_le
  have hindex : (APInt.ofNat a.domain i).toNat = i := Nat.mod_eq_of_lt hlt
  have hdefined : (Expr.read a .nil (.ofNat a.domain i)).Defined m :=
    ⟨trivial, trivial, by rw [Expr.eval_ofNat, hindex]; exact hi⟩
  have heval := (hinit hwf hdom hlt (.inl hsym) hc).eval m rfl fun _ => hdefined
  simp only [Expr.eval, UpdateNode.lookup, ExprArray.initial, hsym, Expr.eval_ofNat, hindex, if_true] at heval
  rw [hc, heval]

theorem visit_constant (hinit : InitialRefines opt (· = m) getInitialValue) {e : Expr} (he : e.WellTyped)
    (hs : e.ShortIndices) (hn : e.NoNotOptimized) (ha : e.ForallArrays (InitialConstant getInitialValue))
    (hd : e.Defined m) : FoldsTo (visit opt getInitialValue e) :=
  ⟨_, visit_value he (Expr.ForallArrays.map₂ (fun _ ha hdom => ha.found hinit hdom) e ha hs) hd
    (Expr.NoNotOptimized.visits e hn)⟩

end ExprEvaluator

end CgsKlee
