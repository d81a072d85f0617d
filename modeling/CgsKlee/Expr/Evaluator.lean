import CgsKlee.Expr.VisitorSound

/-!
# Evaluation

`ExprEvaluator` replaces the reads of initial contents by what `getInitialValue` gives and folds what has become
constant.  A divisor that becomes zero is left as it was.  If `getInitialValue` is right under some assignments, so is
the result, which need not be a constant.

The indices that are read are cut to 32 bits, so the arrays must have no more bits in an index (`ShortIndices`).  The
results of earlier visits, which are kept by expression, are what a new visit would give and are left out.
-/

namespace CgsKlee

open ConstantExpr

mutual

def Expr.ForallArrays (P : ExprArray → Prop) : Expr → Prop
  | .constant _ => True
  | .notOptimized src => src.ForallArrays P
  | .read root head index => P root ∧ head.ForallArrays P ∧ index.ForallArrays P
  | .select cond trueExpr falseExpr => cond.ForallArrays P ∧ trueExpr.ForallArrays P ∧ falseExpr.ForallArrays P
  | .concat left right => left.ForallArrays P ∧ right.ForallArrays P
  | .extract expr _ _ => expr.ForallArrays P
  | .cast _ src _ => src.ForallArrays P
  | .not expr => expr.ForallArrays P
  | .binary _ left right => left.ForallArrays P ∧ right.ForallArrays P
  | .cmp _ left right => left.ForallArrays P ∧ right.ForallArrays P

def UpdateNode.ForallArrays (P : ExprArray → Prop) : UpdateNode → Prop
  | .nil => True
  | .cons index value next => index.ForallArrays P ∧ value.ForallArrays P ∧ next.ForallArrays P

end

mutual

theorem Expr.ForallArrays.map₂ {P Q R : ExprArray → Prop} (h : ∀ a, P a → Q a → R a) :
    ∀ e : Expr, e.ForallArrays P → e.ForallArrays Q → e.ForallArrays R
  | .constant _, _, _ => trivial
  | .notOptimized src, hp, hq => Expr.ForallArrays.map₂ h src hp hq
  | .read root head index, hp, hq =>
    ⟨h root hp.1 hq.1, UpdateNode.ForallArrays.map₂ h head hp.2.1 hq.2.1, Expr.ForallArrays.map₂ h index hp.2.2 hq.2.2⟩
  | .select c t f, hp, hq =>
    ⟨Expr.ForallArrays.map₂ h c hp.1 hq.1, Expr.ForallArrays.map₂ h t hp.2.1 hq.2.1,
      Expr.ForallArrays.map₂ h f hp.2.2 hq.2.2⟩
  | .concat l r, hp, hq => ⟨Expr.ForallArrays.map₂ h l hp.1 hq.1, Expr.ForallArrays.map₂ h r hp.2 hq.2⟩
  | .extract e _ _, hp, hq => Expr.ForallArrays.map₂ h e hp hq
  | .cast _ e _, hp, hq => Expr.ForallArrays.map₂ h e hp hq
  | .not e, hp, hq => Expr.ForallArrays.map₂ h e hp hq
  | .binary _ l r, hp, hq => ⟨Expr.ForallArrays.map₂ h l hp.1 hq.1, Expr.ForallArrays.map₂ h r hp.2 hq.2⟩
  | .cmp _ l r, hp, hq => ⟨Expr.ForallArrays.map₂ h l hp.1 hq.1, Expr.ForallArrays.map₂ h r hp.2 hq.2⟩

theorem UpdateNode.ForallArrays.map₂ {P Q R : ExprArray → Prop} (h : ∀ a, P a → Q a → R a) :
    ∀ u : UpdateNode, u.ForallArrays P → u.ForallArrays Q → u.ForallArrays R
  | .nil, _, _ => trivial
  | .cons i v n, hp, hq =>
    ⟨Expr.ForallArrays.map₂ h i hp.1 hq.1, Expr.ForallArrays.map₂ h v hp.2.1 hq.2.1,
      UpdateNode.ForallArrays.map₂ h n hp.2.2 hq.2.2⟩

end

theorem Expr.ForallArrays.mono {P Q : ExprArray → Prop} (h : ∀ a, P a → Q a) (e : Expr) (he : e.ForallArrays P) :
    e.ForallArrays Q :=
  Expr.ForallArrays.map₂ (fun a hp _ => h a hp) e he he

def Expr.ShortIndices : Expr → Prop := Expr.ForallArrays fun a => a.domain ≤ 32

mutual

theorem Expr.eval_congr {m m' : Valuation} : ∀ e : Expr,
    e.ForallArrays (fun a => a.isSymbolicArray = true → m a = m' a) → e.eval m = e.eval m'
  | .constant _, _ => rfl
  | .notOptimized src, h => src.eval_congr h
  | .read root head index, h => by
    have hinitial : root.initial m = root.initial m' := by
      funext i
      unfold ExprArray.initial
      split
      · rename_i hsym
        rw [h.1 hsym]
      · rfl
    simp only [Expr.eval, hinitial, index.eval_congr h.2.2]
    exact head.lookup_congr h.2.1 _ _
  | .select c t f, h => by simp only [Expr.eval, c.eval_congr h.1, t.eval_congr h.2.1, f.eval_congr h.2.2]
  | .concat l r, h => by simp only [Expr.eval, l.eval_congr h.1, r.eval_congr h.2]
  | .extract e _ _, h => by simp only [Expr.eval, e.eval_congr h]
  | .cast _ e _, h => by simp only [Expr.eval, e.eval_congr h]
  | .not e, h => by simp only [Expr.eval, e.eval_congr h]
  | .binary _ l r, h => by simp only [Expr.eval, l.eval_congr h.1, r.eval_congr h.2]
  | .cmp _ l r, h => by simp only [Expr.eval, l.eval_congr h.1, r.eval_congr h.2]

theorem UpdateNode.lookup_congr {m m' : Valuation} : ∀ u : UpdateNode,
    u.ForallArrays (fun a => a.isSymbolicArray = true → m a = m' a) → ∀ (initial : APInt) (i : Nat),
    u.lookup m initial i = u.lookup m' initial i
  | .nil, _, _, _ => rfl
  | .cons index value next, h, initial, i => by
    simp only [UpdateNode.lookup, index.eval_congr h.1, value.eval_congr h.2.1, next.lookup_congr h.2.2]

end

def ConstantExpr.getZExtValue (c : APInt) : Option Nat := if c.width ≤ 64 then some c.toNat else none

namespace ExprEvaluator

def visitExprPost : Expr → Expr
  | .notOptimized src => src
  | e => e

section Evaluate

variable (constArrayOpt : Bool) (getInitialValue : ExprArray → Nat → Option Expr)

def doChildren (e : Expr) (kids : List Expr) : Option Expr :=
  if kids = e.kids then some (visitExprPost e) else (e.rebuild constArrayOpt kids).map visitExprPost

/-- `ExprEvaluator::visitExpr`, before what the visit of the node does otherwise. -/
def visitExpr (e : Expr) (visit : Option Expr) : Option Expr :=
  if e.kids.all Expr.isConstant then e.rebuild constArrayOpt e.kids else visit

def protectedDivOperation (kind : BinaryKind) (left right kid₀ kid₁ : Expr) : Option Expr :=
  -- if the divisor is zero, use the original expression
  let kid₁ :=
    match kid₁ with
    | .constant c => if isZero c then right else .constant c
    | kid₁ => kid₁
  if kid₀ ≠ left ∨ kid₁ ≠ right then (Expr.binary kind left right).rebuild constArrayOpt [kid₀, kid₁]
  else some (.binary kind left right)

mutual

def visit : Expr → Option Expr
  | .constant value => some (.constant value)
  | .read root head index => do
    match ← visit index with
    | .constant c => evalRead root ((← getZExtValue c) % 2 ^ 32) head
    | v => doChildren constArrayOpt (.read root head index) [v]
  | .notOptimized src =>
    visitExpr constArrayOpt (.notOptimized src) do
      doChildren constArrayOpt (.notOptimized src) [← visit src]
  | .select cond trueExpr falseExpr =>
    visitExpr constArrayOpt (.select cond trueExpr falseExpr) do
      doChildren constArrayOpt (.select cond trueExpr falseExpr) [← visit cond, ← visit trueExpr, ← visit falseExpr]
  | .concat left right =>
    visitExpr constArrayOpt (.concat left right) do
      doChildren constArrayOpt (.concat left right) [← visit left, ← visit right]
  | .extract expr offset width =>
    visitExpr constArrayOpt (.extract expr offset width) do
      doChildren constArrayOpt (.extract expr offset width) [← visit expr]
  | .cast kind src width =>
    visitExpr constArrayOpt (.cast kind src width) do
      doChildren constArrayOpt (.cast kind src width) [← visit src]
  | .not expr =>
    visitExpr constArrayOpt (.not expr) do
      doChildren constArrayOpt (.not expr) [← visit expr]
  | .binary kind left right =>
    visitExpr constArrayOpt (.binary kind left right) do
      let kid₀ ← visit left
      let kid₁ ← visit right
      if kind.isDivision then protectedDivOperation constArrayOpt kind left right kid₀ kid₁
      else doChildren constArrayOpt (.binary kind left right) [kid₀, kid₁]
  | .cmp kind left right =>
    visitExpr constArrayOpt (.cmp kind left right) do
      doChildren constArrayOpt (.cmp kind left right) [← visit left, ← visit right]

def evalRead (root : ExprArray) (index : Nat) : UpdateNode → Option Expr
  | .nil =>
    if ¬root.isSymbolicArray ∧ index < root.size then
      some (.constant ⟨root.range, root.constantValues.getD index 0⟩)
    else getInitialValue root index
  | .cons i value next => do
    match ← visit i with
    | .constant c => if (← getZExtValue c) = index then visit value else evalRead root index next
    -- update index is unknown, so may or may not be index
    | _ => ReadExpr.create constArrayOpt root (.cons i value next) (.ofNat root.domain index)

end

end Evaluate

variable {opt : Bool} {getInitialValue : ExprArray → Nat → Option Expr} {H : Valuation → Prop}

/-- What `getInitialValue` gives may take the place of the read of initial contents. -/
def InitialRefines (opt : Bool) (H : Valuation → Prop) (getInitialValue : ExprArray → Nat → Option Expr) : Prop :=
  ∀ {root : ExprArray} {index : Nat} {e' : Expr}, root.WellFormed → root.domain ≤ 32 → index < 2 ^ root.domain →
    (root.isSymbolicArray = true ∨ root.size ≤ index) → getInitialValue root index = some e' →
    (Expr.read root .nil (.ofNat root.domain index)).RefinesOn opt H e'

theorem visitExprPost_refinesOn {e : Expr} (h : e.WellTyped) : e.RefinesOn opt H (visitExprPost e) := by
  cases e with
  | notOptimized src => exact ⟨h, rfl, fun _ _ hd => hd, fun _ _ _ => rfl⟩
  | _ => exact .refl h

theorem doChildren_refinesOn {e e' : Expr} {ks : List Expr} (he : e.WellTyped)
    (h : List.Forall₂ (Expr.RefinesOn opt H) e.kids ks) (he' : doChildren opt e ks = some e') :
    e.RefinesOn opt H e' := by
  unfold doChildren at he'
  split at he'
  · obtain rfl := Option.some.inj he'
    exact visitExprPost_refinesOn he
  · obtain ⟨e'', he'', rfl⟩ := Option.map_eq_some_iff.mp he'
    have href := Expr.rebuild_refinesOn he h he''
    exact href.trans (visitExprPost_refinesOn href.wellTyped)

theorem visitExpr_refinesOn {e e' : Expr} {visit : Option Expr} (he : e.WellTyped)
    (hkids : ∀ k ∈ e.kids, k.WellTyped) (h : visit = some e' → e.RefinesOn opt H e')
    (he' : visitExpr opt e visit = some e') : e.RefinesOn opt H e' := by
  unfold visitExpr at he'
  split at he'
  · refine Expr.rebuild_refinesOn he ?_ he'
    exact List.forall₂_same.mpr fun k hk => .refl (hkids k hk)
  · exact h he'

theorem protectedDivOperation_refinesOn {kind : BinaryKind} {left right kid₀ kid₁ e' : Expr}
    (he : (Expr.binary kind left right).WellTyped) (h₀ : left.RefinesOn opt H kid₀) (h₁ : right.RefinesOn opt H kid₁)
    (he' : protectedDivOperation opt kind left right kid₀ kid₁ = some e') :
    (Expr.binary kind left right).RefinesOn opt H e' := by
  have hdivisor : ∀ kid, kid = kid₁ ∨ kid = right → right.RefinesOn opt H kid := by
    rintro kid (rfl | rfl)
    · exact h₁
    · exact .refl he.2.1
  unfold protectedDivOperation at he'
  extract_lets kid at he'
  have hkid : kid = kid₁ ∨ kid = right := by
    unfold kid
    split
    · split
      · exact Or.inr rfl
      · exact Or.inl rfl
    · exact Or.inl rfl
  split at he'
  · exact Expr.rebuild_refinesOn he (.cons h₀ (.cons (hdivisor kid hkid) .nil)) he'
  · obtain rfl := Option.some.inj he'
    exact .refl he

theorem read_refinesOn_value {root : ExprArray} {index i value : Expr} {next : UpdateNode}
    (h : (Expr.read root (.cons i value next) index).WellTyped)
    (heq : ∀ m, H m → (opt = true → i.Defined m ∧ index.Defined m) → (i.eval m).toNat = (index.eval m).toNat) :
    (Expr.read root (.cons i value next) index).RefinesOn opt H value where
  wellTyped := h.2.1.2.1
  width := h.2.1.2.2.2.2
  defined _ _ hd := hd.1.2.1
  eval m hm hd := (if_pos (heq m hm fun ho => ⟨(hd ho).1.1, (hd ho).2.1⟩)).symm

theorem read_refinesOn_next {root : ExprArray} {index i value : Expr} {next : UpdateNode}
    (h : (Expr.read root (.cons i value next) index).WellTyped)
    (hne : ∀ m, H m → (opt = true → i.Defined m ∧ index.Defined m) → (i.eval m).toNat ≠ (index.eval m).toNat) :
    (Expr.read root (.cons i value next) index).RefinesOn opt H (.read root next index) where
  wellTyped := ⟨h.1, h.2.1.2.2.1, h.2.2⟩
  width := rfl
  defined _ _ hd := ⟨hd.1.2.2, hd.2⟩
  eval m hm hd := (if_neg (hne m hm fun ho => ⟨(hd ho).1.1, (hd ho).2.1⟩)).symm

theorem getZExtValue_eq_some {c : APInt} {n : Nat} (h : getZExtValue c = some n) : n = c.toNat := by
  unfold getZExtValue at h
  split at h
  · exact (Option.some.inj h).symm
  · cases h

mutual

theorem visit_refinesOn (hinit : InitialRefines opt H getInitialValue) : ∀ {e e' : Expr}, e.WellTyped →
    e.ShortIndices → visit opt getInitialValue e = some e' → e.RefinesOn opt H e'
  | .constant _, _, h, _, he' => by
    obtain rfl := Option.some.inj he'
    exact .refl h
  | .read root head index, e', h, hs, he' => by
    unfold visit at he'
    obtain ⟨v, hv, he'⟩ := Option.bind_eq_some_iff.mp he'
    have href := visit_refinesOn hinit h.2.2.1 hs.2.2 hv
    have hread := Expr.withKids_refinesOn h (.cons href .nil)
    split at he'
    · rename_i c
      obtain ⟨n, hn, he'⟩ := Option.bind_eq_some_iff.mp he'
      obtain rfl := getZExtValue_eq_some hn
      have hwidth : c.width = root.domain := href.width.trans h.2.2.2
      have hlt : c.toNat < 2 ^ root.domain := by
        rw [← hwidth]
        exact c.value.isLt
      have hmod : c.toNat % 2 ^ 32 = c.toNat :=
        Nat.mod_eq_of_lt (hlt.trans_le (Nat.pow_le_pow_right (by omega) hs.1))
      rw [hmod] at he'
      have hc : Expr.constant c = .ofNat root.domain c.toNat := by
        obtain ⟨w, x⟩ := c
        obtain rfl : w = root.domain := hwidth
        simp [Expr.ofNat, APInt.ofNat, APInt.toNat]
      rw [hc] at hread
      exact hread.trans (evalRead_refinesOn hinit hread.wellTyped hs.1 hs.2.1 hlt he')
    · exact doChildren_refinesOn h (.cons href .nil) he'
  | .notOptimized src, e', h, hs, he' => by
    unfold visit at he'
    refine visitExpr_refinesOn h (fun k hk => h.kid hk) (fun he' => ?_) he'
    obtain ⟨v, hv, he'⟩ := Option.bind_eq_some_iff.mp he'
    exact doChildren_refinesOn h (.cons (visit_refinesOn hinit h hs hv) .nil) he'
  | .select c t f, e', h, hs, he' => by
    unfold visit at he'
    refine visitExpr_refinesOn h (fun k hk => h.kid hk) (fun he' => ?_) he'
    obtain ⟨c', hc', he'⟩ := Option.bind_eq_some_iff.mp he'
    obtain ⟨t', ht', he'⟩ := Option.bind_eq_some_iff.mp he'
    obtain ⟨f', hf', he'⟩ := Option.bind_eq_some_iff.mp he'
    exact doChildren_refinesOn h (.cons (visit_refinesOn hinit h.1 hs.1 hc')
      (.cons (visit_refinesOn hinit h.2.1 hs.2.1 ht') (.cons (visit_refinesOn hinit h.2.2.1 hs.2.2 hf') .nil))) he'
  | .concat l r, e', h, hs, he' => by
    unfold visit at he'
    refine visitExpr_refinesOn h (fun k hk => h.kid hk) (fun he' => ?_) he'
    obtain ⟨l', hl', he'⟩ := Option.bind_eq_some_iff.mp he'
    obtain ⟨r', hr', he'⟩ := Option.bind_eq_some_iff.mp he'
    exact doChildren_refinesOn h (.cons (visit_refinesOn hinit h.1 hs.1 hl')
      (.cons (visit_refinesOn hinit h.2 hs.2 hr') .nil)) he'
  | .extract e off w, e', h, hs, he' => by
    unfold visit at he'
    refine visitExpr_refinesOn h (fun k hk => h.kid hk) (fun he' => ?_) he'
    obtain ⟨v, hv, he'⟩ := Option.bind_eq_some_iff.mp he'
    exact doChildren_refinesOn h (.cons (visit_refinesOn hinit h.1 hs hv) .nil) he'
  | .cast kind src w, e', h, hs, he' => by
    unfold visit at he'
    refine visitExpr_refinesOn h (fun k hk => h.kid hk) (fun he' => ?_) he'
    obtain ⟨v, hv, he'⟩ := Option.bind_eq_some_iff.mp he'
    exact doChildren_refinesOn h (.cons (visit_refinesOn hinit h.1 hs hv) .nil) he'
  | .not e, e', h, hs, he' => by
    unfold visit at he'
    refine visitExpr_refinesOn h (fun k hk => h.kid hk) (fun he' => ?_) he'
    obtain ⟨v, hv, he'⟩ := Option.bind_eq_some_iff.mp he'
    exact doChildren_refinesOn h (.cons (visit_refinesOn hinit h hs hv) .nil) he'
  | .binary kind l r, e', h, hs, he' => by
    unfold visit at he'
    refine visitExpr_refinesOn h (fun k hk => h.kid hk) (fun he' => ?_) he'
    obtain ⟨l', hl', he'⟩ := Option.bind_eq_some_iff.mp he'
    obtain ⟨r', hr', he'⟩ := Option.bind_eq_some_iff.mp he'
    have hl := visit_refinesOn hinit h.1 hs.1 hl'
    have hr := visit_refinesOn hinit h.2.1 hs.2 hr'
    split at he'
    · exact protectedDivOperation_refinesOn h hl hr he'
    · exact doChildren_refinesOn h (.cons hl (.cons hr .nil)) he'
  | .cmp kind l r, e', h, hs, he' => by
    unfold visit at he'
    refine visitExpr_refinesOn h (fun k hk => h.kid hk) (fun he' => ?_) he'
    obtain ⟨l', hl', he'⟩ := Option.bind_eq_some_iff.mp he'
    obtain ⟨r', hr', he'⟩ := Option.bind_eq_some_iff.mp he'
    exact doChildren_refinesOn h (.cons (visit_refinesOn hinit h.1 hs.1 hl')
      (.cons (visit_refinesOn hinit h.2.1 hs.2 hr') .nil)) he'

theorem evalRead_refinesOn (hinit : InitialRefines opt H getInitialValue) {root : ExprArray} {index : Nat} :
    ∀ {head : UpdateNode} {e' : Expr}, (Expr.read root head (.ofNat root.domain index)).WellTyped →
      root.domain ≤ 32 → head.ForallArrays (fun a => a.domain ≤ 32) → index < 2 ^ root.domain →
      evalRead opt getInitialValue root index head = some e' →
      (Expr.read root head (.ofNat root.domain index)).RefinesOn opt H e'
  | .nil, e', h, hdom, _, hlt, he' => by
    unfold evalRead at he'
    split at he'
    · rename_i hconst
      obtain rfl := Option.some.inj he'
      refine ⟨trivial, rfl, fun _ _ _ => trivial, fun m _ _ => ?_⟩
      have hindex : (APInt.ofNat root.domain index).toNat = index := Nat.mod_eq_of_lt hlt
      simp only [Expr.eval, Expr.eval_ofNat, UpdateNode.lookup, ExprArray.initial, hindex, if_neg hconst.1]
    · rename_i hconst
      refine hinit h.1 hdom hlt ?_ he'
      rw [not_and_or, not_not, not_lt] at hconst
      exact hconst
  | .cons i value next, e', h, hdom, hs, hlt, he' => by
    unfold evalRead at he'
    obtain ⟨v, hv, he'⟩ := Option.bind_eq_some_iff.mp he'
    have href := visit_refinesOn hinit h.2.1.1 hs.1 hv
    split at he'
    · rename_i c
      obtain ⟨n, hn, he'⟩ := Option.bind_eq_some_iff.mp he'
      obtain rfl := getZExtValue_eq_some hn
      have hi : ∀ m, H m → (opt = true → i.Defined m ∧ (Expr.ofNat root.domain index).Defined m) →
          ((i.eval m).toNat = ((Expr.ofNat root.domain index).eval m).toNat ↔ c.toNat = index) := by
        intro m hm hd
        rw [← href.eval m hm fun ho => (hd ho).1]
        simp [Expr.eval, APInt.ofNat, APInt.toNat, Nat.mod_eq_of_lt hlt]
      split at he'
      · rename_i heq
        exact (read_refinesOn_value h fun m hm hd => (hi m hm hd).mpr heq).trans
          (visit_refinesOn hinit h.2.1.2.1 hs.2.1 he')
      · rename_i hne
        have hnext := read_refinesOn_next h fun m hm hd => mt (hi m hm hd).mp hne
        exact hnext.trans (evalRead_refinesOn hinit hnext.wellTyped hdom hs.2.2 hlt he')
    · obtain ⟨e'', he'', hr⟩ := ReadExpr.create_builds opt h
      obtain rfl := Option.some.inj (he''.symm.trans he')
      exact hr.refinesOn

end

/-- Initial contents, or a read of them, are found for every index. -/
def InitialSome (getInitialValue : ExprArray → Nat → Option Expr) : Prop :=
  ∀ {root : ExprArray} {index : Nat}, root.WellFormed → index < 2 ^ root.domain →
    (getInitialValue root index).isSome = true

variable {m₀ : Valuation} {e : Expr} {ks : List Expr}

theorem rebuild_some (he : e.WellTyped) (hks : List.Forall₂ (Expr.RefinesOn opt H) e.kids ks)
    (hdiv : (e.withKids ks).dividesByZero = false) : (e.rebuild opt ks).isSome = true := by
  have hwith := Expr.withKids_refinesOn he hks
  obtain ⟨e', he', -⟩ := (e.withKids ks).recreate_builds opt hwith.wellTyped.operandsTyped hdiv
  rw [Expr.rebuild, he']
  rfl

theorem doChildren_some (he : e.WellTyped) (hks : List.Forall₂ (Expr.RefinesOn opt H) e.kids ks)
    (hdiv : (e.withKids ks).dividesByZero = false) : (doChildren opt e ks).isSome = true := by
  unfold doChildren
  split
  · rfl
  · rw [Option.isSome_map]
    exact rebuild_some he hks hdiv

theorem visitExpr_some {x : Option Expr} (he : e.WellTyped) (hd : e.Defined m₀) (hx : x.isSome = true) :
    (visitExpr opt e x).isSome = true := by
  unfold visitExpr
  split
  · refine rebuild_some (H := fun _ => True) he (List.forall₂_same.mpr fun k hk => .refl (he.kid hk)) ?_
    have hself : e.withKids e.kids = e := by cases e <;> rfl
    rw [hself]
    exact hd.dividesByZero
  · exact hx

theorem protectedDivOperation_some {kind : BinaryKind} {left right kid₀ kid₁ : Expr}
    (he : (Expr.binary kind left right).WellTyped) (hd : (Expr.binary kind left right).Defined m₀)
    (h₀ : left.RefinesOn opt H kid₀) (h₁ : right.RefinesOn opt H kid₁) (hdiv : kind.isDivision = true) :
    (protectedDivOperation opt kind left right kid₀ kid₁).isSome = true := by
  -- the divisor of the new node is no constant zero
  have hrebuild : ∀ kid, right.RefinesOn opt H kid → (∀ c, kid = .constant c → ¬isZero c = true) →
      ((Expr.binary kind left right).rebuild opt [kid₀, kid]).isSome = true := by
    intro kid hkid hzero
    refine rebuild_some he (.cons h₀ (.cons hkid .nil)) (Bool.and_eq_false_imp.mpr fun _ => ?_)
    unfold CgsKlee.dividesByZero
    split
    · exact Bool.eq_false_iff.mpr (hzero _ rfl)
    · rfl
  have hright : ∀ c, right = .constant c → ¬isZero c = true := by
    rintro c rfl
    simpa [isZero, Expr.eval] using hd.2.2 hdiv
  unfold protectedDivOperation
  extract_lets kid
  have hkid : right.RefinesOn opt H kid ∧ ∀ c, kid = .constant c → ¬isZero c = true := by
    unfold kid
    split
    · split
      · exact ⟨.refl he.2.1, hright⟩
      · exact ⟨h₁, fun c' hc' => by cases hc'; assumption⟩
    · rename_i hconst
      exact ⟨h₁, fun c hc => absurd hc (hconst c)⟩
  split
  · exact hrebuild kid hkid.1 hkid.2
  · rfl

mutual

theorem visit_some (hinit : InitialRefines opt H getInitialValue) (hsome : InitialSome getInitialValue) :
    ∀ {e : Expr}, e.WellTyped → e.ShortIndices → e.Defined m₀ → ∃ e', visit opt getInitialValue e = some e'
  | .constant c, _, _, _ => ⟨.constant c, by unfold visit; rfl⟩
  | .read root head index, h, hs, hd => by
    obtain ⟨v, hv⟩ := visit_some hinit hsome h.2.2.1 hs.2.2 hd.2.1
    have href := visit_refinesOn hinit h.2.2.1 hs.2.2 hv
    rw [← Option.isSome_iff_exists]
    unfold visit
    rw [hv, Option.bind_eq_bind, Option.bind_some]
    cases v with
    | constant c =>
      have hwidth : c.width = root.domain := href.width.trans h.2.2.2
      have hlt : c.toNat < 2 ^ root.domain := hwidth ▸ c.toNat_lt
      have hmod : c.toNat % 2 ^ 32 = c.toNat :=
        Nat.mod_eq_of_lt (hlt.trans_le (Nat.pow_le_pow_right (by omega) hs.1))
      unfold getZExtValue
      simp only [if_pos (hwidth.le.trans h.1.domain_le), Option.bind_eq_bind, Option.bind_some, hmod]
      exact evalRead_some hinit hsome h.1 hs.1 h.2.1 hs.2.1 hd.1 hlt
    | _ => exact doChildren_some h (.cons href .nil) rfl
  | .notOptimized src, h, hs, hd => by
    obtain ⟨v, hv⟩ := visit_some hinit hsome (e := src) h hs hd
    rw [← Option.isSome_iff_exists]
    unfold visit
    rw [hv]
    exact visitExpr_some h hd (doChildren_some h (.cons (visit_refinesOn hinit (e := src) h hs hv) .nil) rfl)
  | .select c t f, h, hs, hd => by
    obtain ⟨c', hc⟩ := visit_some hinit hsome h.1 hs.1 hd.1
    obtain ⟨t', ht⟩ := visit_some hinit hsome h.2.1 hs.2.1 hd.2.1
    obtain ⟨f', hf⟩ := visit_some hinit hsome h.2.2.1 hs.2.2 hd.2.2
    rw [← Option.isSome_iff_exists]
    unfold visit
    rw [hc, ht, hf]
    have hkids : List.Forall₂ (Expr.RefinesOn opt H) [c, t, f] [c', t', f'] :=
      .cons (visit_refinesOn hinit h.1 hs.1 hc) (.cons (visit_refinesOn hinit h.2.1 hs.2.1 ht)
        (.cons (visit_refinesOn hinit h.2.2.1 hs.2.2 hf) .nil))
    exact visitExpr_some h hd (doChildren_some h hkids rfl)
  | .concat l r, h, hs, hd => by
    obtain ⟨l', hl⟩ := visit_some hinit hsome h.1 hs.1 hd.1
    obtain ⟨r', hr⟩ := visit_some hinit hsome h.2 hs.2 hd.2
    rw [← Option.isSome_iff_exists]
    unfold visit
    rw [hl, hr]
    have hkids : List.Forall₂ (Expr.RefinesOn opt H) [l, r] [l', r'] :=
      .cons (visit_refinesOn hinit h.1 hs.1 hl) (.cons (visit_refinesOn hinit h.2 hs.2 hr) .nil)
    exact visitExpr_some h hd (doChildren_some h hkids rfl)
  | .extract e off w, h, hs, hd => by
    obtain ⟨v, hv⟩ := visit_some hinit hsome (e := e) h.1 hs hd
    rw [← Option.isSome_iff_exists]
    unfold visit
    rw [hv]
    exact visitExpr_some h hd (doChildren_some h (.cons (visit_refinesOn hinit h.1 hs hv) .nil) rfl)
  | .cast kind e w, h, hs, hd => by
    obtain ⟨v, hv⟩ := visit_some hinit hsome (e := e) h.1 hs hd
    rw [← Option.isSome_iff_exists]
    unfold visit
    rw [hv]
    exact visitExpr_some h hd (doChildren_some h (.cons (visit_refinesOn hinit h.1 hs hv) .nil) rfl)
  | .not e, h, hs, hd => by
    obtain ⟨v, hv⟩ := visit_some hinit hsome (e := e) h hs hd
    rw [← Option.isSome_iff_exists]
    unfold visit
    rw [hv]
    exact visitExpr_some h hd (doChildren_some h (.cons (visit_refinesOn hinit (e := e) h hs hv) .nil) rfl)
  | .binary kind l r, h, hs, hd => by
    obtain ⟨l', hl⟩ := visit_some hinit hsome h.1 hs.1 hd.1
    obtain ⟨r', hr⟩ := visit_some hinit hsome h.2.1 hs.2 hd.2.1
    have hl' := visit_refinesOn hinit h.1 hs.1 hl
    have hr' := visit_refinesOn hinit h.2.1 hs.2 hr
    rw [← Option.isSome_iff_exists]
    unfold visit
    rw [hl, hr]
    refine visitExpr_some h hd ?_
    simp only [Option.bind_eq_bind, Option.bind_some]
    split
    · exact protectedDivOperation_some h hd hl' hr' ‹_›
    · refine doChildren_some h (.cons hl' (.cons hr' .nil)) (Bool.and_eq_false_imp.mpr fun hkind => ?_)
      exact absurd hkind ‹_›
  | .cmp kind l r, h, hs, hd => by
    obtain ⟨l', hl⟩ := visit_some hinit hsome h.1 hs.1 hd.1
    obtain ⟨r', hr⟩ := visit_some hinit hsome h.2.1 hs.2 hd.2
    rw [← Option.isSome_iff_exists]
    unfold visit
    rw [hl, hr]
    have hkids : List.Forall₂ (Expr.RefinesOn opt H) [l, r] [l', r'] :=
      .cons (visit_refinesOn hinit h.1 hs.1 hl) (.cons (visit_refinesOn hinit h.2.1 hs.2 hr) .nil)
    exact visitExpr_some h hd (doChildren_some h hkids rfl)

theorem evalRead_some (hinit : InitialRefines opt H getInitialValue) (hsome : InitialSome getInitialValue)
    {root : ExprArray} {index : Nat} : ∀ {head : UpdateNode}, root.WellFormed → root.domain ≤ 32 →
      head.WellTyped root → head.ForallArrays (fun a => a.domain ≤ 32) → head.Defined m₀ → index < 2 ^ root.domain →
      (evalRead opt getInitialValue root index head).isSome = true
  | .nil, hroot, _, _, _, _, hlt => by
    unfold evalRead
    split
    · rfl
    · exact hsome hroot hlt
  | .cons i value next, hroot, hdom, h, hs, hd, hlt => by
    obtain ⟨v, hv⟩ := visit_some hinit hsome h.1 hs.1 hd.1
    have href := visit_refinesOn hinit h.1 hs.1 hv
    unfold evalRead
    rw [hv, Option.bind_eq_bind, Option.bind_some]
    cases v with
    | constant c =>
      have hwidth : c.width = root.domain := href.width.trans h.2.2.2.1
      unfold getZExtValue
      simp only [if_pos (hwidth.le.trans hroot.domain_le), Option.bind_eq_bind, Option.bind_some]
      split
      · obtain ⟨e', he'⟩ := visit_some hinit hsome h.2.1 hs.2.1 hd.2.1
        rw [he']
        rfl
      · exact evalRead_some hinit hsome hroot hdom h.2.2.1 hs.2.2 hd.2.2 hlt
    | _ =>
      have hread : (Expr.read root (.cons i value next) (.ofNat root.domain index)).WellTyped :=
        ⟨hroot, h, trivial, rfl⟩
      obtain ⟨e', he', -⟩ := ReadExpr.create_builds opt hread
      exact he' ▸ rfl

end

end ExprEvaluator

end CgsKlee
