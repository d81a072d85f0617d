import CgsKlee.Expr.Weight

/-!
# Visitors

`ExprVisitor` goes through an expression, replaces subexpressions and rebuilds the nodes above them with the smart
constructors; a recursive visitor then visits what has been rebuilt.  The visitors here replace by constants only, so
the result of a visit is the expression itself or something lighter, and the visit ends.
-/

namespace CgsKlee

namespace Expr

/-- `isa<ConstantExpr>`. -/
def isConstant : Expr → Bool
  | .constant _ => true
  | _ => false

/-- `getKid`.  The updates of a read are no operands. -/
def kids : Expr → List Expr
  | .constant _ => []
  | .notOptimized src => [src]
  | .read _ _ index => [index]
  | .select cond trueExpr falseExpr => [cond, trueExpr, falseExpr]
  | .concat left right => [left, right]
  | .extract expr _ _ => [expr]
  | .cast _ src _ => [src]
  | .not expr => [expr]
  | .binary _ left right => [left, right]
  | .cmp _ left right => [left, right]

def withKids : Expr → List Expr → Expr
  | .notOptimized _, [src] => .notOptimized src
  | .read root head _, [index] => .read root head index
  | .select _ _ _, [cond, trueExpr, falseExpr] => .select cond trueExpr falseExpr
  | .concat _ _, [left, right] => .concat left right
  | .extract _ offset width, [expr] => .extract expr offset width
  | .cast kind _ width, [src] => .cast kind src width
  | .not _, [expr] => .not expr
  | .binary kind _ _, [left, right] => .binary kind left right
  | .cmp kind _ _, [left, right] => .cmp kind left right
  | e, _ => e

def rebuild (constArrayOpt : Bool) (e : Expr) (kids : List Expr) : Option Expr :=
  (e.withKids kids).recreate constArrayOpt

variable {e e' e'' k : Expr}

theorem one_le_weight_of_not_isConstant (h : ¬e.isConstant = true) : 1 ≤ e.weight :=
  one_le_weight fun c hc => h (by rw [hc]; rfl)

theorem length_kids_le (e : Expr) : e.kids.length ≤ 3 := by
  cases e <;> exact Nat.le_of_ble_eq_true rfl

theorem weight_le_of_mem_kids (h : k ∈ e.kids) : k.weight ≤ e.weight := by
  cases e with
  | constant => cases h
  | notOptimized | read | extract | cast | not =>
    obtain rfl := List.mem_singleton.mp h
    simp only [weight]
    omega
  | concat | binary | cmp =>
    rcases List.mem_pair.mp h with rfl | rfl <;> (simp only [weight]; omega)
  | select =>
    rcases List.mem_cons.mp h with rfl | h
    · simp only [weight]
      omega
    · rcases List.mem_pair.mp h with rfl | rfl <;> (simp only [weight]; omega)

theorem nodes_lt_of_mem_kids (h : k ∈ e.kids) : k.nodes < e.nodes := by
  cases e with
  | constant => cases h
  | notOptimized | read | extract | cast | not =>
    obtain rfl := List.mem_singleton.mp h
    simp only [nodes]
    omega
  | concat | binary | cmp =>
    rcases List.mem_pair.mp h with rfl | rfl <;> (simp only [nodes]; omega)
  | select =>
    rcases List.mem_cons.mp h with rfl | h
    · simp only [nodes]
      omega
    · rcases List.mem_pair.mp h with rfl | rfl <;> (simp only [nodes]; omega)

/-- The result of a visit: the expression itself, or a lighter one. -/
def Shrinks (e e' : Expr) : Prop := e' = e ∨ e'.weight < e.weight

theorem Shrinks.weight_le (h : e.Shrinks e') : e'.weight ≤ e.weight := by
  rcases h with rfl | h <;> omega

theorem operandsWeight_withKids_lt {ks : List Expr} (h : List.Forall₂ Shrinks e.kids ks) (hne : ks ≠ e.kids) :
    (e.withKids ks).operandsWeight < e.weight := by
  cases e with
  | constant =>
    cases h
    exact absurd rfl hne
  | notOptimized | read | extract | cast | not =>
    obtain _ | ⟨rfl | h, ⟨⟩⟩ := h
    · exact absurd rfl hne
    · simp only [withKids, operandsWeight, weight]
      omega
  | concat | binary | cmp =>
    obtain _ | ⟨hl, _ | ⟨hr, ⟨⟩⟩⟩ := h
    simp only [withKids, operandsWeight, weight]
    rcases hl with rfl | hl <;> rcases hr with rfl | hr
    · exact absurd rfl hne
    all_goals omega
  | select =>
    obtain _ | ⟨hc, _ | ⟨ht, _ | ⟨hf, ⟨⟩⟩⟩⟩ := h
    simp only [withKids, operandsWeight, weight]
    rcases hc with rfl | hc <;> rcases ht with rfl | ht <;> rcases hf with rfl | hf
    · exact absurd rfl hne
    all_goals omega

end Expr

/-- A visitor that replaces by constants: what `visitExpr` and `visitExprPost` change an expression to, if anything,
and whether what has been rebuilt is visited again. -/
structure Visitor where
  visitExpr : Expr → Option APInt
  visitExprPost : Expr → Option APInt
  recursive : Bool

abbrev Visited (e : Expr) := {e' : Expr // e.Shrinks e'}

/-- `visited`: the results so far. -/
abbrev VisitedMap := List ((e : Expr) × Visited e)

def VisitedMap.find (e : Expr) : VisitedMap → Option (Visited e)
  | [] => none
  | ⟨k, v⟩ :: rest => if h : k = e then some (h ▸ v) else VisitedMap.find e rest

def VisitedMap.insert (e : Expr) (v : Visited e) (visited : VisitedMap) : VisitedMap :=
  if (VisitedMap.find e visited).isSome then visited else ⟨e, v⟩ :: visited

namespace Visitor

variable (constArrayOpt useVisitorHash : Bool) (V : Visitor)

def rebuildLighter (e : Expr) (kids : {ks : List Expr // List.Forall₂ Expr.Shrinks e.kids ks})
    (h : kids.1 ≠ e.kids) : Option {e' : Expr // e'.weight < e.weight} :=
  match hrebuild : e.rebuild constArrayOpt kids.1 with
  | some e' => some ⟨e', (Expr.recreate_weight constArrayOpt _ e' hrebuild).trans_lt
      (Expr.operandsWeight_withKids_lt kids.2 h)⟩
  | none => none

theorem shrinks_constant {e : Expr} (v : Visited e) (h : ¬ v.1.isConstant = true) (c : APInt) :
    e.Shrinks (.constant c) := by
  have := Expr.one_le_weight_of_not_isConstant h
  have := v.2.weight_le
  right
  simp only [Expr.weight]
  omega

/-- The call of `visitExprPost` on what has been rebuilt. -/
def post (e : Expr) (v : Visited e) : Visited e :=
  if h : v.1.isConstant = true then v
  else
    match V.visitExprPost v.1 with
    | some c => ⟨.constant c, shrinks_constant v h c⟩
    | none => v

mutual

def visit (visited : VisitedMap) (e : Expr) : Option (Visited e × VisitedMap) :=
  if useVisitorHash = false ∨ e.isConstant then visitActual visited e
  else
    match VisitedMap.find e visited with
    | some v => some (v, visited)
    | none => do
      let (res, visited) ← visitActual visited e
      some (res, VisitedMap.insert e res visited)
termination_by (e.weight, e.nodes, 5)

def visitActual (visited : VisitedMap) (e : Expr) : Option (Visited e × VisitedMap) :=
  if h : e.isConstant = true then some (⟨e, .inl rfl⟩, visited)
  else
    match V.visitExpr e with
    | some c => some (⟨.constant c, .inr (Expr.one_le_weight_of_not_isConstant h)⟩, visited)
    | none => do
      let (kids, visited) ← visitKids e visited e.kids fun _ hk => hk
      if hne : kids.1 = e.kids then some (V.post e ⟨e, .inl rfl⟩, visited)
      else do
        let e' ← rebuildLighter constArrayOpt e kids hne
        if V.recursive then do
          let (e'', visited) ← visit visited e'.1
          some (V.post e ⟨e''.1, .inr (e''.2.weight_le.trans_lt e'.2)⟩, visited)
        else some (V.post e ⟨e'.1, .inr e'.2⟩, visited)
termination_by (e.weight, e.nodes, 4)
decreasing_by
  · exact Prod.Lex.right _ (Prod.Lex.right _ (Nat.lt_succ_of_le e.length_kids_le))
  · exact Prod.Lex.left _ _ e'.2

def visitKids (e : Expr) (visited : VisitedMap) (ks : List Expr) (h : ∀ k ∈ ks, k ∈ e.kids) :
    Option ({ks' : List Expr // List.Forall₂ Expr.Shrinks ks ks'} × VisitedMap) :=
  match ks with
  | [] => some (⟨[], .nil⟩, visited)
  | k :: ks => do
    let (k', visited) ← visit visited k
    let (ks', visited) ← visitKids e visited ks fun k hk => h k (.tail _ hk)
    some (⟨k'.1 :: ks'.1, .cons k'.2 ks'.2⟩, visited)
termination_by (e.weight, e.nodes, ks.length)
decreasing_by
  · have hk := h k (.head _)
    rcases Nat.lt_or_eq_of_le (Expr.weight_le_of_mem_kids hk) with hw | hw
    · exact Prod.Lex.left _ _ hw
    · rw [hw]
      exact Prod.Lex.right _ (Prod.Lex.left _ _ (Expr.nodes_lt_of_mem_kids hk))
  · exact Prod.Lex.right _ (Prod.Lex.right _ (Nat.lt_succ_self _))

end

end Visitor

end CgsKlee
