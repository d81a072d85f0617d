import CgsKlee.Expr.ConstraintsSound

/-!
# What is left of a constraint set

If `addConstraint` returns, the new set holds exactly where the old set and the new constraint hold, also under
assignments under which parts of the constraints have no value of their own: with the optimization of constant arrays
off the rewriting does not change the value of anything.  Nothing is said about when it returns.
-/

namespace CgsKlee

namespace Visitor

/-- `P` relates expressions for which `Ok` holds to what the steps of the visitor make of them, if they succeed. -/
structure PartialRules (constArrayOpt : Bool) (V : Visitor) (Ok : Expr → Prop) (P : Expr → Expr → Prop) : Prop where
  kid : ∀ {e k}, Ok e → k ∈ e.kids → Ok k
  refl : ∀ {e}, Ok e → P e e
  trans : ∀ {e e' e''}, P e e' → P e' e'' → P e e''
  ok : ∀ {e e'}, Ok e → P e e' → Ok e'
  visitExpr : ∀ {e c}, Ok e → V.visitExpr e = some c → P e (.constant c)
  visitExprPost : ∀ {e c}, Ok e → V.visitExprPost e = some c → P e (.constant c)
  rebuild : ∀ {e ks e'}, Ok e → List.Forall₂ P e.kids ks → e.rebuild constArrayOpt ks = some e' → P e e'

variable {constArrayOpt useVisitorHash : Bool} {V : Visitor} {Ok : Expr → Prop} {P : Expr → Expr → Prop}

theorem PartialRules.post (hV : PartialRules constArrayOpt V Ok P) {e : Expr} {v : Visited e} (he : Ok e)
    (hv : P e v.1) : P e (V.post e v).1 := by
  unfold Visitor.post
  split
  · exact hv
  · split
    · rename_i c hc
      exact hV.trans hv (hV.visitExprPost (hV.ok he hv) hc)
    · exact hv

theorem rebuildLighter_some {e : Expr} {kids : {ks : List Expr // List.Forall₂ Expr.Shrinks e.kids ks}}
    {h : kids.1 ≠ e.kids} {x : {e' : Expr // e'.weight < e.weight}}
    (hx : rebuildLighter constArrayOpt e kids h = some x) : e.rebuild constArrayOpt kids.1 = some x.1 := by
  unfold rebuildLighter at hx
  split at hx
  · rename_i e' he'
    obtain rfl := Option.some.inj hx
    exact he'
  · cases hx

mutual

theorem visit_some (hV : PartialRules constArrayOpt V Ok P) (visited : VisitedMap) (e : Expr) (he : Ok e)
    (hvisited : visited.Holds P) {v : Visited e} {visited' : VisitedMap}
    (h : V.visit constArrayOpt useVisitorHash visited e = some (v, visited')) :
    P e v.1 ∧ VisitedMap.Holds P visited' := by
  unfold Visitor.visit at h
  split at h
  · exact visitActual_some hV visited e he hvisited h
  · split at h
    · rename_i w hw
      obtain ⟨rfl, rfl⟩ := Prod.mk.inj (Option.some.inj h)
      exact ⟨hvisited.find hw, hvisited⟩
    · obtain ⟨⟨w, visited₁⟩, hw, hres⟩ := Option.bind_eq_some_iff.mp h
      obtain ⟨rfl, rfl⟩ := Prod.mk.inj (Option.some.inj hres)
      obtain ⟨hP, hvisited₁⟩ := visitActual_some hV visited e he hvisited hw
      exact ⟨hP, hvisited₁.insert hP⟩
termination_by (e.weight, e.nodes, 5)

theorem visitActual_some (hV : PartialRules constArrayOpt V Ok P) (visited : VisitedMap) (e : Expr) (he : Ok e)
    (hvisited : visited.Holds P) {v : Visited e} {visited' : VisitedMap}
    (h : V.visitActual constArrayOpt useVisitorHash visited e = some (v, visited')) :
    P e v.1 ∧ VisitedMap.Holds P visited' := by
  unfold Visitor.visitActual at h
  split at h
  · obtain ⟨rfl, rfl⟩ := Prod.mk.inj (Option.some.inj h)
    exact ⟨hV.refl he, hvisited⟩
  · split at h
    · rename_i c hc
      obtain ⟨rfl, rfl⟩ := Prod.mk.inj (Option.some.inj h)
      exact ⟨hV.visitExpr he hc, hvisited⟩
    · obtain ⟨⟨ks, visited₁⟩, hks, hrest⟩ := Option.bind_eq_some_iff.mp h
      obtain ⟨hPs, hvisited₁⟩ := visitKids_some hV e he visited e.kids (fun _ hk => hk) hvisited hks
      dsimp only at hrest
      split at hrest
      · obtain ⟨rfl, rfl⟩ := Prod.mk.inj (Option.some.inj hrest)
        exact ⟨hV.post he (hV.refl he), hvisited₁⟩
      · obtain ⟨x, hx, hrest⟩ := Option.bind_eq_some_iff.mp hrest
        have hPx := hV.rebuild he hPs (rebuildLighter_some hx)
        split at hrest
        · obtain ⟨⟨w, visited₂⟩, hw, hrest⟩ := Option.bind_eq_some_iff.mp hrest
          obtain ⟨rfl, rfl⟩ := Prod.mk.inj (Option.some.inj hrest)
          obtain ⟨hPw, hvisited₂⟩ := visit_some hV visited₁ x.1 (hV.ok he hPx) hvisited₁ hw
          exact ⟨hV.post he (hV.trans hPx hPw), hvisited₂⟩
        · obtain ⟨rfl, rfl⟩ := Prod.mk.inj (Option.some.inj hrest)
          exact ⟨hV.post he hPx, hvisited₁⟩
termination_by (e.weight, e.nodes, 4)
decreasing_by
  · exact Prod.Lex.right _ (Prod.Lex.right _ (Nat.lt_succ_of_le e.length_kids_le))
  · exact Prod.Lex.left _ _ x.2

theorem visitKids_some (hV : PartialRules constArrayOpt V Ok P) (e : Expr) (he : Ok e) :
    ∀ (visited : VisitedMap) (ks : List Expr) (h : ∀ k ∈ ks, k ∈ e.kids), visited.Holds P →
    ∀ {ks' : {ks' : List Expr // List.Forall₂ Expr.Shrinks ks ks'}} {visited' : VisitedMap},
      V.visitKids constArrayOpt useVisitorHash e visited ks h = some (ks', visited') →
      List.Forall₂ P ks ks'.1 ∧ VisitedMap.Holds P visited'
  | visited, [], h, hvisited, ks', visited', hks => by
    unfold Visitor.visitKids at hks
    obtain ⟨rfl, rfl⟩ := Prod.mk.inj (Option.some.inj hks)
    exact ⟨.nil, hvisited⟩
  | visited, k :: ks, h, hvisited, ks', visited', hks => by
    unfold Visitor.visitKids at hks
    obtain ⟨⟨k', visited₁⟩, hk', hks⟩ := Option.bind_eq_some_iff.mp hks
    obtain ⟨⟨ks'', visited₂⟩, hks'', hks⟩ := Option.bind_eq_some_iff.mp hks
    obtain ⟨rfl, rfl⟩ := Prod.mk.inj (Option.some.inj hks)
    obtain ⟨hP, hvisited₁⟩ := visit_some hV visited k (hV.kid he (h k (.head _))) hvisited hk'
    obtain ⟨hPs, hvisited₂⟩ := visitKids_some hV e he visited₁ ks (fun k hk => h k (.tail _ hk)) hvisited₁ hks''
    exact ⟨.cons hP hPs, hvisited₂⟩
termination_by _ ks => (e.weight, e.nodes, ks.length)
decreasing_by
  · have hk := h k (.head _)
    rcases Nat.lt_or_eq_of_le (Expr.weight_le_of_mem_kids hk) with hw | hw
    · exact Prod.Lex.left _ _ hw
    · rw [hw]
      exact Prod.Lex.right _ (Prod.Lex.left _ _ (Expr.nodes_lt_of_mem_kids hk))
  · exact Prod.Lex.right _ (Prod.Lex.right _ (Nat.lt_succ_self _))

end

theorem Sound.partialRules {H U : Valuation → Prop} (hV : V.Sound H U) :
    PartialRules false V Expr.WellTyped (Expr.RefinesOn false H) where
  kid he hk := he.kid hk
  refl he := .refl he
  trans h h' := h.trans h'
  ok _ h := h.wellTyped
  visitExpr _ h := ⟨trivial, hV.width (Or.inl h), fun _ _ _ => trivial, fun _ hm _ => (hV.eval (Or.inl h) hm).symm⟩
  visitExprPost _ h :=
    ⟨trivial, hV.width (Or.inr h), fun _ _ _ => trivial, fun _ hm _ => (hV.eval (Or.inr h) hm).symm⟩
  rebuild he hks he' := Expr.rebuild_refinesOn he hks he'

end Visitor

namespace ConstraintSet

def TrueAt (m : Valuation) (C : ConstraintSet) : Prop := ∀ e ∈ C, e.eval m = .ofBool true

/-- Under the assignments in `H`, the well-typed set `D` is true where `C` is. -/
structure AgreesOn (H : Valuation → Prop) (C D : ConstraintSet) : Prop where
  typed : D.Typed
  trueAt : ∀ m, H m → (D.TrueAt m ↔ C.TrueAt m)

variable {H : Valuation → Prop} {B C D E : ConstraintSet} {m : Valuation} {e e' : Expr}

theorem trueAt_append : TrueAt m (C ++ D) ↔ TrueAt m C ∧ TrueAt m D := List.forall_mem_append

theorem trueAt_singleton : TrueAt m [e] ↔ e.eval m = .ofBool true := List.forall_mem_singleton

theorem AgreesOn.refl (h : C.Typed) : AgreesOn H C C := ⟨h, fun _ _ => Iff.rfl⟩

theorem AgreesOn.trans (h : AgreesOn H C D) (h' : AgreesOn H D E) : AgreesOn H C E :=
  ⟨h'.typed, fun m hm => (h'.trueAt m hm).trans (h.trueAt m hm)⟩

theorem AgreesOn.append (h : AgreesOn H B C) (h' : AgreesOn H D E) : AgreesOn H (B ++ D) (C ++ E) where
  typed := typed_append.mpr ⟨h.typed, h'.typed⟩
  trueAt m hm := by
    rw [trueAt_append, trueAt_append, h.trueAt m hm, h'.trueAt m hm]

theorem AgreesOn.of_true (h : AgreesOn (fun _ => True) C D) : AgreesOn H C D := ⟨h.typed, fun m _ => h.trueAt m trivial⟩

theorem agreesOn_refines (he : e.width = 1) (h : e.RefinesOn false H e') : AgreesOn H [e] [e'] where
  typed := typed_singleton.mpr ⟨h.wellTyped, h.width.trans he⟩
  trueAt m hm := by
    rw [trueAt_singleton, trueAt_singleton, h.eval m hm fun ho => by cases ho]

theorem agreesOn_and {l r : Expr} (h : Typed [.binary .and l r]) : AgreesOn H [.binary .and l r] [l, r] := by
  obtain ⟨⟨hl, hr, hw⟩, hwl⟩ := typed_singleton.mp h
  have hwl : l.width = 1 := hwl
  have hwr : r.width = 1 := hw.symm.trans hwl
  refine ⟨?_, fun m _ => ?_⟩
  · rw [← List.singleton_append, typed_append, typed_singleton, typed_singleton]
    exact ⟨⟨hl, hwl⟩, hr, hwr⟩
  · rw [← List.singleton_append, trueAt_append, trueAt_singleton, trueAt_singleton, trueAt_singleton]
    exact (eval_and_eq_true hl hr hwl hwr).symm

end ConstraintSet

namespace ConstraintManager

open ConstraintSet

variable (useVisitorHash rewriteEqualities : Bool)

theorem simplifyExpr_some {C : ConstraintSet} (hC : C.Typed) {e e' : Expr} (he : e.WellTyped)
    (h : simplifyExpr false useVisitorHash C e = some e') : e.RefinesOn false (fun m => C.TrueAt m) e' := by
  unfold simplifyExpr at h
  split at h
  · obtain rfl := Option.some.inj h
    exact .refl he
  · obtain ⟨⟨v, visited⟩, hv, hres⟩ := Option.bind_eq_some_iff.mp h
    obtain rfl := Option.some.inj hres
    exact (Visitor.visit_some (exprReplaceVisitor2_sound hC).partialRules [] e he VisitedMap.holds_nil hv).1

def AddsOnly (C : ConstraintSet) (e : Expr) : Prop :=
  Typed (C ++ [e]) → ∀ C', addConstraintInternal false useVisitorHash rewriteEqualities C e = some C' →
    AgreesOn (fun _ => True) (C ++ [e]) C'.1

/-- What `rewriteConstraints` does with right replacements, if it returns. -/
def RewritesOnly (C old : ConstraintSet) : Prop :=
  ∀ {visitor : Visitor} {visited : VisitedMap} {H U : Valuation → Prop}, visitor.Sound H U →
    visited.Holds (Expr.RefinesOn false H) → Typed (C ++ old) →
    ∀ C', rewriteConstraints false useVisitorHash rewriteEqualities visitor visited C old = some C' →
      AgreesOn H (C ++ old) C'.1

variable {useVisitorHash rewriteEqualities}

theorem addsOnly_constant {C : ConstraintSet} {c : APInt} :
    AddsOnly useVisitorHash rewriteEqualities C (.constant c) := by
  intro htyped C' hC'
  obtain ⟨hC, hc⟩ := typed_append.mp htyped
  have hw : c.width = 1 := (typed_singleton.mp hc).2
  unfold addConstraintInternal at hC'
  split at hC'
  · rename_i htrue
    obtain rfl := Option.some.inj hC'
    have hc : c = .ofBool true := isTrue_iff_eq hw |>.mp htrue
    refine ⟨hC, fun m _ => ?_⟩
    rw [trueAt_append, trueAt_singleton, hc]
    exact ⟨fun h => ⟨h, rfl⟩, And.left⟩
  · cases hC'

theorem AddsOnly.and {C : ConstraintSet} {l r : Expr} (hl : AddsOnly useVisitorHash rewriteEqualities C l)
    (hr : ∀ C₁ : ConstraintSet, C₁.weight ≤ C.weight + l.weight → AddsOnly useVisitorHash rewriteEqualities C₁ r) :
    AddsOnly useVisitorHash rewriteEqualities C (.binary .and l r) := by
  intro htyped C' hC'
  have hand : AgreesOn (fun _ => True) (C ++ [.binary .and l r]) (C ++ [l] ++ [r]) := by
    rw [typed_append] at htyped
    rw [List.append_assoc]
    exact (AgreesOn.refl htyped.1).append (agreesOn_and htyped.2)
  have htyped := typed_append.mp hand.typed
  unfold addConstraintInternal at hC'
  obtain ⟨C₁, hC₁, hC'⟩ := Option.bind_eq_some_iff.mp hC'
  obtain ⟨C₂, hC₂, hC'⟩ := Option.bind_eq_some_iff.mp hC'
  obtain rfl := Option.some.inj hC'
  have h₁ : AgreesOn (fun _ => True) (C ++ [l] ++ [r]) (C₁.1 ++ [r]) := (hl htyped.1 C₁ hC₁).append (.refl htyped.2)
  exact (hand.trans h₁).trans (hr C₁.1 C₁.2 h₁.typed C₂ hC₂)

theorem RewritesOnly.eq {C : ConstraintSet} {c : APInt} {right : Expr} (h : RewritesOnly useVisitorHash true [] C) :
    AddsOnly useVisitorHash true C (.cmp .eq (.constant c) right) := by
  intro htyped C' hC'
  rw [typed_append, typed_singleton] at htyped
  obtain ⟨hC, heq, -⟩ := htyped
  unfold addConstraintInternal at hC'
  rw [if_pos rfl] at hC'
  obtain ⟨D, hD, hC'⟩ := Option.bind_eq_some_iff.mp hC'
  obtain rfl := Option.some.inj hC'
  have hagree := h (exprReplaceVisitor_sound heq.2.2) VisitedMap.holds_nil hC D hD
  refine ⟨typed_append.mpr ⟨hagree.typed, typed_singleton.mpr ⟨heq, rfl⟩⟩, fun m _ => ?_⟩
  -- where the equality does not hold, neither set does
  rw [trueAt_append, trueAt_append, trueAt_singleton, eval_eq_constant heq]
  exact and_congr_left fun hv => hagree.trueAt m hv

theorem RewritesOnly.cons {C old : ConstraintSet} {ce : Expr}
    (hunchanged : RewritesOnly useVisitorHash rewriteEqualities (C ++ [ce]) old)
    (hadds : ∀ e : Expr, e.weight < ce.weight → AddsOnly useVisitorHash rewriteEqualities C e)
    (hchanged : ∀ C₁ : ConstraintSet, C₁.weight ≤ C.weight + ce.weight →
      RewritesOnly useVisitorHash rewriteEqualities C₁ old) :
    RewritesOnly useVisitorHash rewriteEqualities C (ce :: old) := by
  intro visitor visited H U hsound hvisited htyped C' hC'
  have hassoc : C ++ ce :: old = C ++ [ce] ++ old := by simp
  rw [hassoc] at htyped ⊢
  have htyped' := typed_append.mp htyped
  have hce := typed_append.mp htyped'.1
  obtain ⟨hwt, hw⟩ := typed_singleton.mp hce.2
  unfold rewriteConstraints at hC'
  obtain ⟨⟨v, visited'⟩, hv, hC'⟩ := Option.bind_eq_some_iff.mp hC'
  obtain ⟨href, hvisited'⟩ := Visitor.visit_some hsound.partialRules visited ce hwt hvisited hv
  dsimp only at hC'
  split at hC'
  · obtain ⟨D, hD, hC'⟩ := Option.bind_eq_some_iff.mp hC'
    obtain rfl := Option.some.inj hC'
    exact hunchanged hsound hvisited' htyped D hD
  · rename_i hne
    have hlt := v.2.resolve_left hne
    obtain ⟨C₁, hC₁, hC'⟩ := Option.bind_eq_some_iff.mp hC'
    obtain ⟨C₂, hC₂, hC'⟩ := Option.bind_eq_some_iff.mp hC'
    obtain rfl := Option.some.inj hC'
    have hagree : AgreesOn H (C ++ [ce] ++ old) (C ++ [v.1] ++ old) :=
      ((AgreesOn.refl hce.1).append (agreesOn_refines hw href)).append (.refl htyped'.2)
    have htypedv := typed_append.mp hagree.typed
    have h₁ : AgreesOn H (C ++ [v.1] ++ old) (C₁.1 ++ old) :=
      (hadds v.1 hlt htypedv.1 C₁ hC₁).of_true.append (.refl htyped'.2)
    exact (hagree.trans h₁).trans
      (hchanged C₁.1 (C₁.2.trans (by omega)) hsound hvisited' h₁.typed C₂ hC₂)

theorem rewritesOnly_nil {C : ConstraintSet} : RewritesOnly useVisitorHash rewriteEqualities C [] := by
  intro visitor visited H U _ _ htyped C' hC'
  unfold rewriteConstraints at hC'
  obtain rfl := Option.some.inj hC'
  rw [List.append_nil] at htyped ⊢
  exact .refl htyped

theorem addsOnly_push {C : ConstraintSet} {e : Expr} (h : ∃ hw, addConstraintInternal false useVisitorHash
    rewriteEqualities C e = some ⟨C ++ [e], hw⟩) : AddsOnly useVisitorHash rewriteEqualities C e := by
  intro htyped C' hC'
  obtain ⟨hw, h⟩ := h
  obtain rfl := Option.some.inj (h.symm.trans hC')
  exact .refl htyped

theorem addsOnly_and_rewritesOnly (p : ℕ ×ₗ ℕ) :
    (∀ C e, toLex (ConstraintSet.weight C + e.weight, e.nodes) = p →
      AddsOnly useVisitorHash rewriteEqualities C e) ∧
    (∀ C old, toLex (ConstraintSet.weight C + ConstraintSet.weight old, old.length) = p →
      RewritesOnly useVisitorHash rewriteEqualities C old) := by
  induction p using WellFoundedLT.induction with
  | ind p ih =>
  constructor
  · rintro C e rfl
    cases e with
    | constant c => exact addsOnly_constant
    | binary kind l r =>
      cases kind with
      | and =>
        refine AddsOnly.and ((ih _ ?_).1 C l rfl) fun C₁ hC₁ => (ih _ ?_).1 C₁ r rfl
        · exact toLex_lt_of_le (by simp only [Expr.weight]; omega) (by simp only [Expr.nodes]; omega)
        · exact toLex_lt_of_le (by simp only [Expr.weight]; omega) (by simp only [Expr.nodes]; omega)
      | _ => exact addsOnly_push ⟨by simp, by unfold addConstraintInternal; rfl⟩
    | cmp kind l r =>
      cases kind with
      | eq =>
        cases l with
        | constant c =>
          cases rewriteEqualities with
          | true =>
            refine RewritesOnly.eq ((ih _ ?_).2 [] C rfl)
            exact toLex_lt_of_lt (by simp only [ConstraintSet.weight_nil, Expr.weight]; omega)
          | false => exact addsOnly_push ⟨by simp, by unfold addConstraintInternal; rfl⟩
        | _ => exact addsOnly_push ⟨by simp, by unfold addConstraintInternal; rfl⟩
      | _ => exact addsOnly_push ⟨by simp, by unfold addConstraintInternal; rfl⟩
    | _ => exact addsOnly_push ⟨by simp, by unfold addConstraintInternal; rfl⟩
  · rintro C old rfl
    cases old with
    | nil => exact rewritesOnly_nil
    | cons ce old =>
      refine RewritesOnly.cons ((ih _ ?_).2 _ _ rfl) (fun e he => (ih _ ?_).1 C e rfl)
        fun C₁ hC₁ => (ih _ ?_).2 C₁ old rfl
      · exact toLex_lt_of_le (by simp; omega) (Nat.lt_succ_self _)
      · exact toLex_lt_of_lt (by rw [ConstraintSet.weight_cons]; omega)
      · exact toLex_lt_of_le (by rw [ConstraintSet.weight_cons]; omega) (Nat.lt_succ_self _)

theorem addConstraint_agrees {C C' : ConstraintSet} {e : Expr} (htyped : Typed (C ++ [e]))
    (h : addConstraint false useVisitorHash rewriteEqualities C e = some C') :
    AgreesOn (fun _ => True) (C ++ [e]) C' := by
  obtain ⟨hC, he⟩ := typed_append.mp htyped
  obtain ⟨hwt, hw⟩ := typed_singleton.mp he
  unfold addConstraint at h
  obtain ⟨e', he', h⟩ := Option.bind_eq_some_iff.mp h
  obtain ⟨D, hD, h⟩ := Option.bind_eq_some_iff.mp h
  obtain rfl := Option.some.inj h
  have href := simplifyExpr_some useVisitorHash hC hwt he'
  have htyped' : Typed (C ++ [e']) :=
    typed_append.mpr ⟨hC, typed_singleton.mpr ⟨href.wellTyped, href.width.trans hw⟩⟩
  have hadd := (addsOnly_and_rewritesOnly _).1 C e' rfl htyped' D hD
  refine ⟨hadd.typed, fun m _ => (hadd.trueAt m trivial).trans ?_⟩
  rw [trueAt_append, trueAt_append, trueAt_singleton, trueAt_singleton]
  refine and_congr_right fun hm => ?_
  rw [href.eval m hm fun ho => by cases ho]

end ConstraintManager

end CgsKlee
