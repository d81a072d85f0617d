import CgsKlee.Expr.Visitor
import CgsKlee.Expr.CreateSound

/-!
# What a visit preserves

`Visitor.visit_spec` is the rule for visitors: a relation that the replacements and the rebuilding of nodes establish
holds between an expression and the result of its visit, and the visit succeeds.  The results of earlier visits may be
reused, as they are in the relation too.
-/

namespace CgsKlee

def VisitedMap.Holds (P : Expr → Expr → Prop) (visited : VisitedMap) : Prop := ∀ x ∈ visited, P x.1 x.2.1

namespace VisitedMap

variable {P : Expr → Expr → Prop} {visited : VisitedMap} {e : Expr} {v : Visited e}

theorem holds_nil : Holds P [] := nofun

theorem Holds.find (h : Holds P visited) (hv : find e visited = some v) : P e v.1 := by
  induction visited with
  | nil => simp [VisitedMap.find] at hv
  | cons x rest ih =>
    obtain ⟨k, w⟩ := x
    unfold VisitedMap.find at hv
    split at hv
    · rename_i hk
      subst hk
      obtain rfl : w = v := Option.some.inj hv
      exact h ⟨k, w⟩ (.head _)
    · exact ih (fun x hx => h x (.tail _ hx)) hv

theorem Holds.insert (h : Holds P visited) (hv : P e v.1) : Holds P (insert e v visited) := by
  unfold VisitedMap.insert
  split
  · exact h
  · intro x hx
    rcases List.mem_cons.mp hx with rfl | hx
    · exact hv
    · exact h x hx

end VisitedMap

namespace Visitor

/-- `P` relates expressions for which `Ok` holds to what the steps of the visitor make of them. -/
structure Rules (constArrayOpt : Bool) (V : Visitor) (Ok : Expr → Prop) (P : Expr → Expr → Prop) : Prop where
  kid : ∀ {e k}, Ok e → k ∈ e.kids → Ok k
  refl : ∀ {e}, Ok e → P e e
  trans : ∀ {e e' e''}, P e e' → P e' e'' → P e e''
  ok : ∀ {e e'}, Ok e → P e e' → Ok e'
  visitExpr : ∀ {e c}, Ok e → V.visitExpr e = some c → P e (.constant c)
  visitExprPost : ∀ {e c}, Ok e → V.visitExprPost e = some c → P e (.constant c)
  rebuild : ∀ {e ks}, Ok e → ks ≠ e.kids → List.Forall₂ P e.kids ks →
    ∃ e', e.rebuild constArrayOpt ks = some e' ∧ P e e'

variable {constArrayOpt : Bool} {useVisitorHash : Bool} {V : Visitor} {Ok : Expr → Prop} {P : Expr → Expr → Prop}

theorem Rules.post (hV : Rules constArrayOpt V Ok P) {e : Expr} {v : Visited e} (he : Ok e) (hv : P e v.1) :
    P e (V.post e v).1 := by
  unfold Visitor.post
  split
  · exact hv
  · split
    · rename_i c hc
      exact hV.trans hv (hV.visitExprPost (hV.ok he hv) hc)
    · exact hv

theorem rebuildLighter_eq {e e' : Expr} {kids : {ks : List Expr // List.Forall₂ Expr.Shrinks e.kids ks}}
    {h : kids.1 ≠ e.kids} (he' : e.rebuild constArrayOpt kids.1 = some e') :
    ∃ x, rebuildLighter constArrayOpt e kids h = some x ∧ x.1 = e' := by
  unfold rebuildLighter
  split
  · rename_i e'' he''
    rw [he'] at he''
    exact ⟨_, rfl, (Option.some.inj he'').symm⟩
  · rename_i hnone
    rw [he'] at hnone
    simp at hnone

mutual

theorem visit_spec (hV : Rules constArrayOpt V Ok P) (visited : VisitedMap) (e : Expr) (he : Ok e)
    (hvisited : visited.Holds P) :
    ∃ v visited', V.visit constArrayOpt useVisitorHash visited e = some (v, visited') ∧ P e v.1 ∧
      VisitedMap.Holds P visited' := by
  unfold Visitor.visit
  split
  · exact visitActual_spec hV visited e he hvisited
  · split
    · rename_i v hv
      exact ⟨v, visited, rfl, hvisited.find hv, hvisited⟩
    · obtain ⟨v, visited', hv, hP, hvisited'⟩ := visitActual_spec hV visited e he hvisited
      rw [hv]
      exact ⟨v, _, rfl, hP, hvisited'.insert hP⟩
termination_by (e.weight, e.nodes, 5)

theorem visitActual_spec (hV : Rules constArrayOpt V Ok P) (visited : VisitedMap) (e : Expr) (he : Ok e)
    (hvisited : visited.Holds P) :
    ∃ v visited', V.visitActual constArrayOpt useVisitorHash visited e = some (v, visited') ∧ P e v.1 ∧
      VisitedMap.Holds P visited' := by
  unfold Visitor.visitActual
  split
  · exact ⟨_, visited, rfl, hV.refl he, hvisited⟩
  · split
    · rename_i c hc
      exact ⟨_, visited, rfl, hV.visitExpr he hc, hvisited⟩
    · obtain ⟨ks, visited₁, hks, hPs, hvisited₁⟩ := visitKids_spec hV e he visited e.kids (fun _ hk => hk) hvisited
      simp only [hks, Option.bind_eq_bind, Option.bind_some]
      split
      · exact ⟨_, visited₁, rfl, hV.post he (hV.refl he), hvisited₁⟩
      · rename_i hne
        obtain ⟨e', he', hPe'⟩ := hV.rebuild he hne hPs
        obtain ⟨x, hx, rfl⟩ := rebuildLighter_eq (h := hne) he'
        simp only [hx, Option.bind_some]
        split
        · obtain ⟨v, visited₂, hv, hPv, hvisited₂⟩ := visit_spec hV visited₁ x.1 (hV.ok he hPe') hvisited₁
          simp only [hv, Option.bind_some]
          exact ⟨_, visited₂, rfl, hV.post he (hV.trans hPe' hPv), hvisited₂⟩
        · exact ⟨_, visited₁, rfl, hV.post he hPe', hvisited₁⟩
termination_by (e.weight, e.nodes, 4)
decreasing_by
  · exact Prod.Lex.right _ (Prod.Lex.right _ (Nat.lt_succ_of_le e.length_kids_le))
  · exact Prod.Lex.left _ _ x.2

theorem visitKids_spec (hV : Rules constArrayOpt V Ok P) (e : Expr) (he : Ok e) :
    ∀ (visited : VisitedMap) (ks : List Expr) (h : ∀ k ∈ ks, k ∈ e.kids), visited.Holds P →
    ∃ ks' visited', V.visitKids constArrayOpt useVisitorHash e visited ks h = some (ks', visited') ∧
      List.Forall₂ P ks ks'.1 ∧ VisitedMap.Holds P visited'
  | visited, [], h, hvisited => by
    unfold Visitor.visitKids
    exact ⟨_, visited, rfl, .nil, hvisited⟩
  | visited, k :: ks, h, hvisited => by
    obtain ⟨k', visited₁, hk', hP, hvisited₁⟩ := visit_spec hV visited k (hV.kid he (h k (.head _))) hvisited
    obtain ⟨ks', visited₂, hks', hPs, hvisited₂⟩ :=
      visitKids_spec hV e he visited₁ ks (fun k hk => h k (.tail _ hk)) hvisited₁
    unfold Visitor.visitKids
    simp only [hk', hks', Option.bind_eq_bind, Option.bind_some]
    exact ⟨_, visited₂, rfl, .cons hP hPs, hvisited₂⟩
termination_by _ ks => (e.weight, e.nodes, ks.length)
decreasing_by
  · have hk := h k (.head _)
    rcases Nat.lt_or_eq_of_le (Expr.weight_le_of_mem_kids hk) with hw | hw
    · exact Prod.Lex.left _ _ hw
    · rw [hw]
      exact Prod.Lex.right _ (Prod.Lex.left _ _ (Expr.nodes_lt_of_mem_kids hk))
  · exact Prod.Lex.right _ (Prod.Lex.right _ (Nat.lt_succ_self _))

end

end Visitor

namespace Expr

/-- `q` may take the place of `p` under the assignments in `H`. -/
structure RefinesOn (opt : Bool) (H : Valuation → Prop) (p q : Expr) : Prop where
  wellTyped : q.WellTyped
  width : q.width = p.width
  defined : ∀ m, H m → p.Defined m → q.Defined m
  eval : ∀ m, H m → (opt = true → p.Defined m) → q.eval m = p.eval m

variable {opt : Bool} {H : Valuation → Prop} {e p q r k : Expr} {m : Valuation}

theorem RefinesOn.refl (h : p.WellTyped) : p.RefinesOn opt H p := ⟨h, rfl, fun _ _ hd => hd, fun _ _ _ => rfl⟩

theorem RefinesOn.trans (h : p.RefinesOn opt H q) (h' : q.RefinesOn opt H r) : p.RefinesOn opt H r where
  wellTyped := h'.wellTyped
  width := h'.width.trans h.width
  defined m hm hd := h'.defined m hm (h.defined m hm hd)
  eval m hm hd := (h'.eval m hm fun ho => h.defined m hm (hd ho)).trans (h.eval m hm hd)

theorem Refines.refinesOn (h : p.Refines opt q) : p.RefinesOn opt H q :=
  ⟨h.wellTyped, h.width, fun m _ => h.defined m, fun m _ => h.eval m⟩

theorem RefinesOn.whereDefined (h : p.RefinesOn opt H q) : p.RefinesOn true H q :=
  ⟨h.wellTyped, h.width, h.defined, fun m hm hd => h.eval m hm fun _ => hd rfl⟩

theorem WellTyped.kid (h : e.WellTyped) (hk : k ∈ e.kids) : k.WellTyped := by
  cases e with
  | constant => simp [kids] at hk
  | notOptimized | not =>
    obtain rfl : k = _ := by simpa [kids] using hk
    exact h
  | extract | cast =>
    obtain rfl : k = _ := by simpa [kids] using hk
    exact h.1
  | read =>
    obtain rfl : k = _ := by simpa [kids] using hk
    exact h.2.2.1
  | concat =>
    simp only [kids, List.mem_cons, List.not_mem_nil, or_false] at hk
    rcases hk with rfl | rfl
    · exact h.1
    · exact h.2
  | binary | cmp =>
    simp only [kids, List.mem_cons, List.not_mem_nil, or_false] at hk
    rcases hk with rfl | rfl
    · exact h.1
    · exact h.2.1
  | select =>
    simp only [kids, List.mem_cons, List.not_mem_nil, or_false] at hk
    rcases hk with rfl | rfl | rfl
    · exact h.1
    · exact h.2.1
    · exact h.2.2.1

theorem Defined.kid (h : e.Defined m) (hk : k ∈ e.kids) : k.Defined m := by
  cases e with
  | constant => simp [kids] at hk
  | notOptimized | not | extract | cast =>
    obtain rfl : k = _ := by simpa [kids] using hk
    exact h
  | read =>
    obtain rfl : k = _ := by simpa [kids] using hk
    exact h.2.1
  | concat | cmp =>
    simp only [kids, List.mem_cons, List.not_mem_nil, or_false] at hk
    rcases hk with rfl | rfl
    · exact h.1
    · exact h.2
  | binary =>
    simp only [kids, List.mem_cons, List.not_mem_nil, or_false] at hk
    rcases hk with rfl | rfl
    · exact h.1
    · exact h.2.1
  | select =>
    simp only [kids, List.mem_cons, List.not_mem_nil, or_false] at hk
    rcases hk with rfl | rfl | rfl
    · exact h.1
    · exact h.2.1
    · exact h.2.2

theorem withKids_refinesOn {ks : List Expr} (he : e.WellTyped) (h : List.Forall₂ (RefinesOn opt H) e.kids ks) :
    e.RefinesOn opt H (e.withKids ks) := by
  cases e with
  | constant => exact .refl he
  | notOptimized src =>
    cases h with
    | cons h hnil =>
      cases hnil
      exact ⟨h.wellTyped, h.width, h.defined, h.eval⟩
  | not e =>
    cases h with
    | cons h hnil =>
      cases hnil
      refine ⟨h.wellTyped, h.width, h.defined, fun m hm hd => ?_⟩
      simp only [withKids, Expr.eval, h.eval m hm hd]
  | extract e off w =>
    cases h with
    | cons h hnil =>
      cases hnil
      obtain ⟨-, hw, hle⟩ := he
      refine ⟨⟨h.wellTyped, hw, by rw [h.width]; exact hle⟩, rfl, h.defined, fun m hm hd => ?_⟩
      simp only [withKids, Expr.eval, h.eval m hm hd]
  | cast kind src w =>
    cases h with
    | cons h hnil =>
      cases hnil
      refine ⟨⟨h.wellTyped, by rw [h.width]; exact he.2⟩, rfl, h.defined, fun m hm hd => ?_⟩
      simp only [withKids, Expr.eval, h.eval m hm hd]
  | read root head index =>
    cases h with
    | cons h hnil =>
      cases hnil
      obtain ⟨hroot, hhead, hindex, hdom⟩ := he
      refine ⟨⟨hroot, hhead, h.wellTyped, h.width.trans hdom⟩, rfl, fun m hm hd => ?_, fun m hm hd => ?_⟩
      · refine ⟨hd.1, h.defined m hm hd.2.1, ?_⟩
        rw [h.eval m hm fun _ => hd.2.1]
        exact hd.2.2
      · simp only [withKids, Expr.eval, h.eval m hm fun ho => (hd ho).2.1]
  | concat l r =>
    cases h with
    | cons hl h =>
      cases h with
      | cons hr hnil =>
        cases hnil
        refine ⟨⟨hl.wellTyped, hr.wellTyped⟩, congrArg₂ (· + ·) hl.width hr.width, fun m hm hd => ?_,
          fun m hm hd => ?_⟩
        · exact ⟨hl.defined m hm hd.1, hr.defined m hm hd.2⟩
        · simp only [withKids, Expr.eval, hl.eval m hm fun ho => (hd ho).1, hr.eval m hm fun ho => (hd ho).2]
  | binary kind l r =>
    cases h with
    | cons hl h =>
      cases h with
      | cons hr hnil =>
        cases hnil
        refine ⟨⟨hl.wellTyped, hr.wellTyped, hl.width.trans (he.2.2.trans hr.width.symm)⟩, hl.width,
          fun m hm hd => ?_, fun m hm hd => ?_⟩
        · refine ⟨hl.defined m hm hd.1, hr.defined m hm hd.2.1, ?_⟩
          rw [hr.eval m hm fun _ => hd.2.1]
          exact hd.2.2
        · simp only [withKids, Expr.eval, hl.eval m hm fun ho => (hd ho).1, hr.eval m hm fun ho => (hd ho).2.1]
  | cmp kind l r =>
    cases h with
    | cons hl h =>
      cases h with
      | cons hr hnil =>
        cases hnil
        refine ⟨⟨hl.wellTyped, hr.wellTyped, hl.width.trans (he.2.2.trans hr.width.symm)⟩, rfl,
          fun m hm hd => ?_, fun m hm hd => ?_⟩
        · exact ⟨hl.defined m hm hd.1, hr.defined m hm hd.2⟩
        · simp only [withKids, Expr.eval, hl.eval m hm fun ho => (hd ho).1, hr.eval m hm fun ho => (hd ho).2]
  | select c t f =>
    cases h with
    | cons hc h =>
      cases h with
      | cons ht h =>
        cases h with
        | cons hf hnil =>
          cases hnil
          obtain ⟨-, -, -, hwc, hwtf⟩ := he
          refine ⟨⟨hc.wellTyped, ht.wellTyped, hf.wellTyped, hc.width.trans hwc,
            ht.width.trans (hwtf.trans hf.width.symm)⟩, ht.width, fun m hm hd => ?_, fun m hm hd => ?_⟩
          · exact ⟨hc.defined m hm hd.1, ht.defined m hm hd.2.1, hf.defined m hm hd.2.2⟩
          · simp only [withKids, Expr.eval, hc.eval m hm fun ho => (hd ho).1, ht.eval m hm fun ho => (hd ho).2.1,
              hf.eval m hm fun ho => (hd ho).2.2]

theorem rebuild_refinesOn {ks : List Expr} {e' : Expr} (he : e.WellTyped)
    (h : List.Forall₂ (RefinesOn opt H) e.kids ks) (he' : e.rebuild opt ks = some e') : e.RefinesOn opt H e' :=
  have hkids := withKids_refinesOn he h
  hkids.trans (recreate_refines hkids.wellTyped.operandsTyped he').refinesOn

end Expr

namespace Visitor

/-- The replacements are right under the assignments in `H`, and none of what is replaced has a value under those
in `U`. -/
structure Sound (V : Visitor) (H U : Valuation → Prop) : Prop where
  width : ∀ {e c}, V.visitExpr e = some c ∨ V.visitExprPost e = some c → c.width = e.width
  eval : ∀ {e c m}, V.visitExpr e = some c ∨ V.visitExprPost e = some c → H m → e.eval m = c
  undefined : ∀ {e c m}, V.visitExpr e = some c ∨ V.visitExprPost e = some c → U m → ¬e.Defined m

/-- What a visit makes of an expression: under `H` it has the same value, and it is the same expression if it has a
value somewhere in `U`. -/
structure Simplifies (H U : Valuation → Prop) (e e' : Expr) : Prop where
  refines : e.RefinesOn true H e'
  unchanged : ∀ m, U m → e.Defined m → e' = e

variable {constArrayOpt : Bool} {V : Visitor} {H U : Valuation → Prop} {m₀ : Valuation}

theorem Sound.simplifies (hV : V.Sound H U) {e : Expr} {c : APInt}
    (h : V.visitExpr e = some c ∨ V.visitExprPost e = some c) : Simplifies H U e (.constant c) where
  refines := ⟨trivial, hV.width h, fun _ _ _ => trivial, fun _ hm _ => (hV.eval h hm).symm⟩
  unchanged _ hm hd := absurd hd (hV.undefined h hm)

theorem Simplifies.kids_eq {m : Valuation} (hm : U m) {ks ks' : List Expr} (h : List.Forall₂ (Simplifies H U) ks ks')
    (hd : ∀ k ∈ ks, k.Defined m) : ks' = ks := by
  induction h with
  | nil => rfl
  | cons h _ ih =>
    rw [h.unchanged m hm (hd _ (.head _)), ih fun k hk => hd k (.tail _ hk)]

theorem Sound.rules (hV : V.Sound H U) (h₀ : H m₀) :
    Rules constArrayOpt V (fun e => e.WellTyped ∧ e.Defined m₀) (Simplifies H U) where
  kid he hk := ⟨he.1.kid hk, he.2.kid hk⟩
  refl he := ⟨.refl he.1, fun _ _ _ => rfl⟩
  trans := by
    intro e e' e'' h h'
    refine ⟨h.refines.trans h'.refines, fun m hm hd => ?_⟩
    obtain rfl := h.unchanged m hm hd
    exact h'.unchanged m hm hd
  ok he h := ⟨h.refines.wellTyped, h.refines.defined m₀ h₀ he.2⟩
  visitExpr _ h := hV.simplifies (Or.inl h)
  visitExprPost _ h := hV.simplifies (Or.inr h)
  rebuild := by
    intro e ks he hne hks
    have hkids := Expr.withKids_refinesOn he.1 (hks.imp fun _ _ h => h.refines)
    obtain ⟨e', he', href⟩ := (e.withKids ks).recreate_builds constArrayOpt hkids.wellTyped.operandsTyped
      (hkids.defined m₀ h₀ he.2).dividesByZero
    refine ⟨e', he', hkids.trans href.refinesOn.whereDefined, fun m hm hd => ?_⟩
    exact absurd (Simplifies.kids_eq hm hks fun k hk => hd.kid hk) hne

theorem Sound.visit (constArrayOpt useVisitorHash : Bool) (hV : V.Sound H U) (h₀ : H m₀) {visited : VisitedMap}
    (hvisited : visited.Holds (Simplifies H U)) {e : Expr} (he : e.WellTyped) (hd : e.Defined m₀) :
    ∃ v visited', V.visit constArrayOpt useVisitorHash visited e = some (v, visited') ∧ Simplifies H U e v.1 ∧
      VisitedMap.Holds (Simplifies H U) visited' :=
  visit_spec (hV.rules h₀) visited e ⟨he, hd⟩ hvisited

end Visitor

end CgsKlee
