import CgsKlee.Core.Fork
import CgsKlee.Lib.Loops
import Mathlib.Data.List.Nodup

/-!
# Forking neither loses nor duplicates inputs

A state stands for the models of its constraints.  With an exact solver, and as long as no option stops it, `fork`
splits these models by the condition; the conditions that a symbolic `switch` gives to `branch` are exclusive and
exhaustive, and a model ends in the state whose block a concrete `switch` would take.
-/

namespace CgsKlee

open Symbolic

variable {T : ExprTheory} {σ : Type} {B : Backend T}

def modelsOf : Option (SymState T σ) → Set T.Model
  | none => ∅
  | some s => T.models s.constraints

namespace SymState

theorem addConstraint_spec (hB : B.Exact) {s : SymState T σ} {e : T.Expr} (hw : T.width e = 1)
    (hs : ∃ m ∈ T.models s.constraints, T.Holds m e) :
    ∃ s', s.addConstraint B e = some s' ∧
      T.models s'.constraints = {m | m ∈ T.models s.constraints ∧ T.Holds m e} ∧
      s'.depth = s.depth ∧ s'.forkDisabled = s.forkDisabled ∧ s'.data = s.data := by
  unfold addConstraint
  split
  · rename_i v hv
    -- a constant that holds in one model holds in all
    obtain ⟨m₀, -, h₀⟩ := hs
    have hone : v = 1 := (T.eval_of_constant? hv m₀).symm.trans h₀
    refine ⟨s, by rw [if_pos hone], ?_, rfl, rfl, rfl⟩
    ext m
    exact ⟨fun hm => ⟨hm, (T.eval_of_constant? hv m).trans hone⟩, fun hm => hm.1⟩
  · exact ⟨_, rfl, hB.addConstraint hw hs, rfl, rfl, rfl⟩

end SymState

/-- What `fork` returns for a boolean condition, when nothing stops it. -/
structure Forked (s : SymState T σ) (c : T.Expr) (r : ForkResult T σ) : Prop where
  trueModels : modelsOf r.trueState = {m | m ∈ T.models s.constraints ∧ T.Holds m c}
  falseModels : modelsOf r.falseState = {m | m ∈ T.models s.constraints ∧ ¬T.Holds m c}
  terminated : r.terminated = []
  trueData : ∀ t ∈ r.trueState, t.data = s.data ∧ t.forkDisabled = s.forkDisabled
  falseData : ∀ t ∈ r.falseState, t.data = s.data ∧ t.forkDisabled = s.forkDisabled
  depth : (∀ t ∈ r.trueState, t.depth ≤ s.depth + 1) ∧ ∀ t ∈ r.falseState, t.depth ≤ s.depth + 1
  /-- A state is returned only if it has models. -/
  nonempty : (∀ t ∈ r.trueState, (T.models t.constraints).Nonempty) ∧
    ∀ t ∈ r.falseState, (T.models t.constraints).Nonempty

/-- No option stops the fork of a state: branching is permitted, no `MaxStatic*Pct` limit and no `MaxDepth` is
reached. -/
structure ForkEnv.Unlimited (env : ForkEnv) (s : SymState T σ) : Prop where
  permitted : env.branchingPermitted s
  static : env.staticLimitReached = false
  depth : env.maxDepth = 0 ∨ s.depth + 1 < env.maxDepth

theorem fork_forked (hB : B.Exact) {env : ForkEnv} {s : SymState T σ} (henv : env.Unlimited s)
    (hs : (T.models s.constraints).Nonempty) {c : T.Expr} (hc : T.width c = 1) (coin : Bool) :
    ∃ r, fork B env coin s c = some r ∧ Forked s c r := by
  have hstatic : s.maxStaticPctChecks B env c = some (s, c) := by
    unfold SymState.maxStaticPctChecks
    split
    · rfl
    · rw [henv.static]
      rfl
  simp only [fork, hstatic, Option.bind_eq_bind, Option.bind_some]
  cases he : B.evaluate s.constraints c with
  | true =>
    have hall := (hB.evaluate_true hs hc).1 he
    refine ⟨_, rfl, ?_, ?_, rfl, by simp, by simp, by simp, by simpa using hs⟩
    · ext m
      exact ⟨fun hm => ⟨hm, hall m hm⟩, fun hm => hm.1⟩
    · ext m
      exact ⟨fun hm => hm.elim, fun hm => (hm.2 (hall m hm.1)).elim⟩
  | false =>
    have hall := (hB.evaluate_false hs hc).1 he
    refine ⟨_, rfl, ?_, ?_, rfl, by simp, by simp, by simp, by simpa using hs⟩
    · ext m
      exact ⟨fun hm => hm.elim, fun hm => (hall m hm.1 hm.2).elim⟩
    · ext m
      exact ⟨fun hm => ⟨hm, hall m hm⟩, fun hm => hm.1⟩
  | unknown =>
    obtain ⟨htrue, hfalse⟩ := hB.evaluate_unknown hs hc he
    have hzero : ∀ m, T.Holds m (T.isZero c) ↔ ¬T.Holds m c := fun m => ExprTheory.holds_isZero hc
    obtain ⟨t, ht, htm, htd, htf, htdata⟩ := SymState.addConstraint_spec hB (s := s.branch) hc htrue
    obtain ⟨f, hf, hfm, hfd, hff, hfdata⟩ := SymState.addConstraint_spec hB (s := s.branch) ExprTheory.width_isZero
      (hfalse.imp fun m hm => ⟨hm.1, (hzero m).2 hm.2⟩)
    have hdepth : ¬(env.maxDepth ≠ 0 ∧ env.maxDepth ≤ t.depth) := by
      have hb : (s.branch).depth = s.depth + 1 := rfl
      have hd := henv.depth
      omega
    simp only [henv.permitted, Bool.not_true, Bool.false_eq_true, if_false, ht, hf, Option.bind_some, if_neg hdepth]
    have hfm' : T.models f.constraints = {m | m ∈ T.models s.constraints ∧ ¬T.Holds m c} := by
      rw [hfm]
      ext m
      exact and_congr_right fun _ => hzero m
    refine ⟨_, rfl, htm, hfm', rfl, ?_, ?_, ?_, ?_⟩
    · simpa using ⟨htdata, htf⟩
    · simpa using ⟨hfdata, hff⟩
    · have hb : (s.branch).depth = s.depth + 1 := rfl
      simp only [Option.mem_def, Option.some.injEq, forall_eq']
      omega
    · simp only [Option.mem_def, Option.some.injEq, forall_eq', htm, hfm']
      exact ⟨htrue, hfalse⟩

/-- No option stops the first `n` forks of a state and of what is left of it. -/
structure ForksUnlimited (env : Nat → ForkEnv) (s : SymState T σ) (n : Nat) : Prop where
  permitted : ∀ i < n, (env i).branchingPermitted s
  static : ∀ i < n, (env i).staticLimitReached = false
  depth : ∀ i < n, (env i).maxDepth = 0 ∨ s.depth + i + 1 < (env i).maxDepth

theorem ForksUnlimited.unlimited {env : Nat → ForkEnv} {s t : SymState T σ} {n i : Nat}
    (h : ForksUnlimited env s n) (hi : i < n) (hf : t.forkDisabled = s.forkDisabled) (hd : t.depth ≤ s.depth + i) :
    (env i).Unlimited t := by
  refine ⟨?_, h.static i hi, ?_⟩
  · have hp := h.permitted i hi
    unfold ForkEnv.branchingPermitted at hp ⊢
    rwa [hf]
  · have hdepth := h.depth i hi
    omega

private theorem branchCopies_spec (rng : Nat → Nat) (s : SymState T σ) (n : Nat) :
    (branchCopies rng s n).length = n + 1 ∧ ∀ t ∈ branchCopies rng s n, t.constraints = s.constraints := by
  induction n with
  | zero => exact ⟨rfl, by simp [branchCopies]⟩
  | succ n ih =>
    obtain ⟨hl, hc⟩ := ih
    have hlt : rng (n + 1) % (n + 1) < (branchCopies rng s n).length := by
      rw [hl]
      exact Nat.mod_lt _ (Nat.succ_pos n)
    simp only [branchCopies, List.getElem?_eq_getElem hlt]
    refine ⟨by simp [hl], fun t ht => ?_⟩
    have hes := hc _ (List.getElem_mem hlt)
    rcases List.mem_append.1 ht with ht | ht
    · rcases List.mem_or_eq_of_mem_set ht with ht | rfl
      · exact hc t ht
      · exact hes
    · rw [List.mem_singleton.1 ht]
      exact hes

theorem branch_spec (hB : B.Exact) {env : ForkEnv} {s : SymState T σ} (hp : env.branchingPermitted s)
    (rng : Nat → Nat) {conditions : List T.Expr} (hne : conditions ≠ [])
    (hc : ∀ c ∈ conditions, T.width c = 1 ∧ ∃ m ∈ T.models s.constraints, T.Holds m c) :
    ∃ result, branch B env rng s conditions = some (result.map some) ∧
      List.Forall₂ (fun c t => T.models t.constraints = {m | m ∈ T.models s.constraints ∧ T.Holds m c})
        conditions result := by
  obtain ⟨hl, hcopies⟩ := branchCopies_spec rng s (conditions.length - 1)
  have hpos : conditions.length - 1 + 1 = conditions.length := by
    have := List.length_pos_of_ne_nil hne
    omega
  rw [hpos] at hl
  simp only [branch, if_neg hne, hp, Bool.not_true, Bool.false_eq_true, if_false]
  generalize branchCopies rng s (conditions.length - 1) = copies at hl hcopies
  clear hpos hne
  induction conditions generalizing copies with
  | nil =>
    obtain rfl := List.length_eq_zero_iff.1 hl
    exact ⟨[], rfl, .nil⟩
  | cons c conditions ih =>
    obtain ⟨t, copies, rfl⟩ : ∃ t l, copies = t :: l := List.exists_cons_of_ne_nil (by
      rintro rfl
      simp at hl)
    have ht : t.constraints = s.constraints := hcopies t (by simp)
    obtain ⟨hw, hsat⟩ := hc c (by simp)
    obtain ⟨t', ht', hm, -⟩ := SymState.addConstraint_spec hB (s := t) hw (by rwa [ht])
    obtain ⟨result, hr, hf⟩ := ih (fun c h => hc c (by simp [h])) copies (by simpa using hl)
      fun u hu => hcopies u (by simp [hu])
    refine ⟨t' :: result, ?_, .cons (by rw [hm, ht]) hf⟩
    simp only [List.map_cons, List.zip_cons_cons, List.mapM_cons, ht', Option.map_some, hr, Option.bind_eq_bind,
      Option.bind_some, Option.pure_def]

theorem SwitchInst.successor_of_mem (si : SwitchInst) {c : Nat × BlockID} (hc : c ∈ si.cases) :
    si.successor c.1 = c.2 := by
  unfold successor
  cases hf : si.cases.find? (·.1 = c.1) with
  | none =>
    have hno := List.find?_eq_none.1 hf c hc
    simp at hno
  | some d =>
    have hd : d.1 = c.1 := by simpa using List.find?_some hf
    rw [List.inj_on_of_nodup_map si.nodup (List.mem_of_find?_eq_some hf) hc hd]
    rfl

theorem SwitchInst.successor_of_notMem (si : SwitchInst) {v : Nat} (h : ∀ c ∈ si.cases, c.1 ≠ v) :
    si.successor v = si.defaultDest := by
  unfold successor
  rw [List.find?_eq_none.2 fun c hc => by simpa using h c hc]
  rfl

section Targets

variable (B : Backend T) (cs : List T.Expr) (cond : T.Expr) (defaultDest : BlockID)

/-- The match of a case is possible under the constraints. -/
private def Possible (c : Nat × BlockID) : Prop := B.mayBeTrue cs (T.eq cond (T.const c.1 (T.width cond))) = true

/-- The targets after the cases `cases` have been handled. -/
private structure Handled (cases : List (Nat × BlockID)) (t : SwitchTargets T) : Prop where
  defaultWidth : T.width t.defaultValue = 1
  default : ∀ m, T.Holds m t.defaultValue ↔ ∀ c ∈ cases, c.2 ≠ defaultDest → T.eval m cond ≠ c.1
  width : ∀ b e, t.branchTargets b = some e → T.width e = 1
  target : ∀ b e, t.branchTargets b = some e →
    ∀ m, T.Holds m e ↔ ∃ c ∈ cases, c.2 = b ∧ Possible B cs cond c ∧ T.eval m cond = c.1
  isSome : ∀ b, (t.branchTargets b).isSome ↔ ∃ c ∈ cases, c.2 = b ∧ b ≠ defaultDest ∧ Possible B cs cond c
  order : ∀ b, b ∈ t.bbOrder ↔ (t.branchTargets b).isSome
  nodup : t.bbOrder.Nodup

variable {B cs cond defaultDest}

variable {cases : List (Nat × BlockID)} {t : SwitchTargets T} {c : Nat × BlockID}

private theorem Handled.skip (h : Handled B cs cond defaultDest cases t) (hd : c.2 = defaultDest) :
    Handled B cs cond defaultDest (cases ++ [c]) t := by
  refine ⟨h.defaultWidth, ?_, h.width, ?_, ?_, h.order, h.nodup⟩
  · intro m
    rw [h.default]
    simp [or_imp, forall_and, hd]
  · intro b e he m
    obtain ⟨_, _, _, hb, _⟩ := (h.isSome b).1 (by simp [he])
    have hcb : c.2 ≠ b := fun hcb => hb (hcb ▸ hd)
    rw [h.target b e he m]
    simp [or_and_right, exists_or, hcb]
  · intro b
    rw [h.isSome]
    constructor
    · rintro ⟨d, hmem, hrest⟩
      exact ⟨d, by simp [hmem], hrest⟩
    · rintro ⟨d, hmem, hdb, hb, hp⟩
      rcases List.mem_append.1 hmem with hmem | hmem
      · exact ⟨d, hmem, hdb, hb, hp⟩
      · rw [List.mem_singleton.1 hmem] at hdb
        exact (hb (hdb ▸ hd)).elim

private theorem Handled.exclude (h : Handled B cs cond defaultDest cases t) (hc : c.1 < 2 ^ T.width cond)
    (hd : c.2 ≠ defaultDest) (m : T.Model) :
    T.Holds m (T.and t.defaultValue (T.isZero (T.eq cond (T.const c.1 (T.width cond))))) ↔
      ∀ d ∈ cases ++ [c], d.2 ≠ defaultDest → T.eval m cond ≠ d.1 := by
  rw [ExprTheory.holds_and h.defaultWidth ExprTheory.width_isZero, ExprTheory.holds_isZero (by simp),
    ExprTheory.holds_eq_const hc, h.default]
  simp [or_imp, forall_and, hd]

private theorem Handled.impossible (h : Handled B cs cond defaultDest cases t) (hc : c.1 < 2 ^ T.width cond)
    (hd : c.2 ≠ defaultDest) (hp : ¬Possible B cs cond c) :
    Handled B cs cond defaultDest (cases ++ [c])
      { t with defaultValue := T.and t.defaultValue (T.isZero (T.eq cond (T.const c.1 (T.width cond)))) } := by
  refine ⟨by simp [h.defaultWidth], h.exclude hc hd, h.width, ?_, ?_, h.order, h.nodup⟩
  · intro b e he m
    rw [h.target b e he m]
    simp [or_and_right, exists_or, hp]
  · intro b
    rw [h.isSome]
    simp [or_and_right, exists_or, hp]

private theorem Handled.old (h : Handled B cs cond defaultDest cases t) (hd : c.2 ≠ defaultDest) :
    T.width ((t.branchTargets c.2).getD (T.const 0 1)) = 1 ∧
    ∀ m, T.Holds m ((t.branchTargets c.2).getD (T.const 0 1)) ↔
      ∃ d ∈ cases, d.2 = c.2 ∧ Possible B cs cond d ∧ T.eval m cond = d.1 := by
  cases ho : t.branchTargets c.2 with
  | none =>
    refine ⟨by simp, fun m => ⟨fun hf => (ExprTheory.not_holds_false hf).elim, ?_⟩⟩
    rintro ⟨d, hmem, hdb, hdp, -⟩
    have hsome := (h.isSome c.2).2 ⟨d, hmem, hdb, hd, hdp⟩
    simp [ho] at hsome
  | some e => exact ⟨h.width c.2 e ho, h.target c.2 e ho⟩

private theorem Handled.possible (h : Handled B cs cond defaultDest cases t) (hc : c.1 < 2 ^ T.width cond)
    (hd : c.2 ≠ defaultDest) (hp : Possible B cs cond c) :
    Handled B cs cond defaultDest (cases ++ [c])
      { defaultValue := T.and t.defaultValue (T.isZero (T.eq cond (T.const c.1 (T.width cond))))
        branchTargets := Function.update t.branchTargets c.2
          (some (T.or (T.eq cond (T.const c.1 (T.width cond))) ((t.branchTargets c.2).getD (T.const 0 1))))
        bbOrder := if (t.branchTargets c.2).isSome then t.bbOrder else t.bbOrder ++ [c.2] } := by
  obtain ⟨hold, holdTarget⟩ := h.old hd
  refine ⟨by simp [h.defaultWidth], h.exclude hc hd, ?_, ?_, ?_, ?_, ?_⟩
  · intro b e he
    by_cases hb : b = c.2
    · subst hb
      simp only [Function.update_self, Option.some.injEq] at he
      simp [← he]
    · simp only [Function.update_of_ne hb] at he
      exact h.width b e he
  · intro b e he m
    by_cases hb : b = c.2
    · subst hb
      simp only [Function.update_self, Option.some.injEq] at he
      rw [← he, ExprTheory.holds_or (by simp) hold, ExprTheory.holds_eq_const hc, holdTarget m]
      constructor
      · rintro (hm | ⟨d, hmem, hrest⟩)
        · exact ⟨c, by simp, rfl, hp, hm⟩
        · exact ⟨d, by simp [hmem], hrest⟩
      · rintro ⟨d, hmem, hdb, hdp, hm⟩
        rcases List.mem_append.1 hmem with hmem | hmem
        · exact .inr ⟨d, hmem, hdb, hdp, hm⟩
        · rw [List.mem_singleton.1 hmem] at hm
          exact .inl hm
    · have hcb : c.2 ≠ b := fun hcb => hb hcb.symm
      simp only [Function.update_of_ne hb] at he
      rw [h.target b e he m]
      simp [or_and_right, exists_or, hcb]
  · intro b
    by_cases hb : b = c.2
    · subst hb
      simp only [Function.update_self, Option.isSome_some, true_iff]
      exact ⟨c, by simp, rfl, hd, hp⟩
    · have hcb : c.2 ≠ b := fun hcb => hb hcb.symm
      simp only [Function.update_of_ne hb, h.isSome]
      simp [or_and_right, exists_or, hcb]
  · intro b
    by_cases hb : b = c.2
    · subst hb
      simp only [Function.update_self, Option.isSome_some, iff_true]
      split
      · rename_i hs
        exact (h.order c.2).2 hs
      · simp
    · simp only [Function.update_of_ne hb]
      split
      · exact h.order b
      · simp [hb, h.order b]
  · dsimp only
    split
    · exact h.nodup
    · rename_i hs
      rw [← List.concat_eq_append]
      exact List.Nodup.concat (fun hin => hs ((h.order c.2).1 hin)) h.nodup

private theorem Handled.addCase (h : Handled B cs cond defaultDest cases t) (hc : c.1 < 2 ^ T.width cond) :
    Handled B cs cond defaultDest (cases ++ [c]) (t.addCase B cs cond defaultDest c) := by
  unfold SwitchTargets.addCase
  dsimp only
  split
  · rename_i hd
    exact h.skip hd
  · rename_i hd
    split
    · rename_i hp
      exact h.possible hc hd hp
    · rename_i hp
      exact h.impossible hc hd hp

private theorem Handled.foldl (l : List (Nat × BlockID)) (h : Handled B cs cond defaultDest cases t)
    (hl : ∀ c ∈ l, c.1 < 2 ^ T.width cond) :
    Handled B cs cond defaultDest (cases ++ l) (l.foldl (SwitchTargets.addCase B cs cond defaultDest) t) := by
  induction l generalizing cases t with
  | nil => simpa using h
  | cons c l ih =>
    have hstep := ih (h.addCase (hl c (by simp))) fun d hd => hl d (by simp [hd])
    simpa using hstep

private theorem handled_nil (B : Backend T) (cs : List T.Expr) (cond : T.Expr) (defaultDest : BlockID) :
    Handled B cs cond defaultDest [] { defaultValue := T.const 1 1, branchTargets := fun _ => none, bbOrder := [] } where
  defaultWidth := by simp
  default m := by simp [ExprTheory.holds_true]
  width := by simp
  target := by simp
  isSome := by simp
  order := by simp
  nodup := List.nodup_nil

/-- The targets of the `switch`: each has a condition that holds in some model, and it holds in exactly those models
whose value leads a concrete `switch` there. -/
private structure Resolved (cs : List T.Expr) (cond : T.Expr) (si : SwitchInst) (t : SwitchTargets T) : Prop where
  nodup : t.bbOrder.Nodup
  mem : ∀ m ∈ T.models cs, si.successor (T.eval m cond) ∈ t.bbOrder
  target : ∀ bb ∈ t.bbOrder, ∃ e, t.branchTargets bb = some e ∧ T.width e = 1 ∧ (∃ m ∈ T.models cs, T.Holds m e) ∧
    ∀ m ∈ T.models cs, T.Holds m e ↔ si.successor (T.eval m cond) = bb

variable {si : SwitchInst} {order : List (Nat × BlockID)}

private theorem successor_eq_default_iff (horder : order.Perm si.cases) (v : Nat) :
    si.successor v = si.defaultDest ↔ ∀ c ∈ order, c.2 ≠ si.defaultDest → v ≠ c.1 := by
  constructor
  · rintro h c hc hd rfl
    exact hd ((si.successor_of_mem (horder.mem_iff.1 hc)).symm.trans h)
  · intro h
    by_cases hex : ∃ c ∈ si.cases, c.1 = v
    · obtain ⟨c, hc, rfl⟩ := hex
      rw [si.successor_of_mem hc]
      by_contra hd
      exact h c (horder.mem_iff.2 hc) hd rfl
    · exact si.successor_of_notMem fun c hc he => hex ⟨c, hc, he⟩

private theorem successor_eq_iff (horder : order.Perm si.cases) {bb : BlockID} (hbb : bb ≠ si.defaultDest) (v : Nat) :
    si.successor v = bb ↔ ∃ c ∈ order, c.2 = bb ∧ v = c.1 := by
  constructor
  · intro h
    by_cases hex : ∃ c ∈ si.cases, c.1 = v
    · obtain ⟨c, hc, rfl⟩ := hex
      exact ⟨c, horder.mem_iff.2 hc, (si.successor_of_mem hc).symm.trans h, rfl⟩
    · exact (hbb (h.symm.trans (si.successor_of_notMem fun c hc he => hex ⟨c, hc, he⟩))).elim
  · rintro ⟨c, hc, rfl, rfl⟩
    exact si.successor_of_mem (horder.mem_iff.1 hc)

private theorem possible_iff (hB : B.Exact) (hs : (T.models cs).Nonempty) (hc : c.1 < 2 ^ T.width cond) :
    Possible B cs cond c ↔ ∃ m ∈ T.models cs, T.eval m cond = c.1 := by
  unfold Possible
  rw [hB.mayBeTrue hs (by simp)]
  simp only [ExprTheory.holds_eq_const hc]

private theorem Handled.case_spec (h : Handled B cs cond si.defaultDest order t) (hB : B.Exact)
    (hs : (T.models cs).Nonempty) (horder : order.Perm si.cases) (hlt : ∀ c ∈ order, c.1 < 2 ^ T.width cond)
    {bb : BlockID} {e : T.Expr} (he : t.branchTargets bb = some e) :
    T.width e = 1 ∧ (∃ m ∈ T.models cs, T.Holds m e) ∧
      ∀ m ∈ T.models cs, T.Holds m e ↔ si.successor (T.eval m cond) = bb := by
  obtain ⟨c, hc, hcb, hbb, hp⟩ := (h.isSome bb).1 (by simp [he])
  refine ⟨h.width bb e he, ?_, ?_⟩
  · obtain ⟨m, hm, hv⟩ := (possible_iff hB hs (hlt c hc)).1 hp
    exact ⟨m, hm, (h.target bb e he m).2 ⟨c, hc, hcb, hp, hv⟩⟩
  · intro m hm
    rw [h.target bb e he m, successor_eq_iff horder hbb]
    constructor
    · rintro ⟨d, hd, hdb, -, hv⟩
      exact ⟨d, hd, hdb, hv⟩
    · rintro ⟨d, hd, hdb, hv⟩
      exact ⟨d, hd, hdb, (possible_iff hB hs (hlt d hd)).2 ⟨m, hm, hv⟩, hv⟩

private theorem Handled.mem_order (h : Handled B cs cond si.defaultDest order t) (hB : B.Exact)
    (hs : (T.models cs).Nonempty) (horder : order.Perm si.cases) (hlt : ∀ c ∈ order, c.1 < 2 ^ T.width cond)
    {m : T.Model} (hm : m ∈ T.models cs) (hd : si.successor (T.eval m cond) ≠ si.defaultDest) :
    si.successor (T.eval m cond) ∈ t.bbOrder := by
  obtain ⟨c, hc, hcb, hv⟩ := (successor_eq_iff horder hd (T.eval m cond)).1 rfl
  apply (h.order _).2
  exact (h.isSome _).2 ⟨c, hc, hcb, hd, (possible_iff hB hs (hlt c hc)).2 ⟨m, hm, hv⟩⟩

private theorem Handled.addDefault (h : Handled B cs cond si.defaultDest order t) (hB : B.Exact)
    (hs : (T.models cs).Nonempty) (horder : order.Perm si.cases) (hlt : ∀ c ∈ order, c.1 < 2 ^ T.width cond) :
    Resolved cs cond si (t.addDefault B cs si.defaultDest) := by
  have hnone : t.branchTargets si.defaultDest = none := by
    rw [← Option.not_isSome_iff_eq_none, h.isSome]
    rintro ⟨_, _, _, hd, _⟩
    exact hd rfl
  have hdefault : ∀ m, T.Holds m t.defaultValue ↔ si.successor (T.eval m cond) = si.defaultDest := by
    intro m
    rw [h.default, successor_eq_default_iff horder]
  have hcase : ∀ bb ∈ t.bbOrder, ∃ e, t.branchTargets bb = some e ∧ T.width e = 1 ∧
      (∃ m ∈ T.models cs, T.Holds m e) ∧ ∀ m ∈ T.models cs, T.Holds m e ↔ si.successor (T.eval m cond) = bb := by
    intro bb hbb
    obtain ⟨e, he⟩ := Option.isSome_iff_exists.1 ((h.order bb).1 hbb)
    exact ⟨e, he, h.case_spec hB hs horder hlt he⟩
  unfold SwitchTargets.addDefault
  by_cases hmay : B.mayBeTrue cs t.defaultValue = true
  · obtain ⟨m₀, hm₀, h₀⟩ := (hB.mayBeTrue hs h.defaultWidth).1 hmay
    have hnot : si.defaultDest ∉ t.bbOrder := by
      intro hin
      have hsome := (h.order _).1 hin
      simp [hnone] at hsome
    rw [if_pos hmay, hnone]
    simp only [Option.isSome_none, Bool.false_eq_true, if_false]
    refine ⟨?_, ?_, ?_⟩
    · rw [← List.concat_eq_append]
      exact List.Nodup.concat hnot h.nodup
    · intro m hm
      by_cases hd : si.successor (T.eval m cond) = si.defaultDest
      · simp [hd]
      · exact List.mem_append_left _ (h.mem_order hB hs horder hlt hm hd)
    · intro bb hbb
      by_cases hd : bb = si.defaultDest
      · subst hd
        exact ⟨t.defaultValue, by simp, h.defaultWidth, ⟨m₀, hm₀, h₀⟩, fun m _ => hdefault m⟩
      · obtain ⟨e, he, hrest⟩ := hcase bb (by simpa [hd] using hbb)
        exact ⟨e, by simpa [Function.update_of_ne hd] using he, hrest⟩
  · rw [if_neg hmay]
    refine ⟨h.nodup, ?_, hcase⟩
    intro m hm
    apply h.mem_order hB hs horder hlt hm
    intro hd
    exact hmay ((hB.mayBeTrue hs h.defaultWidth).2 ⟨m, hm, (hdefault m).2 hd⟩)

private theorem ofSwitch_resolved (hB : B.Exact) (hs : (T.models cs).Nonempty) (horder : order.Perm si.cases)
    (hw : T.width cond = si.width) : Resolved cs cond si (SwitchTargets.ofSwitch B cs cond si.defaultDest order) := by
  have hlt : ∀ c ∈ order, c.1 < 2 ^ T.width cond := by
    intro c hc
    rw [hw]
    exact si.cases_lt c (horder.mem_iff.1 hc)
  have h := (handled_nil B cs cond si.defaultDest).foldl order hlt
  rw [List.nil_append] at h
  exact h.addDefault hB hs horder hlt

end Targets

/-- The pair of states that `fork` returns has the models of `s` with the condition and without it. -/
def SplitsModels (s : SymState T σ) (c : T.Expr) (r : ForkResult T σ) : Prop :=
  modelsOf r.trueState = {m | m ∈ T.models s.constraints ∧ T.Holds m c} ∧
    modelsOf r.falseState = {m | m ∈ T.models s.constraints ∧ ¬T.Holds m c}

/-- Under the constraints of `s`, exactly one of the conditions holds in every model. -/
def PartitionsModels (s : SymState T σ) (conditions : List T.Expr) : Prop :=
  conditions.Pairwise (fun a b => ∀ m ∈ T.models s.constraints, ¬(T.Holds m a ∧ T.Holds m b)) ∧
    ∀ m ∈ T.models s.constraints, ∃ c ∈ conditions, T.Holds m c

/-- Every model of `s` ends in exactly one of the states, and it takes there the successor of the concrete
`switch`. -/
def FollowsSwitch (s : SymState T σ) (si : SwitchInst) (cond : T.Expr) (results : List (BlockID × SymState T σ)) :
    Prop :=
  (∀ m ∈ T.models s.constraints, ∃! i : Fin results.length, m ∈ T.models (results.get i).2.constraints) ∧
    ∀ p ∈ results, ∀ m ∈ T.models p.2.constraints, m ∈ T.models s.constraints ∧ p.1 = si.successor (T.eval m cond)

section Results

variable {cs : List T.Expr} {cond : T.Expr} {si : SwitchInst} {t : SwitchTargets T} {s : SymState T σ}

private theorem Resolved.partitions (h : Resolved s.constraints cond si t) : PartitionsModels s t.conditions := by
  have hget : ∀ bb ∈ t.bbOrder, ∀ m ∈ T.models s.constraints,
      (T.Holds m ((t.branchTargets bb).getD (T.const 0 1)) ↔ si.successor (T.eval m cond) = bb) := by
    intro bb hbb m hm
    obtain ⟨e, he, -, -, hh⟩ := h.target bb hbb
    rw [he]
    exact hh m hm
  constructor
  · unfold SwitchTargets.conditions
    rw [List.pairwise_map]
    refine (List.Pairwise.and_mem.1 h.nodup).imp fun {a b} hab m hm hh => hab.2.2 ?_
    rw [← (hget a hab.1 m hm).1 hh.1, ← (hget b hab.2.1 m hm).1 hh.2]
  · intro m hm
    have hin := h.mem m hm
    exact ⟨_, List.mem_map.2 ⟨_, hin, rfl⟩, (hget _ hin m hm).2 rfl⟩

private theorem followsSwitch_of_models {results : List (BlockID × SymState T σ)} (hnd : (results.map (·.1)).Nodup)
    (hmem : ∀ m ∈ T.models s.constraints, si.successor (T.eval m cond) ∈ results.map (·.1))
    (hmodels : ∀ p ∈ results, ∀ m, m ∈ T.models p.2.constraints ↔
      m ∈ T.models s.constraints ∧ si.successor (T.eval m cond) = p.1) : FollowsSwitch s si cond results := by
  constructor
  · intro m hm
    obtain ⟨p, hp, hpb⟩ := List.mem_map.1 (hmem m hm)
    obtain ⟨i, hi, rfl⟩ := List.getElem_of_mem hp
    refine ⟨⟨i, hi⟩, (hmodels _ hp m).2 ⟨hm, hpb.symm⟩, fun j hj => ?_⟩
    have hjb := ((hmodels _ (List.get_mem results j) m).1 hj).2
    -- the block determines the state
    have heq : (results.map (·.1))[i]? = (results.map (·.1))[j.1]? := by
      rw [List.getElem?_map, List.getElem?_map, List.getElem?_eq_getElem hi, List.getElem?_eq_getElem j.2,
        Option.map_some, Option.map_some, hpb]
      exact congrArg some hjb
    exact Fin.ext ((List.getElem?_inj (by simpa using hi) hnd).1 heq).symm
  · intro p hp m hm
    have hm' := (hmodels p hp m).1 hm
    exact ⟨hm'.1, hm'.2.symm⟩

private theorem executeSymbolicSwitch_follows (hB : B.Exact) {env : ForkEnv} (hp : env.branchingPermitted s)
    (hs : (T.models s.constraints).Nonempty) (rng : Nat → Nat) {order : List (Nat × BlockID)}
    (h : Resolved s.constraints cond si
      (SwitchTargets.ofSwitch B s.constraints cond si.defaultDest order)) :
    ∃ results, executeSymbolicSwitch B env rng s si order cond = some results ∧ FollowsSwitch s si cond results := by
  unfold executeSymbolicSwitch
  generalize SwitchTargets.ofSwitch B s.constraints cond si.defaultDest order = t at h
  have hne : t.conditions ≠ [] := by
    obtain ⟨m, hm⟩ := hs
    unfold SwitchTargets.conditions
    simpa using List.ne_nil_of_mem (h.mem m hm)
  obtain ⟨states, hbranch, hf⟩ := branch_spec hB hp rng hne fun c hc => by
    obtain ⟨bb, hbb, rfl⟩ := List.mem_map.1 hc
    obtain ⟨e, he, hw, hsat, -⟩ := h.target bb hbb
    rw [he]
    exact ⟨hw, hsat⟩
  have hlen : t.bbOrder.length = states.length := by
    simpa [SwitchTargets.conditions] using hf.length_eq
  have hzip : (t.bbOrder.zip (states.map some)).filterMap (fun e => e.2.map (e.1, ·)) = t.bbOrder.zip states := by
    rw [List.zip_map_right, List.filterMap_map]
    exact List.filterMap_some
  simp only [hbranch, Option.map_some, hzip]
  have hfst : (t.bbOrder.zip states).map (·.1) = t.bbOrder := List.map_fst_zip (by omega)
  refine ⟨_, rfl, followsSwitch_of_models (by rw [hfst]; exact h.nodup) (by rw [hfst]; exact h.mem) ?_⟩
  intro p hpm m
  -- the state of a block has the models in which its condition holds
  have hmodels := Loops.zip_of_forall₂_map hf p hpm
  have hbb : p.1 ∈ t.bbOrder := List.of_mem_zip hpm |>.1
  obtain ⟨e, he, -, -, hh⟩ := h.target p.1 hbb
  rw [hmodels, he]
  exact and_congr_right fun hm => hh m hm

end Results

/-- Forking neither loses nor duplicates inputs: `fork`, when no limit is reached, splits the models by the condition,
and a symbolic `switch` distributes them as the concrete one does. -/
theorem fork_switch_exact (hB : B.Exact) {env : ForkEnv} {s : SymState T σ} (hs : (T.models s.constraints).Nonempty)
    (hp : env.branchingPermitted s) :
    (env.staticLimitReached = false → (env.maxDepth = 0 ∨ s.depth + 1 < env.maxDepth) →
      ∀ c coin, T.width c = 1 → ∃ r, fork B env coin s c = some r ∧ SplitsModels s c r) ∧
    ∀ (si : SwitchInst) (order : List (Nat × BlockID)) (cond : T.Expr) (rng : Nat → Nat), order.Perm si.cases →
      T.width cond = si.width →
      PartitionsModels s (SwitchTargets.ofSwitch B s.constraints cond si.defaultDest order).conditions ∧
      ∃ results, executeSymbolicSwitch B env rng s si order cond = some results ∧
        FollowsSwitch s si cond results := by
  constructor
  · intro hstatic hdepth c coin hc
    obtain ⟨r, hr, hf⟩ := fork_forked hB ⟨hp, hstatic, hdepth⟩ hs hc coin
    exact ⟨r, hr, hf.trueModels, hf.falseModels⟩
  · intro si order cond rng horder hw
    have hres := ofSwitch_resolved hB hs horder hw
    exact ⟨hres.partitions, executeSymbolicSwitch_follows hB hp hs rng hres⟩

def bit : (shallow 1).Expr := ⟨1, fun m => BitVec.ofNat 1 m⟩

def unconstrained : SymState (shallow 1) Unit := ⟨[], 0, false, ()⟩

/-- `switch (bit) { case 0: block 1; default: block 2; }` -/
def bitSwitch : SwitchInst := ⟨1, [(0, 1)], 2, by decide, by decide⟩

theorem unconstrained_nonempty : ((shallow 1).models unconstrained.constraints).Nonempty :=
  ⟨(0 : Fin 2), fun _ h => nomatch h⟩

theorem fork_switch_exact_bit :
    (∃ r, fork (shallowBackend 1) {} true unconstrained bit = some r ∧ SplitsModels unconstrained bit r) ∧
    PartitionsModels unconstrained
      (SwitchTargets.ofSwitch (shallowBackend 1) unconstrained.constraints bit 2 bitSwitch.cases).conditions ∧
    ∃ results, executeSymbolicSwitch (shallowBackend 1) {} (fun _ => 0) unconstrained bitSwitch bitSwitch.cases bit =
      some results ∧ FollowsSwitch unconstrained bitSwitch bit results :=
  have hp : ({} : ForkEnv).branchingPermitted unconstrained := rfl
  have h := fork_switch_exact (shallowBackend_exact 1) unconstrained_nonempty hp
  ⟨h.1 rfl (.inl rfl) bit true rfl, h.2 bitSwitch bitSwitch.cases bit (fun _ => 0) (List.Perm.refl _) rfl⟩

def shallowTree : ForkEnv := { maxDepth := 1 }

/-- `--max-static-fork-pct=0.5`, at an instruction with most of the forks: the condition is concretised. -/
def hotFork : ForkEnv := { maxStaticForkPct := 1 / 2, forks := 1000, forksHere := 600 }

/-- Both limits lose the inputs in which the bit is set, although branching is permitted. -/
theorem not_splitsModels_limits :
    (shallowTree.branchingPermitted unconstrained ∧
      ¬∃ r, fork (shallowBackend 1) shallowTree true unconstrained bit = some r ∧ SplitsModels unconstrained bit r) ∧
    hotFork.branchingPermitted unconstrained ∧
      ¬∃ r, fork (shallowBackend 1) hotFork true unconstrained bit = some r ∧ SplitsModels unconstrained bit r := by
  have hset : (1 : Fin 2) ∈ {m | m ∈ (shallow 1).models unconstrained.constraints ∧ (shallow 1).Holds m bit} :=
    ⟨fun _ h => (nomatch h), rfl⟩
  have hlost : ∀ env, ((fork (shallowBackend 1) env true unconstrained bit).map (·.trueState.isSome)) = some false →
      ¬∃ r, fork (shallowBackend 1) env true unconstrained bit = some r ∧ SplitsModels unconstrained bit r := by
    rintro env h ⟨r, hr, hsplit, -⟩
    rw [hr, Option.map_some, Option.some.injEq, Option.isSome_eq_false_iff, Option.isNone_iff_eq_none] at h
    rw [← hsplit, h] at hset
    exact hset
  exact ⟨⟨rfl, hlost shallowTree (by decide)⟩, rfl, hlost hotFork (by decide +kernel)⟩

end CgsKlee
