import CgsKlee.Ida.Metadata
import CgsKlee.Lib.Loops
import Mathlib.Data.List.Nodup

/-!
# What the matching loop builds

The search through the callers ends (`runOnModule_isSome`), and the records that the loop builds are well formed
(`Matched`): every store of a variable is a numbered store, and a variable with stores has a type.
-/

namespace CgsKlee.Ida

variable {an : Analysis} {BD : BranchDep}

namespace Trace

/-- The callers of `F` have been added: `F` is traced, and none of its calls is waiting. -/
def closed (t : Trace) (F : FuncID) : Bool := F ∈ t.traced_funcs ∧ ∀ ci ∈ t.to_trace_insts, ci.func ≠ F

/-- At most one call of a function is waiting, and its function is traced. -/
structure Waiting (t : Trace) : Prop where
  nodup : (t.to_trace_insts.map (·.func)).Nodup
  traced : ∀ ci ∈ t.to_trace_insts, ci.func ∈ t.traced_funcs

end Trace

/-- The edges into functions that are not closed. -/
def openEdges (callGraph : List (FuncID × List CallInst)) (closed : FuncID → Bool) : Nat :=
  ((callGraph.filter fun e => !closed e.1).map (·.2.length)).sum

private theorem openEdges_cons (F : FuncID) (es : List CallInst) (g : List (FuncID × List CallInst))
    (c : FuncID → Bool) :
    openEdges ((F, es) :: g) c = (if c F then 0 else es.length) + openEdges g c := by
  unfold openEdges
  cases h : c F <;> simp [h]

private theorem openEdges_mono (g : List (FuncID × List CallInst)) {c c' : FuncID → Bool}
    (h : ∀ F, c F = true → c' F = true) : openEdges g c' ≤ openEdges g c := by
  induction g with
  | nil => exact Nat.le_refl _
  | cons e g ih =>
    obtain ⟨F, es⟩ := e
    rw [openEdges_cons, openEdges_cons]
    have hF := h F
    split <;> split <;> simp_all
    omega

theorem openEdges_close (g : List (FuncID × List CallInst)) {c c' : FuncID → Bool} {F₀ : FuncID}
    (h : ∀ F, c F = true → c' F = true) (h₀ : c F₀ = false) (h₁ : c' F₀ = true) :
    openEdges g c' + (((g.find? (·.1 = F₀)).map (·.2)).getD []).length ≤ openEdges g c := by
  induction g with
  | nil => exact Nat.le_refl _
  | cons e g ih =>
    obtain ⟨F, es⟩ := e
    rw [openEdges_cons, openEdges_cons]
    by_cases hF : F = F₀
    · subst hF
      have hm := openEdges_mono g h
      simp only [h₀, h₁, List.find?_cons_of_pos, decide_true, Option.map_some, Option.getD_some, if_true,
        Bool.false_eq_true, if_false]
      omega
    · have hc := h F
      rw [List.find?_cons_of_neg (by simpa using hF)]
      split <;> split <;> simp_all <;> omega

namespace Trace

variable {t : Trace}

private theorem addCaller_closed (p : Nat) (ci : CallInst) (F : FuncID) :
    (t.addCaller p ci).closed F = t.closed F := by
  unfold addCaller
  split
  · rfl
  · rename_i hci
    by_cases hF : F = ci.func
    · subst hF
      simp [closed, hci]
    · have hF' : ci.func ≠ F := fun h => hF h.symm
      simp [closed, hF, hF']

private theorem addCaller_waiting (p : Nat) (ci : CallInst) (h : t.Waiting) : (t.addCaller p ci).Waiting := by
  unfold addCaller
  split
  · exact h
  · rename_i hci
    constructor
    · simp only [List.map_cons, List.nodup_cons]
      refine ⟨fun hm => hci ?_, h.nodup⟩
      obtain ⟨cj, hj, he⟩ := List.mem_map.1 hm
      exact he ▸ h.traced cj hj
    · intro cj hj
      rcases List.mem_cons.1 hj with rfl | hj
      · exact List.mem_cons_self
      · exact List.mem_cons_of_mem _ (h.traced cj hj)

private theorem addCaller_length (p : Nat) (ci : CallInst) :
    (t.addCaller p ci).to_trace_insts.length ≤ t.to_trace_insts.length + 1 := by
  unfold addCaller
  split <;> simp

theorem addCallers (p : Nat) (es : List CallInst) (h : t.Waiting) :
    (es.foldl (addCaller p) t).closed = t.closed ∧ (es.foldl (addCaller p) t).Waiting ∧
      (es.foldl (addCaller p) t).to_trace_insts.length ≤ t.to_trace_insts.length + es.length := by
  induction es generalizing t with
  | nil => exact ⟨rfl, h, Nat.le_refl _⟩
  | cons ci es ih =>
    obtain ⟨hc, hw, hl⟩ := ih (addCaller_waiting p ci h)
    have hl' := addCaller_length (t := t) p ci
    refine ⟨hc.trans (funext (addCaller_closed p ci)), hw, ?_⟩
    simp only [List.foldl_cons, List.length_cons]
    omega

def remaining (an : Analysis) (t : Trace) : Nat := t.to_trace_insts.length + openEdges an.callGraph t.closed

theorem visit_remaining (an : Analysis) (BD : BranchDep) {cur : CallInst} {rest : List CallInst} (h : t.Waiting)
    (ht : t.to_trace_insts = cur :: rest) :
    (visit an BD { t with to_trace_insts := rest } cur).Waiting ∧
      (visit an BD { t with to_trace_insts := rest } cur).remaining an < t.remaining an := by
  obtain ⟨hnd, htr⟩ := h
  rw [ht] at hnd htr
  simp only [List.map_cons, List.nodup_cons, List.mem_map, not_exists, not_and] at hnd
  have hrest : ∀ ci ∈ rest, ci.func ≠ cur.func := fun ci hci => hnd.1 ci hci
  have hopen : t.closed cur.func = false := by simp [closed, ht]
  -- taking the call from the list closes its function
  have hpop : Waiting { t with to_trace_insts := rest } := ⟨hnd.2, fun ci hci => htr ci (by simp [hci])⟩
  have hcl : closed { t with to_trace_insts := rest } cur.func = true := by
    simpa [closed] using ⟨htr cur (by simp), hrest⟩
  have hmono : ∀ F, t.closed F = true → closed { t with to_trace_insts := rest } F = true := by
    intro F hF
    simp only [closed, ht, decide_eq_true_eq] at hF ⊢
    exact ⟨hF.1, fun ci hci => hF.2 ci (by simp [hci])⟩
  have hlen : t.to_trace_insts.length = rest.length + 1 := by simp [ht]
  have hle := openEdges_mono an.callGraph hmono
  have hsame : remaining an { t with to_trace_insts := rest } < t.remaining an := by
    unfold remaining
    rw [hlen]
    simp only
    omega
  unfold visit
  split
  · exact ⟨hpop, hsame⟩
  · split
    · exact ⟨hpop, hsame⟩
    · rename_i param_index _ _
      obtain ⟨hc, hw, hl⟩ := addCallers param_index (an.inEdges cur.func) hpop
      refine ⟨hw, ?_⟩
      have hclose := openEdges_close an.callGraph hmono hopen hcl
      have hin : (an.inEdges cur.func).length =
        (((an.callGraph.find? (·.1 = cur.func)).map (·.2)).getD []).length := rfl
      simp only [remaining, hc, hlen] at hl ⊢
      omega
    · -- the function of the call is no longer traced: what was closed before is closed now
      have hc : ∀ s d, closed ⟨rest, t.traced_funcs.filter (· ≠ cur.func), t.func_param_index, s, d⟩ = t.closed := by
        intro s d
        funext F
        by_cases hF : F = cur.func
        · subst hF
          simp [closed, ht]
        · have hF' : cur.func ≠ F := fun h => hF h.symm
          simp [closed, ht, hF, hF']
      refine ⟨⟨hnd.2, fun ci hci => ?_⟩, ?_⟩
      · simpa using ⟨htr ci (by simp [hci]), hrest ci hci⟩
      · simp only [remaining, hlen, hc]
        omega

private theorem run_isSome {fuel : Nat} (h : t.Waiting) (hf : t.remaining an < fuel) :
    (run an BD fuel t).isSome := by
  induction fuel generalizing t with
  | zero => omega
  | succ fuel ih =>
    unfold run
    split
    · rfl
    · rename_i cur rest ht
      obtain ⟨hw, hlt⟩ := visit_remaining an BD h ht
      exact ih hw (by omega)

def start (an : Analysis) (BD : BranchDep) (nsp_param : Nat) : Trace :=
  (an.inEdges BD.func).foldl (addCaller nsp_param) { traced_funcs := [BD.func] }

theorem start_remaining (an : Analysis) (BD : BranchDep) (nsp_param : Nat) :
    (start an BD nsp_param).Waiting ∧ (start an BD nsp_param).remaining an < an.traceBound := by
  have hw : Waiting { traced_funcs := [BD.func] } := ⟨List.nodup_nil, by simp⟩
  obtain ⟨hc, hw', hl⟩ := addCallers nsp_param (an.inEdges BD.func) hw
  have hstart : closed { traced_funcs := [BD.func] } BD.func = true := by simp [closed]
  have hnone : ∀ F, (fun _ => false : FuncID → Bool) F = true → closed { traced_funcs := [BD.func] } F = true := by
    simp
  have hopen := openEdges_close an.callGraph hnone rfl hstart
  have htotal : openEdges an.callGraph (fun _ => false) = (an.callGraph.map (·.2.length)).sum := by
    simp [openEdges]
  have hin : (an.inEdges BD.func).length =
    (((an.callGraph.find? (·.1 = BD.func)).map (·.2)).getD []).length := rfl
  refine ⟨hw', ?_⟩
  simp only [start, remaining, hc, Analysis.traceBound, List.length_nil] at hl ⊢
  omega

end Trace

theorem findStoresForBranchOnCG_isSome (an : Analysis) (BD : BranchDep) (nsp_param : Nat) :
    (findStoresForBranchOnCG an BD nsp_param).isSome := by
  obtain ⟨hw, hlt⟩ := Trace.start_remaining an BD nsp_param
  unfold findStoresForBranchOnCG
  simp only [Option.isSome_map]
  exact Trace.run_isSome hw hlt

private theorem matchVariable_isSome (acc : Nat × List VD2SDDep) (d : DataDep) :
    (matchVariable an BD acc d).isSome := by
  cases d with
  | nonPointerParam p => simpa [matchVariable] using findStoresForBranchOnCG_isSome an BD p
  | localVariable _ => rfl
  | globalVariable _ => rfl
  | structPointerParam _ => rfl

private theorem matchBranch_isSome (an : Analysis) (BD : BranchDep) (id : BranchID) : (matchBranch an BD id).isSome := by
  obtain ⟨acc, h, -⟩ := Loops.foldlM_isSome (f := matchVariable an BD) (l := BD.data_dep_set) (s := (0, []))
    (fun _ => True) (fun d _ acc _ => by simpa using Option.isSome_iff_exists.1 (matchVariable_isSome acc d)) trivial
  simp [matchBranch, h]

theorem runOnModule_isSome (an : Analysis) : (runOnModule an).isSome := by
  unfold runOnModule
  generalize (an.fbd.flatMap (·.2)).zipIdx = l
  induction l with
  | nil => rfl
  | cons e l ih =>
    obtain ⟨bv, hb⟩ := Option.isSome_iff_exists.1 (matchBranch_isSome an e.1 (e.2 + 1))
    obtain ⟨bvs, hs⟩ := Option.isSome_iff_exists.1 ih
    simp [List.mapM_cons, hb, hs]

private theorem mem_insertStores {p : StoreDep → Bool} {SDSet storeDeps : List StoreDep} {SD : StoreDep}
    (h : SD ∈ insertStores p SDSet storeDeps) : SD ∈ storeDeps ∨ SD ∈ SDSet := by
  unfold insertStores at h
  induction SDSet generalizing storeDeps with
  | nil => exact .inl h
  | cons a SDSet ih =>
    rcases ih h with h | h
    · dsimp only at h
      split at h
      · unfold insertStore at h
        split at h
        · exact .inl h
        · rcases List.mem_append.1 h with h | h
          · exact .inl h
          · exact .inr (by simp_all)
      · exact .inl h
    · exact .inr (List.mem_cons_of_mem _ h)

private theorem mem_stores_of_mem_storesOf {F : FuncID} {SD : StoreDep} (h : SD ∈ an.storesOf F) :
    SD ∈ an.stores := by
  unfold Analysis.storesOf at h
  cases hf : an.sdMap.find? (·.1 = F) with
  | none => simp [hf] at h
  | some e =>
    rw [hf] at h
    exact List.mem_flatMap.2 ⟨e, List.mem_of_find?_eq_some hf, h⟩

private theorem findStoresForBranch_subset (BD : BranchDep) (d : DataDep) {storeDeps : List StoreDep}
    (h : ∀ SD ∈ storeDeps, SD ∈ an.stores) : ∀ SD ∈ findStoresForBranch an BD d storeDeps, SD ∈ an.stores := by
  intro SD hm
  cases d with
  | localVariable _ => exact (mem_insertStores hm).elim (h SD) mem_stores_of_mem_storesOf
  | globalVariable _ => exact (mem_insertStores hm).elim (h SD) id
  | structPointerParam _ => exact (mem_insertStores hm).elim (h SD) id
  | nonPointerParam _ => exact h SD hm

/-- The stores of a variable have entries in `_SDMap`, and a variable with stores has one of the three types. -/
def VD2SDDep.WellFormed (an : Analysis) (v : VD2SDDep) : Prop :=
  (∀ SD ∈ v.storeDeps, SD ∈ an.stores) ∧ (v.storeDeps ≠ [] → (variableType v.data_dep).isSome)

private def Trace.WellFormed (an : Analysis) (t : Trace) : Prop :=
  (∀ SD ∈ t.storeDeps, SD ∈ an.stores) ∧ (t.storeDeps ≠ [] → (variableType t.data_dep).isSome)

private theorem addCallers_wellFormed (p : Nat) (es : List CallInst) {t : Trace} (h : t.WellFormed an) :
    (es.foldl (Trace.addCaller p) t).WellFormed an := by
  induction es generalizing t with
  | nil => exact h
  | cons ci es ih =>
    apply ih
    unfold Trace.addCaller
    split
    · exact h
    · exact h

private theorem visit_wellFormed {t : Trace} (cur : CallInst) (h : t.WellFormed an) :
    (t.visit an BD cur).WellFormed an := by
  unfold Trace.visit
  split
  · exact h
  · split
    · exact h
    · exact addCallers_wellFormed _ _ h
    · rename_i d _ hd _
      refine ⟨?_, fun _ => ?_⟩
      · cases d with
        | localVariable _ =>
          intro SD hm
          exact (mem_insertStores hm).elim (h.1 SD) mem_stores_of_mem_storesOf
        | globalVariable g => exact findStoresForBranch_subset BD (.globalVariable g) h.1
        | structPointerParam l => exact findStoresForBranch_subset BD (.structPointerParam l) h.1
        | nonPointerParam p => exact (hd p rfl).elim
      · cases d with
        | nonPointerParam p => exact (hd p rfl).elim
        | _ => rfl

private theorem run_wellFormed {fuel : Nat} {t t' : Trace} (h : t.WellFormed an)
    (hr : Trace.run an BD fuel t = some t') : t'.WellFormed an := by
  induction fuel generalizing t with
  | zero => cases hr
  | succ fuel ih =>
    unfold Trace.run at hr
    split at hr
    · cases hr
      exact h
    · rename_i cur rest _
      have hw : Trace.WellFormed an { t with to_trace_insts := rest } := h
      exact ih (visit_wellFormed cur hw) hr

private theorem findStoresForBranchOnCG_wellFormed {p : Nat} {vs : List VD2SDDep}
    (h : findStoresForBranchOnCG an BD p = some vs) : ∀ v ∈ vs, v.WellFormed an := by
  simp only [findStoresForBranchOnCG, Option.map_eq_some_iff] at h
  obtain ⟨t, ht, rfl⟩ := h
  have hw : t.WellFormed an := by
    refine run_wellFormed (addCallers_wellFormed p _ ?_) ht
    exact ⟨by simp, by simp⟩
  intro v hv
  split at hv
  · cases hv
  · rw [List.mem_singleton] at hv
    subst hv
    exact hw

private theorem matchVariable_wellFormed {acc acc' : Nat × List VD2SDDep} {d : DataDep}
    (h : ∀ v ∈ acc.2, v.WellFormed an) (hm : matchVariable an BD acc d = some acc') :
    ∀ v ∈ acc'.2, v.WellFormed an := by
  have hdirect : ∀ data_dep : DataDep, (variableType (some data_dep)).isSome →
      VD2SDDep.WellFormed an ⟨acc.1, some data_dep, findStoresForBranch an BD data_dep []⟩ := fun data_dep ht =>
    ⟨findStoresForBranch_subset BD data_dep (by simp), fun _ => ht⟩
  intro v hv
  cases d with
  | nonPointerParam p =>
    simp only [matchVariable, Option.map_eq_some_iff] at hm
    obtain ⟨vs, hvs, rfl⟩ := hm
    exact (List.mem_append.1 hv).elim (h v) (findStoresForBranchOnCG_wellFormed hvs v)
  | localVariable _ =>
    cases hm
    exact (List.mem_append.1 hv).elim (h v) fun hv => List.mem_singleton.1 hv ▸ hdirect _ rfl
  | globalVariable _ =>
    cases hm
    exact (List.mem_append.1 hv).elim (h v) fun hv => List.mem_singleton.1 hv ▸ hdirect _ rfl
  | structPointerParam _ =>
    cases hm
    exact (List.mem_append.1 hv).elim (h v) fun hv => List.mem_singleton.1 hv ▸ hdirect _ rfl

private theorem matchBranch_spec {id : BranchID} {r : BD2VDDep} (h : matchBranch an BD id = some r) :
    r.branch_dep = BD ∧ r.id = id ∧ r.store_num = (r.varDeps.map (·.storeDeps.length)).sum ∧
      ∀ v ∈ r.varDeps, v.WellFormed an := by
  simp only [matchBranch, Option.map_eq_some_iff] at h
  obtain ⟨⟨n, vs⟩, hf, rfl⟩ := h
  refine ⟨rfl, rfl, rfl, ?_⟩
  exact Loops.foldlM_rel
    (fun acc acc' : Nat × List VD2SDDep => (∀ v ∈ acc.2, v.WellFormed an) → ∀ v ∈ acc'.2, v.WellFormed an)
    (fun _ h => h) (fun h₁ h₂ h => h₂ (h₁ h)) (fun _ _ _ _ hm h => matchVariable_wellFormed h hm) hf (by simp)

/-- The records of the branches, in the order of an iteration over them. -/
structure Matched (an : Analysis) (bvDeps : List BD2VDDep) : Prop where
  insts_nodup : (bvDeps.map (·.branch_dep.inst)).Nodup
  ids_nodup : (bvDeps.map (·.id)).Nodup
  branch_mem : ∀ r ∈ bvDeps, r.branch_dep ∈ an.fbd.flatMap (·.2)
  store_num : ∀ r ∈ bvDeps, r.store_num = (r.varDeps.map (·.storeDeps.length)).sum
  wellFormed : ∀ r ∈ bvDeps, ∀ v ∈ r.varDeps, v.WellFormed an

theorem matched_of_runOnModule {built : List BD2VDDep} (h : runOnModule an = some built) : Matched an built := by
  have hall := Loops.mapM_forall₂ h
  have hspec : List.Forall₂ (fun (e : BranchDep × Nat) r => r.branch_dep = e.1 ∧ r.id = e.2 + 1 ∧
      r.store_num = (r.varDeps.map (·.storeDeps.length)).sum ∧ ∀ v ∈ r.varDeps, v.WellFormed an)
      (an.fbd.flatMap (·.2)).zipIdx built := hall.imp fun _ _ h => matchBranch_spec h
  have hb : built.map (·.branch_dep) = an.fbd.flatMap (·.2) := by
    rw [← List.zipIdx_map_fst 0 (an.fbd.flatMap (·.2))]
    exact (Loops.map_eq_of_forall₂ (hspec.imp fun _ _ h => h.1.symm)).symm
  have hi : built.map (·.id) = (List.range' 0 (an.fbd.flatMap (·.2)).length).map (· + 1) := by
    rw [← List.zipIdx_map_snd 0 (an.fbd.flatMap (·.2)), List.map_map]
    exact (Loops.map_eq_of_forall₂ (hspec.imp fun _ _ h => h.2.1.symm)).symm
  constructor
  · have hn := an.branches_nodup
    rwa [← hb, List.map_map] at hn
  · rw [hi]
    exact List.Nodup.map (fun a b h => by simpa using h) List.nodup_range'
  · intro r hr
    exact hb ▸ List.mem_map_of_mem hr
  · intro r hr
    obtain ⟨e, -, h⟩ := Loops.exists_of_forall₂ hspec hr
    exact h.2.2.1
  · intro r hr
    obtain ⟨e, -, h⟩ := Loops.exists_of_forall₂ hspec hr
    exact h.2.2.2

def VD2SDDep.Reordered (v v' : VD2SDDep) : Prop :=
  v.id = v'.id ∧ v.data_dep = v'.data_dep ∧ v.storeDeps.Perm v'.storeDeps

def BD2VDDep.Reordered (r r' : BD2VDDep) : Prop :=
  r.branch_dep = r'.branch_dep ∧ r.id = r'.id ∧ r.store_num = r'.store_num ∧
    ∃ vs, r.varDeps.Perm vs ∧ List.Forall₂ VD2SDDep.Reordered vs r'.varDeps

/-- `bvDeps` lists the records of `built` in an order in which the hashed sets may be iterated over. -/
def Reordered (built bvDeps : List BD2VDDep) : Prop :=
  ∃ rs, built.Perm rs ∧ List.Forall₂ BD2VDDep.Reordered rs bvDeps

private theorem VD2SDDep.Reordered.wellFormed {v v' : VD2SDDep} (h : v.Reordered v') (hv : v.WellFormed an) :
    v'.WellFormed an := by
  obtain ⟨-, hd, hp⟩ := h
  refine ⟨fun SD hm => hv.1 SD (hp.mem_iff.2 hm), fun hne => hd ▸ hv.2 fun h => hne ?_⟩
  rw [h] at hp
  exact hp.nil_eq.symm

private theorem BD2VDDep.Reordered.sum_eq {r r' : BD2VDDep} (h : r.Reordered r') :
    (r'.varDeps.map (·.storeDeps.length)).sum = (r.varDeps.map (·.storeDeps.length)).sum := by
  obtain ⟨-, -, -, vs, hp, hf⟩ := h
  rw [(hp.map _).sum_nat, Loops.map_eq_of_forall₂ (hf.imp fun _ _ h => h.2.2.length_eq)]

theorem Matched.reordered {built bvDeps : List BD2VDDep} (h : Matched an built) (hr : Reordered built bvDeps) :
    Matched an bvDeps := by
  obtain ⟨rs, hp, hf⟩ := hr
  have hi : rs.map (·.branch_dep.inst) = bvDeps.map (·.branch_dep.inst) :=
    Loops.map_eq_of_forall₂ (hf.imp fun _ _ h => by rw [h.1])
  have hid : rs.map (·.id) = bvDeps.map (·.id) := Loops.map_eq_of_forall₂ (hf.imp fun _ _ h => h.2.1)
  constructor
  · exact hi ▸ (hp.map _).nodup_iff.1 h.insts_nodup
  · exact hid ▸ (hp.map _).nodup_iff.1 h.ids_nodup
  · intro r hr
    obtain ⟨r₀, hr₀, h₀⟩ := Loops.exists_of_forall₂ hf hr
    exact h₀.1 ▸ h.branch_mem r₀ (hp.mem_iff.2 hr₀)
  · intro r hr
    obtain ⟨r₀, hr₀, h₀⟩ := Loops.exists_of_forall₂ hf hr
    rw [h₀.sum_eq, ← h₀.2.2.1]
    exact h.store_num r₀ (hp.mem_iff.2 hr₀)
  · intro r hr v hv
    obtain ⟨r₀, hr₀, -, -, -, vs, hvs, hfv⟩ := Loops.exists_of_forall₂ hf hr
    obtain ⟨v₀, hv₀, hre⟩ := Loops.exists_of_forall₂ hfv hv
    exact hre.wellFormed (h.wellFormed r₀ (hp.mem_iff.2 hr₀) v₀ (hvs.mem_iff.2 hv₀))

end CgsKlee.Ida
