import CgsKlee.Ida.Matching

/-!
# The search through the call sites

`findStoresForBranchOnCG` follows the value of a parameter from the calls of a function to the calls of the callers.
The search ends whatever `extractDataDependency` answers: a function whose callers have been added stays marked,
since none of its calls waits any more (`search_ends`).

Which calls are looked at depends on the order of the edges.  The callers are marked by their function, so that of two
calls in one function only the first is taken while the function is marked.  If the calls that can be reached lie in
different functions, all of them are looked at, in every order (`storeDeps_order`).
-/

namespace CgsKlee.Ida

namespace Trace

/-- The search after some iterations, where `extractDataDependency` answers as `extract n` in the iteration `n`.  A
search that has come to its end stays as it is. -/
def iterate (an : Analysis) (BD : BranchDep) (extract : Nat → InstID → List DataDep) (t : Trace) : Nat → Trace
  | 0 => t
  | n + 1 =>
    let t := iterate an BD extract t n
    match t.to_trace_insts with
    | [] => t
    | cur_inst :: rest =>
      visit { an with extractDataDependency := extract n } BD { t with to_trace_insts := rest } cur_inst

theorem iterate_remaining (an : Analysis) (BD : BranchDep) (extract : Nat → InstID → List DataDep) {t : Trace}
    (h : t.Waiting) (n : Nat) :
    (iterate an BD extract t n).Waiting ∧ ((iterate an BD extract t n).to_trace_insts = [] ∨
      (iterate an BD extract t n).remaining an + n ≤ t.remaining an) := by
  induction n with
  | zero => exact ⟨h, .inr (Nat.le_refl _)⟩
  | succ n ih =>
    obtain ⟨hw, hr⟩ := ih
    unfold iterate
    dsimp only
    split
    · rename_i hnil
      exact ⟨hw, .inl hnil⟩
    · rename_i cur rest hcons
      obtain ⟨hw', hlt⟩ := visit_remaining { an with extractDataDependency := extract n } BD hw hcons
      refine ⟨hw', .inr ?_⟩
      have hle : (iterate an BD extract t n).remaining an + n ≤ t.remaining an := by
        rcases hr with hr | hr
        · rw [hr] at hcons
          cases hcons
        · exact hr
      change remaining an _ < remaining an _ at hlt
      omega

end Trace

/-- For every call graph and every behaviour of `extractDataDependency`, the loop of `findStoresForBranchOnCG` ends
after at most as many iterations as the graph has edges, and one. -/
theorem search_ends (an : Analysis) (BD : BranchDep) (nsp_param : Nat) (extract : Nat → InstID → List DataDep) :
    (∃ n ≤ an.traceBound, (Trace.iterate an BD extract (Trace.start an BD nsp_param) n).to_trace_insts = []) ∧
      (findStoresForBranchOnCG an BD nsp_param).isSome := by
  obtain ⟨hw, hlt⟩ := Trace.start_remaining an BD nsp_param
  refine ⟨⟨an.traceBound, Nat.le_refl _, ?_⟩, findStoresForBranchOnCG_isSome an BD nsp_param⟩
  rcases (Trace.iterate_remaining an BD extract hw an.traceBound).2 with hnil | hle
  · exact hnil
  · omega

namespace Analysis

def source (an : Analysis) (ci : CallInst) (param_index : Nat) : Option DataDep :=
  (an.operand ci.id param_index).bind fun call_op => (an.extractDataDependency call_op).head?

/-- The calls that a value of the parameter `nsp_param` of `F` can come through, with the argument: those of `F`, and
those of the function of such a call if its argument is a parameter of that function. -/
inductive Reaches (an : Analysis) (F : FuncID) (nsp_param : Nat) : CallInst → Nat → Prop
  | base {ci : CallInst} (h : ci ∈ an.inEdges F) (hF : ci.func ≠ F) : Reaches an F nsp_param ci nsp_param
  | step {ci ci' : CallInst} {p p' : Nat} (h : Reaches an F nsp_param ci p)
      (hs : an.source ci p = some (.nonPointerParam p')) (h' : ci' ∈ an.inEdges ci.func) (hF : ci'.func ≠ F) :
      Reaches an F nsp_param ci' p'

/-- The calls that can be reached lie in different functions. -/
def OneSite (an : Analysis) (F : FuncID) (nsp_param : Nat) : Prop :=
  ∀ ci p cj q, an.Reaches F nsp_param ci p → an.Reaches F nsp_param cj q → ci.func = cj.func → ci = cj ∧ p = q

def CallsInFunctions (an : Analysis) : Prop :=
  ∀ F G ci cj, ci ∈ an.inEdges F → cj ∈ an.inEdges G → ci.id = cj.id → ci.func = cj.func

/-- The same analysis with the edges into each function in another order. -/
structure SameUpToOrder (an an' : Analysis) : Prop where
  edges : ∀ F, (an.inEdges F).Perm (an'.inEdges F)
  rest : an' = { an with callGraph := an'.callGraph }

/-- The stores that are found for the source `d` of an argument of `ci`. -/
def storesFrom (an : Analysis) (BD : BranchDep) (ci : CallInst) (d : DataDep) : List StoreDep :=
  match d with
  | .localVariable v => insertStores (fun SD => SD.data_dep = .localVariable v) (an.storesOf ci.func) []
  | d => findStoresForBranch an BD d []

end Analysis

def storesOfVariables (vsDeps : Option (List VD2SDDep)) : List StoreDep := (vsDeps.getD []).flatMap (·.storeDeps)

section

variable {an an' : Analysis} {BD : BranchDep} {nsp_param : Nat}

theorem Analysis.Reaches.func_ne {F : FuncID} {ci : CallInst} {p : Nat} (h : an.Reaches F nsp_param ci p) :
    ci.func ≠ F := by
  cases h with
  | base _ hF => exact hF
  | step _ _ _ hF => exact hF

theorem Analysis.Reaches.mem_edges {F : FuncID} {ci : CallInst} {p : Nat} (h : an.Reaches F nsp_param ci p) :
    ∃ G, ci ∈ an.inEdges G := by
  cases h with
  | base h _ => exact ⟨_, h⟩
  | step _ _ h _ => exact ⟨_, h⟩

variable {storeDeps : List StoreDep}

theorem mem_insertStore_iff {SD SD' : StoreDep} :
    SD ∈ insertStore storeDeps SD' ↔ SD ∈ storeDeps ∨ SD = SD' := by
  unfold insertStore
  split
  · rename_i h
    constructor
    · exact .inl
    · rintro (hm | rfl)
      · exact hm
      · exact h
  · simp

theorem mem_insertStores_iff {f : StoreDep → Bool} {SDSet : List StoreDep} {SD : StoreDep} :
    SD ∈ insertStores f SDSet storeDeps ↔ SD ∈ storeDeps ∨ (SD ∈ SDSet ∧ f SD = true) := by
  unfold insertStores
  induction SDSet generalizing storeDeps with
  | nil => simp
  | cons SD' SDSet ih =>
    rw [List.foldl_cons, ih]
    by_cases hf : f SD' = true
    · rw [if_pos hf, mem_insertStore_iff, List.mem_cons]
      constructor
      · rintro ((hm | rfl) | ⟨hm, hs⟩)
        · exact .inl hm
        · exact .inr ⟨.inl rfl, hf⟩
        · exact .inr ⟨.inr hm, hs⟩
      · rintro (hm | ⟨rfl | hm, hs⟩)
        · exact .inl (.inl hm)
        · exact .inl (.inr rfl)
        · exact .inr ⟨hm, hs⟩
    · rw [if_neg hf, List.mem_cons]
      constructor
      · rintro (hm | ⟨hm, hs⟩)
        · exact .inl hm
        · exact .inr ⟨.inr hm, hs⟩
      · rintro (hm | ⟨rfl | hm, hs⟩)
        · exact .inl hm
        · exact absurd hs hf
        · exact .inr ⟨hm, hs⟩

theorem mem_findStoresForBranch_iff {d : DataDep} {SD : StoreDep} :
    SD ∈ findStoresForBranch an BD d storeDeps ↔ SD ∈ storeDeps ∨ SD ∈ findStoresForBranch an BD d [] := by
  cases d with
  | nonPointerParam _ => simp [findStoresForBranch]
  | localVariable _ => simp [findStoresForBranch, mem_insertStores_iff]
  | globalVariable _ => simp [findStoresForBranch, mem_insertStores_iff]
  | structPointerParam _ => simp [findStoresForBranch, mem_insertStores_iff]

namespace Trace

variable {t : Trace}

theorem visit_cases (an : Analysis) (BD : BranchDep) (t : Trace) (cur : CallInst) :
    (an.source cur (t.func_param_index cur.id) = none ∧ visit an BD t cur = t) ∨
    (∃ p, an.source cur (t.func_param_index cur.id) = some (.nonPointerParam p) ∧
      visit an BD t cur = (an.inEdges cur.func).foldl (addCaller p) t) ∨
    (∃ d, an.source cur (t.func_param_index cur.id) = some d ∧ (∀ p, d ≠ .nonPointerParam p) ∧
      ∃ storeDeps, (∀ SD, SD ∈ storeDeps ↔ SD ∈ t.storeDeps ∨ SD ∈ an.storesFrom BD cur d) ∧
        visit an BD t cur = { t with
          traced_funcs := t.traced_funcs.filter (· ≠ cur.func), storeDeps, data_dep := some d }) := by
  unfold visit Analysis.source
  cases hop : an.operand cur.id (t.func_param_index cur.id) with
  | none => exact .inl ⟨rfl, rfl⟩
  | some call_op =>
    dsimp only [Option.bind_some]
    cases hdeps : an.extractDataDependency call_op with
    | nil => exact .inl ⟨rfl, rfl⟩
    | cons d ds =>
      cases d with
      | nonPointerParam p => exact .inr (.inl ⟨p, rfl, rfl⟩)
      | localVariable v =>
        refine .inr (.inr ⟨_, rfl, (by simp), _, fun SD => ?_, rfl⟩)
        simp [Analysis.storesFrom, mem_insertStores_iff]
      | globalVariable v =>
        exact .inr (.inr ⟨_, rfl, (by simp), _, fun SD => mem_findStoresForBranch_iff, rfl⟩)
      | structPointerParam l =>
        exact .inr (.inr ⟨_, rfl, (by simp), _, fun SD => mem_findStoresForBranch_iff, rfl⟩)

def Waits (t : Trace) (ci : CallInst) (p : Nat) : Prop := ci ∈ t.to_trace_insts ∧ t.func_param_index ci.id = p

/-- The search has looked at the calls `done`, and what is marked is accounted for. -/
structure Search (an : Analysis) (BD : BranchDep) (nsp_param : Nat) (done : List (CallInst × Nat)) (t : Trace) :
    Prop where
  waiting : t.Waiting
  branch : BD.func ∈ t.traced_funcs
  waits : ∀ ci ∈ t.to_trace_insts, an.Reaches BD.func nsp_param ci (t.func_param_index ci.id)
  reached : ∀ e ∈ done, an.Reaches BD.func nsp_param e.1 e.2
  traced : ∀ F ∈ t.traced_funcs, F = BD.func ∨ (∃ e ∈ done, e.1.func = F) ∨ ∃ ci ∈ t.to_trace_insts, ci.func = F

def Covered (done : List (CallInst × Nat)) (t : Trace) (ci : CallInst) (p : Nat) : Prop :=
  (ci, p) ∈ done ∨ t.Waits ci p

variable {done : List (CallInst × Nat)}

theorem addCaller_search {ci : CallInst} {p : Nat}
    (hone : an.OneSite BD.func nsp_param) (hwf : an.CallsInFunctions) (h : Search an BD nsp_param done t)
    (hci : ci.func ≠ BD.func → an.Reaches BD.func nsp_param ci p) :
    Search an BD nsp_param done (t.addCaller p ci) ∧ (t.addCaller p ci).storeDeps = t.storeDeps ∧
      (∀ cj q, Covered done t cj q → Covered done (t.addCaller p ci) cj q) ∧
      (ci.func ≠ BD.func → Covered done (t.addCaller p ci) ci p) := by
  unfold addCaller
  by_cases hin : ci.func ∈ t.traced_funcs
  · rw [if_pos hin]
    refine ⟨h, rfl, fun _ _ hc => hc, fun hne => ?_⟩
    -- another call of the function has been taken before, and by assumption it is this one
    have hreach := hci hne
    rcases h.traced _ hin with hF | ⟨e, he, hfunc⟩ | ⟨cj, hj, hfunc⟩
    · exact absurd hF hne
    · obtain ⟨h₁, h₂⟩ := hone _ _ _ _ hreach (h.reached e he) hfunc.symm
      subst h₁ h₂
      exact .inl he
    · obtain ⟨h₁, h₂⟩ := hone _ _ _ _ hreach (h.waits cj hj) hfunc.symm
      subst h₁
      exact .inr ⟨hj, h₂.symm⟩
  · rw [if_neg hin]
    have hne : ci.func ≠ BD.func := fun he => hin (he ▸ h.branch)
    have hreach := hci hne
    have hold : ∀ cj ∈ t.to_trace_insts, Function.update t.func_param_index ci.id p cj.id = t.func_param_index cj.id := by
      intro cj hj
      apply Function.update_of_ne
      intro hid
      obtain ⟨F, hF⟩ := hreach.mem_edges
      obtain ⟨G, hG⟩ := (h.waits cj hj).mem_edges
      exact hin (hwf G F cj ci hG hF hid ▸ h.waiting.traced cj hj)
    refine ⟨⟨?_, List.mem_cons_of_mem _ h.branch, ?_, h.reached, ?_⟩, rfl, ?_, fun _ => ?_⟩
    · have hw := (addCallers p [ci] h.waiting).2.1
      simpa [addCaller, hin] using hw
    · intro cj hj
      rcases List.mem_cons.mp hj with rfl | hj
      · simpa using hreach
      · have hr := h.waits cj hj
        rw [← hold cj hj] at hr
        exact hr
    · intro F hF
      rcases List.mem_cons.mp hF with rfl | hF
      · exact .inr (.inr ⟨ci, List.mem_cons_self, rfl⟩)
      · rcases h.traced F hF with hF | hF | ⟨cj, hj, hfunc⟩
        · exact .inl hF
        · exact .inr (.inl hF)
        · exact .inr (.inr ⟨cj, List.mem_cons_of_mem _ hj, hfunc⟩)
    · intro cj q hc
      rcases hc with hc | ⟨hj, hq⟩
      · exact .inl hc
      · exact .inr ⟨List.mem_cons_of_mem _ hj, (hold cj hj).trans hq⟩
    · exact .inr ⟨List.mem_cons_self, by simp⟩

theorem addCallers_search {es : List CallInst} {p : Nat}
    (hone : an.OneSite BD.func nsp_param) (hwf : an.CallsInFunctions) (h : Search an BD nsp_param done t)
    (hes : ∀ ci ∈ es, ci.func ≠ BD.func → an.Reaches BD.func nsp_param ci p) :
    Search an BD nsp_param done (es.foldl (addCaller p) t) ∧ (es.foldl (addCaller p) t).storeDeps = t.storeDeps ∧
      (∀ cj q, Covered done t cj q → Covered done (es.foldl (addCaller p) t) cj q) ∧
      ∀ ci ∈ es, ci.func ≠ BD.func → Covered done (es.foldl (addCaller p) t) ci p := by
  induction es generalizing t with
  | nil => exact ⟨h, rfl, fun _ _ hc => hc, fun ci hm => by cases hm⟩
  | cons ci es ih =>
    obtain ⟨h₁, hs₁, hc₁, hnew⟩ := addCaller_search hone hwf h (hes ci List.mem_cons_self)
    obtain ⟨h₂, hs₂, hc₂, hes'⟩ := ih h₁ fun cj hj => hes cj (List.mem_cons_of_mem _ hj)
    refine ⟨h₂, hs₂.trans hs₁, fun cj q hc => hc₂ cj q (hc₁ cj q hc), ?_⟩
    intro cj hj hne
    rcases List.mem_cons.mp hj with rfl | hj
    · exact hc₂ _ _ (hnew hne)
    · exact hes' cj hj hne

/-- The calls that the search has begun with, and those that follow from the calls it has looked at, are covered; the
stores are those of the calls it has looked at. -/
structure Progress (an : Analysis) (BD : BranchDep) (nsp_param : Nat) (done : List (CallInst × Nat)) (t : Trace) :
    Prop extends Search an BD nsp_param done t where
  base : ∀ ci ∈ an.inEdges BD.func, ci.func ≠ BD.func → Covered done t ci nsp_param
  followed : ∀ e ∈ done, ∀ p, an.source e.1 e.2 = some (.nonPointerParam p) →
    ∀ ci ∈ an.inEdges e.1.func, ci.func ≠ BD.func → Covered done t ci p
  stores : ∀ SD, SD ∈ t.storeDeps ↔ ∃ e ∈ done, ∃ d, an.source e.1 e.2 = some d ∧ SD ∈ an.storesFrom BD e.1 d

theorem start_progress (hone : an.OneSite BD.func nsp_param) (hwf : an.CallsInFunctions) :
    Progress an BD nsp_param [] (start an BD nsp_param) := by
  have h₀ : Search an BD nsp_param [] { traced_funcs := [BD.func] } := by
    refine ⟨⟨List.nodup_nil, by simp⟩, List.mem_singleton.mpr rfl, by simp, by simp, ?_⟩
    intro F hF
    exact .inl (List.mem_singleton.mp hF)
  obtain ⟨h, hs, -, hbase⟩ := addCallers_search hone hwf h₀ fun ci hci hne => Analysis.Reaches.base hci hne
  refine ⟨h, hbase, by simp, fun SD => ?_⟩
  unfold start
  rw [hs]
  simp

theorem pop_search {cur : CallInst} {rest : List CallInst}
    (h : Search an BD nsp_param done t) (ht : t.to_trace_insts = cur :: rest) :
    Search an BD nsp_param ((cur, t.func_param_index cur.id) :: done) { t with to_trace_insts := rest } ∧
      ∀ cj q, Covered done t cj q →
        Covered ((cur, t.func_param_index cur.id) :: done) { t with to_trace_insts := rest } cj q := by
  have hwait := h.waits
  have hnodup := h.waiting.nodup
  have htraced := h.waiting.traced
  rw [ht] at hwait hnodup htraced
  refine ⟨⟨⟨(List.nodup_cons.mp hnodup).2, fun ci hci => htraced ci (List.mem_cons_of_mem _ hci)⟩, h.branch,
    fun ci hci => hwait ci (List.mem_cons_of_mem _ hci), ?_, ?_⟩, ?_⟩
  · intro e he
    rcases List.mem_cons.mp he with rfl | he
    · exact hwait cur List.mem_cons_self
    · exact h.reached e he
  · intro F hF
    rcases h.traced F hF with hF | ⟨e, he, hfunc⟩ | ⟨ci, hci, hfunc⟩
    · exact .inl hF
    · exact .inr (.inl ⟨e, List.mem_cons_of_mem _ he, hfunc⟩)
    · rw [ht] at hci
      rcases List.mem_cons.mp hci with rfl | hci
      · exact .inr (.inl ⟨_, List.mem_cons_self, hfunc⟩)
      · exact .inr (.inr ⟨ci, hci, hfunc⟩)
  · intro cj q hc
    rcases hc with hc | ⟨hj, hq⟩
    · exact .inl (List.mem_cons_of_mem _ hc)
    · rw [ht] at hj
      rcases List.mem_cons.mp hj with rfl | hj
      · subst hq
        exact .inl List.mem_cons_self
      · exact .inr ⟨hj, hq⟩

theorem Search.filterTraced {cur : CallInst} {storeDeps : List StoreDep}
    {data_dep : Option DataDep} (h : Search an BD nsp_param done t) (hne : cur.func ≠ BD.func)
    (hcur : ∀ ci ∈ t.to_trace_insts, ci.func ≠ cur.func) :
    Search an BD nsp_param done
      { t with traced_funcs := t.traced_funcs.filter (· ≠ cur.func), storeDeps, data_dep } := by
  refine ⟨⟨h.waiting.nodup, fun ci hci => ?_⟩, ?_, h.waits, h.reached, fun F hF => h.traced F (List.mem_filter.mp hF).1⟩
  · exact List.mem_filter.mpr ⟨h.waiting.traced ci hci, by simpa using hcur ci hci⟩
  · exact List.mem_filter.mpr ⟨h.branch, by simpa using hne.symm⟩

theorem visit_progress {cur : CallInst} {rest : List CallInst}
    (hone : an.OneSite BD.func nsp_param) (hwf : an.CallsInFunctions) (h : Progress an BD nsp_param done t)
    (ht : t.to_trace_insts = cur :: rest) :
    Progress an BD nsp_param ((cur, t.func_param_index cur.id) :: done)
      (visit an BD { t with to_trace_insts := rest } cur) := by
  obtain ⟨hpop, hcov⟩ := pop_search h.toSearch ht
  have hreach : an.Reaches BD.func nsp_param cur (t.func_param_index cur.id) := hpop.reached _ List.mem_cons_self
  have hbase := fun ci hci hne => hcov _ _ (h.base ci hci hne)
  have hfollowed := fun e he p hs ci hci hne => hcov _ _ (h.followed e he p hs ci hci hne)
  have hstores : ∀ SD, (∃ e ∈ done, ∃ d, an.source e.1 e.2 = some d ∧ SD ∈ an.storesFrom BD e.1 d) ↔
      SD ∈ t.storeDeps := fun SD => (h.stores SD).symm
  rcases visit_cases an BD { t with to_trace_insts := rest } cur with ⟨hs, hv⟩ | ⟨p, hs, hv⟩ | ⟨d, hs, hd, sds, hsds, hv⟩
  · rw [hv]
    refine ⟨hpop, hbase, ?_, ?_⟩
    · intro e he p hp
      rcases List.mem_cons.mp he with rfl | he
      · rw [hs] at hp
        cases hp
      · exact hfollowed e he p hp
    · intro SD
      rw [List.exists_mem_cons_iff, hstores, hs]
      simp
  · obtain ⟨hsearch, hsame, hmono, hnew⟩ := addCallers_search hone hwf hpop
      fun ci hci hne => Analysis.Reaches.step hreach hs hci hne
    rw [hv]
    refine ⟨hsearch, fun ci hci hne => hmono _ _ (hbase ci hci hne), ?_, ?_⟩
    · intro e he q hq ci hci hne
      rcases List.mem_cons.mp he with rfl | he
      · obtain rfl : p = q := by
          rw [hs] at hq
          exact DataDep.nonPointerParam.inj (Option.some.inj hq)
        exact hnew ci hci hne
      · exact hmono _ _ (hfollowed e he q hq ci hci hne)
    · intro SD
      rw [hsame, List.exists_mem_cons_iff, hstores, hs]
      simp [Analysis.storesFrom, findStoresForBranch]
  · have hrest : ∀ ci ∈ rest, ci.func ≠ cur.func := by
      have hnodup := h.waiting.nodup
      rw [ht] at hnodup
      intro ci hci he
      exact (List.nodup_cons.mp hnodup).1 (List.mem_map.mpr ⟨ci, hci, he⟩)
    rw [hv]
    refine ⟨hpop.filterTraced hreach.func_ne hrest, hbase, ?_, ?_⟩
    · intro e he q hq
      rcases List.mem_cons.mp he with rfl | he
      · rw [hs] at hq
        exact absurd (Option.some.inj hq) (hd q)
      · exact hfollowed e he q hq
    · intro SD
      rw [List.exists_mem_cons_iff, hstores, hs, hsds SD]
      simp [or_comm]

theorem run_progress (hone : an.OneSite BD.func nsp_param) (hwf : an.CallsInFunctions) {fuel : Nat} {t' : Trace} (h : Progress an BD nsp_param done t) (hrun : run an BD fuel t = some t') :
    ∃ done, Progress an BD nsp_param done t' ∧ t'.to_trace_insts = [] := by
  induction fuel generalizing t done with
  | zero => cases hrun
  | succ fuel ih =>
    unfold run at hrun
    split at hrun
    · rename_i hnil
      obtain rfl := Option.some.inj hrun
      exact ⟨done, h, hnil⟩
    · rename_i cur rest ht
      exact ih (visit_progress hone hwf h ht) hrun

theorem Progress.mem_done (h : Progress an BD nsp_param done t)
    (ht : t.to_trace_insts = []) {ci : CallInst} {p : Nat} (hr : an.Reaches BD.func nsp_param ci p) :
    (ci, p) ∈ done := by
  have hcov : ∀ cj q, Covered done t cj q → (cj, q) ∈ done := by
    intro cj q hc
    rcases hc with hc | ⟨hj, -⟩
    · exact hc
    · rw [ht] at hj
      cases hj
  induction hr with
  | base hci hne => exact hcov _ _ (h.base _ hci hne)
  | step _ hs hci hne ih => exact hcov _ _ (h.followed _ ih _ hs _ hci hne)

end Trace

theorem mem_storesOfVariables_iff (hone : an.OneSite BD.func nsp_param) (hwf : an.CallsInFunctions) (SD : StoreDep) :
    SD ∈ storesOfVariables (findStoresForBranchOnCG an BD nsp_param) ↔
      ∃ ci p d, an.Reaches BD.func nsp_param ci p ∧ an.source ci p = some d ∧ SD ∈ an.storesFrom BD ci d := by
  have hsome := findStoresForBranchOnCG_isSome an BD nsp_param
  unfold findStoresForBranchOnCG at hsome ⊢
  rw [Option.isSome_map] at hsome
  obtain ⟨t, ht⟩ := Option.isSome_iff_exists.mp hsome
  obtain ⟨done, h, hnil⟩ := Trace.run_progress hone hwf (Trace.start_progress hone hwf) ht
  have hstores : SD ∈ storesOfVariables (some
      (if t.storeDeps = [] then [] else [{ id := 0, data_dep := t.data_dep, storeDeps := t.storeDeps }])) ↔
      SD ∈ t.storeDeps := by
    unfold storesOfVariables
    split
    · rename_i he
      simp [he]
    · simp
  dsimp only
  rw [ht, Option.map_some, hstores, h.stores]
  constructor
  · rintro ⟨e, he, d, hs, hm⟩
    exact ⟨e.1, e.2, d, h.reached e he, hs, hm⟩
  · rintro ⟨ci, p, d, hr, hs, hm⟩
    exact ⟨(ci, p), h.mem_done hnil hr, d, hs, hm⟩

namespace Analysis.SameUpToOrder

theorem source_eq (h : an.SameUpToOrder an') (ci : CallInst) (p : Nat) : an'.source ci p = an.source ci p := by
  rw [h.rest]
  rfl

theorem storesFrom_eq (h : an.SameUpToOrder an') (ci : CallInst) (d : DataDep) :
    an'.storesFrom BD ci d = an.storesFrom BD ci d := by
  rw [h.rest]
  cases d <;> rfl

theorem reaches (h : an.SameUpToOrder an') {F : FuncID} {ci : CallInst} {p : Nat} (hr : an.Reaches F nsp_param ci p) :
    an'.Reaches F nsp_param ci p := by
  induction hr with
  | base hci hne => exact .base ((h.edges _).mem_iff.mp hci) hne
  | step _ hs hci hne ih => exact .step ih ((h.source_eq _ _).trans hs) ((h.edges _).mem_iff.mp hci) hne

theorem symm (h : an.SameUpToOrder an') : an'.SameUpToOrder an where
  edges F := (h.edges F).symm
  rest := by
    conv_lhs => rw [show an = { an with callGraph := an.callGraph } from rfl]
    rw [h.rest]

theorem reaches_iff (h : an.SameUpToOrder an') {F : FuncID} {ci : CallInst} {p : Nat} :
    an'.Reaches F nsp_param ci p ↔ an.Reaches F nsp_param ci p :=
  ⟨h.symm.reaches, h.reaches⟩

end Analysis.SameUpToOrder

end

/-- Calls of the function `0` with a parameter that its branch depends on.  The first call passes one variable of the
caller and the others another one, and the function `1` stores to both. -/
def callsWithVariables (edges : List CallInst) : Analysis where
  prog := [(0, [(5, .br none)]), (1, [(6, .store), (7, .store)])]
  sdMap := [(1, [⟨6, .localVariable 60⟩, ⟨7, .localVariable 70⟩])]
  fbd := [(0, [⟨5, 0, [.nonPointerParam 0]⟩])]
  callGraph := [(0, edges)]
  operand := fun call _ => some (call + 10)
  extractDataDependency := fun op => if op = 20 then [.localVariable 60] else [.localVariable 70]
  isPotentiallyReachable := fun _ _ => true
  stores_mem := by decide
  stores_nodup := by decide
  branches_mem := by
    intro bd hbd
    rw [List.mem_singleton.mp hbd]
    exact ⟨.br none, by decide, rfl⟩
  branches_nodup := by decide

theorem callsWithVariables_same {edges edges' : List CallInst} (h : edges.Perm edges') :
    (callsWithVariables edges).SameUpToOrder (callsWithVariables edges') where
  edges F := by
    by_cases hF : F = 0
    · subst hF
      exact h
    · have hF' : ¬ 0 = F := fun he => hF he.symm
      simp [Analysis.inEdges, callsWithVariables, hF']
  rest := rfl

end CgsKlee.Ida
