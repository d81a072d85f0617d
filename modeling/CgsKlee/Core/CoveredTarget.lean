import CgsKlee.Core.WorkList

/-!
# What becomes of a target that was covered

When the current state has reached one of its targets and a branch has become fully covered, the `reachBranch` block of
`update` calls `handleFullyCoveredBranch`.  It takes the branch from the targets of the states in `branchStates`, and
forgets the values of stores that are of no use any more.  It erases one target of each state and looks at the stores
of the covered branch only, so what it achieves depends on how much there is to be cleaned up (`stopsGuiding_iff`).
-/

namespace CgsKlee

def StoreCovered (w : World) (sid : StoreID) : Prop :=
  ∀ b d, w.bdDep b = some d → sid ∈ d.stores → b ∈ w.fullyCoveredBranches

/-- The branch guides no state any more, the states of `branchStates` have a target, and nothing is remembered there
that is of no use. -/
structure StopsGuiding (w : World) (cur : StateId) (bid : BranchID) : Prop where
  targets : ∀ s ∈ w.branchStates, ∀ b ∈ (w.heap s).branchInfos, b.targetBranchID ≠ bid
  guided : ∀ s ∈ w.branchStates, s ≠ cur → (w.heap s).branchInfos ≠ []
  values : ∀ s ∈ w.branchStates, ∀ p ∈ (w.heap s).storeValues, ¬ StoreCovered w p.1

/-- The store is one of the branch, and no other branch is linked to it any more. -/
def LastBranch (w : World) (bid : BranchID) (sid : StoreID) : Prop :=
  (∃ d, w.bdDep bid = some d ∧ sid ∈ d.stores) ∧ ∀ b ∈ w.storetTobranches sid, b = bid

/-- No state has the covered branch as its target twice, and the values without further use in states that keep a place
in `branchStates` belong to stores that have the covered branch as their last one. -/
structure CleanedAtOnce (w : World) (cur : StateId) (bid : BranchID) : Prop where
  targets : ∀ s ∈ w.branchStates, ((w.heap s).branchInfos.countP fun b => b.targetBranchID = bid) ≤ 1
  values : ∀ s ∈ w.branchStates, (s = cur ∨ ∃ b ∈ (w.heap s).branchInfos, b.targetBranchID ≠ bid) →
    ∀ p ∈ (w.heap s).storeValues, StoreCovered w p.1 → LastBranch w bid p.1

/-- The call of `handleFullyCoveredBranch` in an iteration, if there is one: its two arguments and the shared memory in
which it is made. -/
def Config.coveringCall (c : Config) (it : Iteration) : Option (StateId × BranchID × World) :=
  (c.execute it).bind fun (cur, w) =>
  if cur ∈ it.removed then none
  else (w.rotate cur it.added).bind fun w =>
    if (w.heap cur).reachBranch ∧ w.newFullyCoveredBranch then
      w.fullyCoveredBranches.getLast?.map fun bid => (cur, bid, w)
    else none

theorem Config.coveringCall_eq_some {c : Config} {it : Iteration} {cur : StateId} {bid : BranchID} {w : World}
    (h : c.coveringCall it = some (cur, bid, w)) :
    ∃ w₀, c.execute it = some (cur, w₀) ∧ cur ∉ it.removed ∧ w₀.rotate cur it.added = some w ∧
      (w.heap cur).reachBranch = true ∧ w.newFullyCoveredBranch = true ∧
      w.fullyCoveredBranches.getLast? = some bid := by
  unfold Config.coveringCall at h
  obtain ⟨⟨cur', w₀⟩, hex, h⟩ := Option.bind_eq_some_iff.mp h
  dsimp only at h
  split at h
  · cases h
  · rename_i hremoved
    obtain ⟨w₁, hrotate, h⟩ := Option.bind_eq_some_iff.mp h
    split at h
    · rename_i hflags
      obtain ⟨bid', hlast, he⟩ := Option.map_eq_some_iff.mp h
      cases he
      exact ⟨w₀, hex, hremoved, hrotate, hflags.1, hflags.2, hlast⟩
    · cases h

namespace World

theorem mem_unlinkStores (func : FuncID) (bid : BranchID) (stores : List StoreID) (acc : World × List StoreID)
    (sid : StoreID) :
    sid ∈ (stores.foldl (unlinkStore func bid) acc).2 ↔
      sid ∈ acc.2 ∨ (sid ∈ stores ∧ ∀ b ∈ acc.1.storetTobranches sid, b = bid) := by
  induction stores generalizing acc with
  | nil => simp
  | cons sid' stores ih =>
    obtain ⟨w, removeSv⟩ := acc
    have hlinks : (unlinkStore func bid (w, removeSv) sid').1.storetTobranches =
        Function.update w.storetTobranches sid' ((w.storetTobranches sid').filter fun b => b ≠ bid) := by
      unfold unlinkStore
      dsimp only
      split
      · rfl
      · rfl
    have hremove : sid ∈ (unlinkStore func bid (w, removeSv) sid').2 ↔
        sid ∈ removeSv ∨ (sid = sid' ∧ ∀ b ∈ w.storetTobranches sid, b = bid) := by
      unfold unlinkStore
      dsimp only
      split
      · rename_i hempty
        have hall : ∀ b ∈ w.storetTobranches sid', b = bid := by simpa using hempty
        rw [List.mem_append, List.mem_singleton]
        constructor
        · rintro (hr | rfl)
          · exact .inl hr
          · exact .inr ⟨rfl, hall⟩
        · rintro (hr | ⟨rfl, -⟩)
          · exact .inl hr
          · exact .inr rfl
      · rename_i hne
        constructor
        · exact .inl
        · rintro (hr | ⟨rfl, hall⟩)
          · exact hr
          · exact absurd (by simpa using hall) hne
    have hsame : (∀ b ∈ (unlinkStore func bid (w, removeSv) sid').1.storetTobranches sid, b = bid) ↔
        ∀ b ∈ w.storetTobranches sid, b = bid := by
      rw [hlinks]
      by_cases he : sid = sid'
      · subst he
        rw [Function.update_self]
        simp only [List.mem_filter, decide_eq_true_eq]
        constructor
        · intro h b hb
          by_contra hne
          exact hne (h b ⟨hb, hne⟩)
        · intro h b hb
          exact h b hb.1
      · rw [Function.update_of_ne he]
    rw [List.foldl_cons, ih, hremove, hsame, List.mem_cons]
    tauto

end World

/-- A state of `branchStates` after the second loop of `handleFullyCoveredBranch`. -/
def ExecState.cleaned (e : ExecState) (bid : BranchID) (removeSv : List StoreID) : ExecState :=
  { e with
    storeValues := e.storeValues.filter fun p => p.1 ∉ removeSv
    branchInfos := e.branchInfos.eraseP fun b => b.targetBranchID = bid }

namespace World

theorem sweep_visitCovered {cur : StateId} {bid : BranchID} {removeSv : List StoreID} {l kept moved : List StateId}
    {w w' : World} (hl : l.Nodup) (h : Loops.sweep (visitCovered cur bid removeSv) l w = some (kept, moved, w')) :
    (∀ s, w'.heap s = if s ∈ l then (w.heap s).cleaned bid removeSv else w.heap s) ∧
      ∀ s, s ∈ kept ↔ s ∈ l ∧ (s = cur ∨ ((w.heap s).cleaned bid removeSv).branchInfos ≠ []) := by
  induction l generalizing w kept moved with
  | nil =>
    cases h
    simp
  | cons a l ih =>
    obtain ⟨ha, hl⟩ := List.nodup_cons.mp hl
    obtain ⟨out, w₁, kept', moved', hvisit, hsweep, rfl, -⟩ := Loops.sweep_cons_eq_some h
    have hw₁ : w₁ = w.setState a ((w.heap a).cleaned bid removeSv) := by
      cases hvisit
      rfl
    have hout : out = true ↔ a ≠ cur ∧ ((w.heap a).cleaned bid removeSv).branchInfos = [] := by
      cases hvisit
      simp [ExecState.cleaned]
    obtain ⟨hheap, hkept⟩ := ih hl hsweep
    have hself : w₁.heap a = (w.heap a).cleaned bid removeSv := by rw [hw₁, setState_heap_self]
    have hother : ∀ s, s ≠ a → w₁.heap s = w.heap s := by
      intro s hs
      rw [hw₁, setState_heap_of_ne w _ hs]
    constructor
    · intro s
      rw [hheap s]
      by_cases hs : s = a
      · subst hs
        rw [if_neg ha, if_pos List.mem_cons_self, hself]
      · rw [hother s hs]
        simp [hs]
    · intro s
      by_cases hs : s = a
      · subst hs
        have hnot : s ∉ kept' := fun hmem => ha ((hkept s).mp hmem).1
        cases out with
        | false => simp only [Bool.false_eq_true, if_false, List.mem_cons, true_or, true_and, true_iff]; tauto
        | true => simp only [if_true, hnot, false_iff, List.mem_cons, true_or, true_and]; tauto
      · have hmem : s ∈ (if out = true then kept' else a :: kept') ↔ s ∈ kept' := by
          cases out with
          | false => simp [hs]
          | true => simp
        rw [hmem, hkept s, hother s hs, List.mem_cons]
        simp [hs]

theorem handleFullyCoveredBranch_spec {w w' : World} {cur : StateId} {bid : BranchID} (hnodup : w.branchStates.Nodup)
    (h : w.handleFullyCoveredBranch cur bid = some w') :
    ∃ removeSv, (∀ sid, sid ∈ removeSv ↔ LastBranch w bid sid) ∧
      (∀ s ∈ w.branchStates, w'.heap s = (w.heap s).cleaned bid removeSv) ∧
      ∀ s, s ∈ w'.branchStates ↔
        s ∈ w.branchStates ∧ (s = cur ∨ ((w.heap s).cleaned bid removeSv).branchInfos ≠ []) := by
  obtain ⟨I, d, kept, moved, w₂, -, hd, hsweep, rfl⟩ := handleFullyCoveredBranch_eq_some h
  have hremove := mem_unlinkStores (w.kmodule.functionOf I) bid d.stores (w, [])
  have hrest := unlinkStores_rest (w.kmodule.functionOf I) bid d.stores (w, [])
  generalize d.stores.foldl (unlinkStore (w.kmodule.functionOf I) bid) (w, []) = acc at hsweep hremove hrest
  have hheap₁ : acc.1.heap = w.heap := by rw [hrest]
  have hstates₁ : acc.1.branchStates = w.branchStates := by rw [hrest]
  rw [hstates₁] at hsweep
  obtain ⟨hheap, hkept⟩ := sweep_visitCovered hnodup hsweep
  rw [hheap₁] at hheap hkept
  refine ⟨acc.2, fun sid => ?_, fun s hs => ?_, hkept⟩
  · rw [hremove sid]
    unfold LastBranch
    rw [hd]
    simp
  · have hs' := hheap s
    rw [if_pos hs] at hs'
    exact hs'

end World

/-- In every run, a branch that `update` processes as fully covered stops to guide the search if and only if each state
has it as a target at most once, and what is remembered without use belongs to the stores of the branch. -/
theorem stopsGuiding_iff {c : Config} (hc : Run (fun _ _ => True) c) {it : Iteration} {cur : StateId} {bid : BranchID}
    {w w' : World} (hcall : c.coveringCall it = some (cur, bid, w))
    (h : w.handleFullyCoveredBranch cur bid = some w') :
    StopsGuiding w' cur bid ↔ CleanedAtOnce w cur bid := by
  have hnodup : w.branchStates.Nodup := by
    obtain ⟨w₀, hex, -, hrotate, -⟩ := Config.coveringCall_eq_some hcall
    have hperm := World.rotate_perm hrotate
    rw [(Config.execute_sameVectors hex).scheduled] at hperm
    have hall : w.scheduled.Nodup := hperm.nodup_iff.mpr hc.sound.1.nodup
    exact hall.of_append_right
  obtain ⟨removeSv, hremove, hheap, hkept⟩ := World.handleFullyCoveredBranch_spec hnodup h
  have hframe := World.handleFullyCoveredBranch_blockFrame h
  have hcovered : ∀ sid, StoreCovered w' sid ↔ StoreCovered w sid := by
    intro sid
    unfold StoreCovered
    rw [hframe.bdDep, hframe.fullyCoveredBranches]
  constructor
  · intro hstops
    refine ⟨fun s hs => ?_, fun s hs hplace p hp hcov => ?_⟩
    · by_contra htwice
      obtain ⟨b, hb, htarget⟩ := Loops.exists_mem_eraseP htwice
      have hstay : s ∈ w'.branchStates := (hkept s).mpr ⟨hs, .inr (List.ne_nil_of_mem hb)⟩
      refine hstops.targets s hstay b ?_ (by simpa using htarget)
      rw [hheap s hs]
      exact hb
    · have hstay : s ∈ w'.branchStates := by
        refine (hkept s).mpr ⟨hs, hplace.imp_right ?_⟩
        rintro ⟨b, hb, htarget⟩
        have hleft : b ∈ (w.heap s).branchInfos.eraseP fun b => b.targetBranchID = bid :=
          (List.mem_eraseP_of_neg (by simpa using htarget)).mpr hb
        exact List.ne_nil_of_mem hleft
      by_contra hlast
      refine hstops.values s hstay p ?_ ((hcovered p.1).mpr hcov)
      rw [hheap s hs]
      refine List.mem_filter.mpr ⟨hp, ?_⟩
      rw [decide_eq_true_eq, hremove]
      exact hlast
  · intro hclean
    refine ⟨fun s hs b hb => ?_, fun s hs hne => ?_, fun s hs p hp hcov => ?_⟩
    · have hs₀ := ((hkept s).mp hs).1
      rw [hheap s hs₀] at hb
      have hnot := Loops.not_of_mem_eraseP (hclean.targets s hs₀) hb
      simpa using hnot
    · obtain ⟨hs₀, hplace⟩ := (hkept s).mp hs
      rw [hheap s hs₀]
      exact hplace.resolve_left hne
    · obtain ⟨hs₀, hplace⟩ := (hkept s).mp hs
      rw [hheap s hs₀] at hp
      obtain ⟨hp, hnot⟩ := List.mem_filter.mp hp
      rw [decide_eq_true_eq, hremove] at hnot
      refine hnot (hclean.values s hs₀ (hplace.imp_right fun hne => ?_) p hp ((hcovered p.1).mp hcov))
      obtain ⟨b, hb⟩ := List.exists_mem_of_ne_nil _ hne
      exact ⟨b, List.mem_of_mem_eraseP hb, by simpa using Loops.not_of_mem_eraseP (hclean.targets s hs₀) hb⟩

/-- A state that has executed the second store covers the second branch, which was its only target. -/
theorem stopsGuiding_iff_store :
    ∃ c it cur bid w w', Run (fun _ _ => True) c ∧ c.coveringCall it = some (cur, bid, w) ∧
      w.handleFullyCoveredBranch cur bid = some w' ∧ (w.heap cur).storeValues ≠ [] ∧ StopsGuiding w' cur bid := by
  have hrun : ∃ c w w', (twoBranchesStart [0]).runs [{ action := .store 7 false (some 7) [] },
        { action := .br 4 false true (some 7) (some 5) }] = some c ∧
      c.coveringCall { action := .br 4 true true (some 5) (some 5) } = some (0, 2, w) ∧
      w.handleFullyCoveredBranch 0 2 = some w' ∧ w.branchStates = [0] ∧
      (w.heap 0).branchInfos = [⟨2, 2⟩] ∧ (w.heap 0).storeValues = [(2, 7)] ∧ w.storetTobranches 2 = [2] ∧
      ((w.bdDep 2).any fun d => 2 ∈ d.stores) = true :=
    ⟨_, _, _, rfl, rfl, rfl, by decide, by decide, by decide, by decide,
      by decide⟩
  obtain ⟨c, w, w', hc, hcall, h, hstates, hinfos, hvalues, hlinks, hdep⟩ := hrun
  have hclean : CleanedAtOnce w 0 2 := by
    constructor
    · intro s hs
      rw [hstates, List.mem_singleton] at hs
      rw [hs, hinfos]
      decide
    · intro s hs _ p hp _
      rw [hstates, List.mem_singleton] at hs
      rw [hs, hvalues, List.mem_singleton] at hp
      rw [hp]
      obtain ⟨d, hd, hs⟩ := (Option.any_eq_true _ _).1 hdep
      refine ⟨⟨d, hd, by simpa using hs⟩, fun b hb => ?_⟩
      rw [hlinks] at hb
      exact List.mem_singleton.mp hb
  have hstart := twoBranches_start.run hc
  exact ⟨c, _, 0, 2, w, w', hstart, hcall, h, by simp [hvalues], (stopsGuiding_iff hstart hcall h).mpr hclean⟩

def twoStores : World :=
  { twoBranches with
    bdDep := fun b => if b = 1 then some (.ofBr .eq [1, 2]) else none
    id2bi := fun b => if b = 1 then some 0 else none
    bi2id := fun i => if i = 0 then some 1 else none
    storetTobranches := fun s => if s = 1 ∨ s = 2 then [1] else [] }

theorem twoStores_loaded : Loaded twoStores where
  reachStore _ := rfl
  reachBranch _ := rfl
  branch i b h := by
    simp only [twoStores] at h ⊢
    split at h
    · cases h; simp [*]
    · cases h
  targetBranches := rfl
  partlyCoveredBranches := rfl
  fullyCoveredBranches := rfl
  updateTargetBranch := rfl
  newFullyCoveredBranch := rfl
  newPartlyCoveredBranch := rfl
  newBranchNumFromStore := rfl
  invalidStoreValues _ := rfl
  validStoreValues _ := rfl
  states := rfl
  branchStates := rfl

/-- The state that takes the branch for the first time gets it as a target twice, once for each store; when it covers
the branch, one of the two stays. -/
theorem stopsGuiding_counterexample :
    ¬ ∀ c it cur bid w w', Run (fun _ _ => True) c → Allowed c it → c.coveringCall it = some (cur, bid, w) →
      w.handleFullyCoveredBranch cur bid = some w' → StopsGuiding w' cur bid := by
  intro hall
  have hstart : Start ⟨{ twoStores with states := [0] }, [0]⟩ := ⟨twoStores, twoStores_loaded, by decide, rfl⟩
  have hrun : ∃ c w w', Config.runs ⟨{ twoStores with states := [0] }, [0]⟩
        [{ action := .br 0 false true (some 7) (some 5) }] = some c ∧
      Allowed c { action := .br 0 true true (some 5) (some 5) } ∧
      c.coveringCall { action := .br 0 true true (some 5) (some 5) } = some (0, 1, w) ∧
      w.handleFullyCoveredBranch 0 1 = some w' ∧ 0 ∈ w'.branchStates ∧ ⟨2, 1⟩ ∈ (w'.heap 0).branchInfos :=
    ⟨_, _, _, rfl, by decide, rfl, rfl, by decide, by decide⟩
  obtain ⟨c, w, w', hc, ha, hcall, h, hmem, hinfo⟩ := hrun
  exact (hall c _ 0 1 w w' (hstart.run hc) ha hcall h).targets 0 hmem _ hinfo rfl

end CgsKlee
