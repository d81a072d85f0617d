import CgsKlee.Core.HandlerFrame
import CgsKlee.Core.Partition
import Mathlib.Logic.Relation

/-!
# Runs of the Executor with the searcher

One iteration of the main loop of `Executor::run`: the selected state executes an instruction, whose handler may
write the shared memory, states are forked from it or removed, `update` is called, and then the memory check may
remove further states and the instruction counter may ask for a refresh of the targets.  What the guided search does
not look at (addresses, constraints, the choice of forks and terminations) is a free input of the iteration.

`Quiet` is the invariant that every live state has its flags down when an iteration starts.
-/

namespace CgsKlee

/-- The instruction that the selected state executes, with what the handlers read of it at run time. -/
inductive Action
  | br (inst : InstID) (taken tracked : Bool) (v1 v2 : Option (BitVec 64))
  | symbolicBr (inst : InstID) (visitedTrue visitedFalse tracked : Bool)
  | switch (inst : InstID) (value : BitVec 64)
  | store (inst : InstID) (isPointer : Bool) (value : Option (BitVec 64)) (iter : List (StoreID × Signed))
  | other (inst : InstID)

namespace Action

def inst : Action → InstID
  | br i .. | symbolicBr i .. | switch i _ | store i .. | other i => i

def execute (a : Action) (w : World) (cur : StateId) : Option World :=
  match a with
  | br inst taken tracked v1 v2 => w.executeBr cur inst taken tracked v1 v2
  | symbolicBr inst visitedTrue visitedFalse tracked => some (w.executeSymbolicBr inst visitedTrue visitedFalse tracked)
  | switch inst value => w.executeSwitch cur inst value
  | store inst isPointer value iter => w.executeStore cur inst isPointer value iter
  | other _ => some w

end Action

structure Iteration where
  action : Action
  /-- `addedStates` and `removedStates` when the instruction has been executed. -/
  added : List StateId := []
  removed : List StateId := []
  /-- The program counter and `coveredNew` of every state when the instruction has been executed. -/
  view : StateId → InstID × Bool := fun _ => (0, false)
  /-- The states that `checkMemoryUsage` terminates, if it does. -/
  memory : Option (List StateId) := none
  /-- Whether the instruction counter asks for new targets. -/
  refresh : Bool := false

/-- The shared memory in which the handler of the iteration runs: the forked states are copies of `cur`. -/
def World.begin (w : World) (cur : StateId) (it : Iteration) : World :=
  { w with
    heap := fun s =>
      let e := if s ∈ it.added then w.heap cur else w.heap s
      { e with
        pc := (it.view s).1, coveredNew := (it.view s).2
        prevPC := if s = cur then it.action.inst else e.prevPC }
    unchecked := [] }

def World.checkMemory (w : World) : Option (List StateId) → Option World
  | none => some w
  | some killed => w.update none [] killed

namespace Config

def execute (c : Config) (it : Iteration) : Option (StateId × World) :=
  match c.world.selectState with
  | none => none
  | some cur => (it.action.execute (c.world.begin cur it) cur).map fun w => (cur, w)

/-- One iteration of the main loop of `Executor::run`. -/
def step (c : Config) (it : Iteration) : Option Config :=
  (c.execute it).bind fun (cur, w) =>
  (w.update (some cur) it.added it.removed).bind fun w =>
  (w.checkMemory it.memory).map fun w =>
  ⟨{ w with updateTargetBranch := it.refresh || w.updateTargetBranch },
    updateLive (updateLive c.live it.added it.removed) [] (it.memory.getD [])⟩

end Config

def Action.Fits (a : Action) (m : KModule) : Prop :=
  match a with
  | .br i .. | .symbolicBr i .. => (m.inst i).opcode = .br
  | .switch i _ => (m.inst i).opcode = .switch
  | _ => True

/-- The handler of a store meets the entries of `storeValues` in some order. -/
def Action.Meets (a : Action) (storeValues : List (StoreID × Signed)) : Prop :=
  match a with
  | .store _ _ _ iter => iter.Perm storeValues
  | _ => True

structure Allowed (c : Config) (it : Iteration) : Prop where
  admissible : Admissible c.live it.added it.removed
  killed : ∀ s ∈ it.memory.getD [], s ∈ updateLive c.live it.added it.removed
  opcode : it.action.Fits c.world.kmodule
  order : ∀ cur ∈ c.world.selectState, it.action.Meets (c.world.heap cur).storeValues

instance (a : Action) (m : KModule) : Decidable (a.Fits m) :=
  match a with
  | .br i .. | .symbolicBr i .. => inferInstanceAs (Decidable ((m.inst i).opcode = .br))
  | .switch i _ => inferInstanceAs (Decidable ((m.inst i).opcode = .switch))
  | .store .. | .other _ => inferInstanceAs (Decidable True)

instance (a : Action) (l : List (StoreID × Signed)) : Decidable (a.Meets l) :=
  match a with
  | .store _ _ _ iter => inferInstanceAs (Decidable (iter.Perm l))
  | .br .. | .symbolicBr .. | .switch .. | .other _ => inferInstanceAs (Decidable True)

instance (live added removed : List StateId) : Decidable (Admissible live added removed) :=
  decidable_of_iff (added.Nodup ∧ (∀ s ∈ added, s ∉ live) ∧ ∀ s ∈ removed, s ∈ live)
    ⟨fun h => ⟨h.1, h.2.1, h.2.2⟩, fun h => ⟨h.1, h.2, h.3⟩⟩

instance (c : Config) (it : Iteration) : Decidable (Allowed c it) :=
  decidable_of_iff (Admissible c.live it.added it.removed ∧
      (∀ s ∈ it.memory.getD [], s ∈ updateLive c.live it.added it.removed) ∧
      it.action.Fits c.world.kmodule ∧
      ∀ cur ∈ c.world.selectState, it.action.Meets (c.world.heap cur).storeValues)
    ⟨fun h => ⟨h.1, h.2.1, h.2.2.1, h.2.2.2⟩, fun h => ⟨h.1, h.2, h.3, h.4⟩⟩

def Config.runs (c : Config) : List Iteration → Option Config
  | [] => some c
  | it :: its => if Allowed c it then (c.step it).bind fun c => c.runs its else none

/-- The shared memory after `Executor::setModule` and the construction of the searcher. -/
structure Loaded (w : World) : Prop where
  reachStore : ∀ s, (w.heap s).reachStore = false
  reachBranch : ∀ s, (w.heap s).reachBranch = false
  /-- Every branch id is carried by one instruction and has an entry. -/
  branch : ∀ i b, w.bi2id i = some b → w.id2bi b = some i ∧ (w.bdDep b).isSome
  targetBranches : w.targetBranches = []
  partlyCoveredBranches : w.partlyCoveredBranches = []
  fullyCoveredBranches : w.fullyCoveredBranches = []
  updateTargetBranch : w.updateTargetBranch = false
  newFullyCoveredBranch : w.newFullyCoveredBranch = false
  newPartlyCoveredBranch : w.newPartlyCoveredBranch = false
  newBranchNumFromStore : w.newBranchNumFromStore = 0
  invalidStoreValues : ∀ b, w.invalidStoreValues b = none
  validStoreValues : ∀ b, w.validStoreValues b = []
  states : w.states = []
  branchStates : w.branchStates = []

def Start (c : Config) : Prop :=
  ∃ w, Loaded w ∧ c.live.Nodup ∧ w.update none c.live [] = some c.world

def Step (P : Config → Iteration → Prop) (c c' : Config) : Prop :=
  ∃ it, Allowed c it ∧ P c it ∧ c.step it = some c'

/-- A configuration reached by iterations that all satisfy `P`. -/
def Run (P : Config → Iteration → Prop) (c : Config) : Prop :=
  ∃ c₀, Start c₀ ∧ Relation.ReflTransGen (Step P) c₀ c

variable {c : Config} {cur : StateId}

theorem Run.invariant {P : Config → Iteration → Prop} (I : Config → Prop) (hstart : ∀ c, Start c → I c)
    (hstep : ∀ c it c', I c → Allowed c it → P c it → c.step it = some c' → I c') (h : Run P c) :
    I c := by
  obtain ⟨c₀, h₀, h⟩ := h
  induction h with
  | refl => exact hstart c₀ h₀
  | tail _ hs ih =>
    obtain ⟨it, ha, hp, hs⟩ := hs
    exact hstep _ it _ ih ha hp hs

theorem Start.run {c' : Config} (hc : Start c) {its : List Iteration} (h : c.runs its = some c') :
    Run (fun _ _ => True) c' := by
  refine ⟨c, hc, ?_⟩
  clear hc
  induction its generalizing c with
  | nil => cases h; exact Relation.ReflTransGen.refl
  | cons it its ih =>
    unfold Config.runs at h
    split at h
    · rename_i ha
      simp only [Option.bind_eq_some_iff] at h
      obtain ⟨c₁, h₁, h₂⟩ := h
      exact (ih h₂).head ⟨it, ha, trivial, h₁⟩
    · cases h

theorem Config.execute_eq_some {it : Iteration} {w : World}
    (h : c.execute it = some (cur, w)) :
    c.world.selectState = some cur ∧ it.action.execute (c.world.begin cur it) cur = some w := by
  unfold Config.execute at h
  split at h
  · cases h
  · rename_i cur' hcur
    simp only [Option.map_eq_some_iff] at h
    obtain ⟨w', hw', h⟩ := h
    cases h
    exact ⟨hcur, hw'⟩

theorem Config.step_eq_some {c' : Config} {it : Iteration} (h : c.step it = some c') :
    ∃ cur w₁ w₂ w₃, c.execute it = some (cur, w₁) ∧ w₁.update (some cur) it.added it.removed = some w₂ ∧
      w₂.checkMemory it.memory = some w₃ ∧
      c' = ⟨{ w₃ with updateTargetBranch := it.refresh || w₃.updateTargetBranch },
        updateLive (updateLive c.live it.added it.removed) [] (it.memory.getD [])⟩ := by
  unfold Config.step at h
  simp only [Option.bind_eq_some_iff, Option.map_eq_some_iff] at h
  obtain ⟨⟨cur, w₁⟩, h₁, w₂, h₂, w₃, h₃, rfl⟩ := h
  exact ⟨cur, w₁, w₂, w₃, h₁, h₂, h₃, rfl⟩

theorem World.checkMemory_rest {w w' : World} {memory : Option (List StateId)} (hu : w.updateTargetBranch = false)
    (h : w.checkMemory memory = some w') :
    w' = { w with states := w'.states, branchStates := w'.branchStates } := by
  unfold World.checkMemory at h
  split at h
  · cases h; rfl
  · exact World.update_none_rest hu h

theorem Action.execute_frame {a : Action} {w w' : World} (h : a.execute w cur = some w') :
    HandlerFrame cur w w' := by
  cases a with
  | br inst taken tracked v1 v2 => exact World.executeBr_frame h
  | symbolicBr inst t f tracked =>
    cases h
    exact World.executeSymbolicBr_frame cur w inst t f tracked
  | switch inst value => exact World.executeSwitch_frame h
  | store inst isPointer value iter => exact World.executeStore_frame h
  | other inst =>
    cases h
    exact HandlerFrame.refl w

theorem World.begin_branchStats (w : World) (cur : StateId) (it : Iteration) (inst : InstID) (t f tracked : Bool) :
    ((w.begin cur it).branchStats inst t f tracked).fullBranches = (w.branchStats inst t f tracked).fullBranches := by
  unfold World.branchStats
  split
  · unfold World.markBranchVisited
    dsimp only [World.begin]
    split <;> split <;> rfl
  · rfl

/-- When an iteration starts, no live state has a flag up. -/
structure Quiet (c : Config) : Prop where
  reachStore : ∀ s ∈ c.live, (c.world.heap s).reachStore = false
  reachBranch : ∀ s ∈ c.live, (c.world.heap s).reachBranch = false

theorem Partition.selectState_mem (h : Partition c)
    (hc : c.world.selectState = some cur) : cur ∈ c.live := by
  obtain ⟨s, hs, hsel⟩ := World.selectState_of_ne_nil (w := c.world) (by
    intro hn
    rw [World.scheduled, List.append_eq_nil_iff] at hn
    simp [World.selectState, hn.1, hn.2] at hc)
  rw [hc] at hsel
  cases hsel
  exact (h.mem_iff cur).1 hs

theorem Config.execute_sameVectors {it : Iteration} {w : World}
    (h : c.execute it = some (cur, w)) : SameVectors c.world w := by
  have hf := Action.execute_frame (Config.execute_eq_some h).2
  exact ⟨by rw [hf.rest]; rfl, by rw [hf.rest]; rfl⟩

theorem Partition.step {c c' : Config} {it : Iteration} (hc : Partition c) (ha : Allowed c it)
    (h : c.step it = some c') : Partition c' := by
  obtain ⟨cur, w₁, w₂, w₃, h₁, h₂, h₃, rfl⟩ := Config.step_eq_some h
  have hp₂ := hc.update (Config.execute_sameVectors h₁) ha.admissible h₂
  have hk := ha.killed
  generalize it.memory = memory at h₃ hk ⊢
  have hp₃ : Partition ⟨w₃, updateLive (updateLive c.live it.added it.removed) [] (memory.getD [])⟩ := by
    cases memory with
    | none =>
      cases h₃
      simpa [updateLive] using hp₂
    | some killed =>
      have h₃ : w₂.update none [] killed = some w₃ := h₃
      exact hp₂.update ⟨rfl, rfl⟩ ⟨by simp, by simp, hk⟩ h₃
  exact ⟨hp₃.nodup, hp₃.mem_iff⟩

private theorem flag_down {before after : Bool} (h : after = true → before = true) (hb : before = false) :
    after = false := by
  cases after
  · rfl
  · rw [h rfl] at hb
    exact hb

namespace World

theorem updateCurrent_flags {w w' : World} {cur : StateId} {added : List StateId}
    (h : w.updateCurrent cur added = some w') :
    (w'.heap cur).reachStore = false ∧ (w'.heap cur).reachBranch = false := by
  obtain ⟨w₁, w₂, w₃, -, h₂, h₃, h₄⟩ := updateCurrent_eq_some h
  have hb : (w₂.heap cur).reachBranch = false := by
    rcases reachBranchBlock_eq_some h₂ with ⟨hb, rfl⟩ | ⟨-, w₂', -, rfl⟩
    · exact hb
    · rw [setState_heap_self]
  have hs : (w₃.heap cur).reachStore = false := by
    rcases reachStoreBlock_eq_some h₃ with ⟨hs, rfl⟩ | ⟨-, -, istart, kept, moved, w₃', -, -, rfl⟩
    · exact hs
    · show ((w₃'.setState cur _).heap cur).reachStore = false
      rw [setState_heap_self]
  have f₃ := reachStoreBlock_blockFrame h₃
  have f₄ := newPartlyBlock_blockFrame h₄
  exact ⟨flag_down (f₄.reachStore cur) hs, flag_down (fun h => f₃.reachBranch cur (f₄.reachBranch cur h)) hb⟩

theorem update_flags {w w' : World} {cur : StateId} {added removed : List StateId}
    (h : w.update (some cur) added removed = some w') {s : StateId} (hs : s = cur → cur ∉ removed)
    (hw : s ≠ cur → (w.heap s).reachStore = false ∧ (w.heap s).reachBranch = false) :
    (w'.heap s).reachStore = false ∧ (w'.heap s).reachBranch = false := by
  by_cases hsc : s = cur
  · subst hsc
    obtain ⟨w₁, w₂, h₁, h₂, h₃⟩ := update_cases h
    rcases h₁ with ⟨hr, -⟩ | ⟨cur', hcur, -, hc⟩
    · exact absurd (hr s rfl) (hs rfl)
    · cases hcur
      have hf := updateCurrent_flags hc
      have f₂ := refreshBlock_refreshFrame h₂
      rw [h₃]
      exact ⟨flag_down (f₂.reachStore s) hf.1, flag_down (f₂.reachBranch s) hf.2⟩
  · have hf := update_frame h
    exact ⟨flag_down (hf.reachStore s) (hw hsc).1, flag_down (hf.reachBranch s) (hw hsc).2⟩

end World

theorem Quiet.begin (hq : Quiet c) (hp : Partition c)
    (hc : c.world.selectState = some cur) (it : Iteration) {s : StateId} (hs : s ∈ c.live ∨ s ∈ it.added) :
    ((c.world.begin cur it).heap s).reachStore = false ∧ ((c.world.begin cur it).heap s).reachBranch = false := by
  have hcur := hp.selectState_mem hc
  by_cases hadd : s ∈ it.added
  · simp [World.begin, hadd, hq.reachStore cur hcur, hq.reachBranch cur hcur]
  · have hs := hs.resolve_right hadd
    simp [World.begin, hadd, hq.reachStore s hs, hq.reachBranch s hs]

theorem mem_updateLive {live added removed : List StateId} {s : StateId} :
    s ∈ updateLive live added removed ↔ (s ∈ live ∨ s ∈ added) ∧ s ∉ removed := by
  rw [updateLive, List.mem_filter, List.mem_append]
  simp

theorem Quiet.step {c c' : Config} {it : Iteration} (hq : Quiet c) (hp : Partition c)
    (h : c.step it = some c') : Quiet c' := by
  obtain ⟨cur, w₁, w₂, w₃, h₁, h₂, h₃, rfl⟩ := Config.step_eq_some h
  obtain ⟨hcur, hex⟩ := Config.execute_eq_some h₁
  have hr := World.checkMemory_rest (World.update_updateTargetBranch h₂) h₃
  have key : ∀ s ∈ updateLive c.live it.added it.removed,
      (w₂.heap s).reachStore = false ∧ (w₂.heap s).reachBranch = false := by
    intro s hs
    rw [mem_updateLive] at hs
    refine World.update_flags h₂ (fun hsc => hsc ▸ hs.2) (fun hsc => ?_)
    rw [(Action.execute_frame hex).heap s hsc]
    exact hq.begin hp hcur it hs.1
  refine ⟨fun s hs => ?_, fun s hs => ?_⟩ <;> rw [mem_updateLive] at hs
  · show (w₃.heap s).reachStore = false
    rw [hr]
    exact (key s (by simpa using hs.1)).1
  · show (w₃.heap s).reachBranch = false
    rw [hr]
    exact (key s (by simpa using hs.1)).2

theorem Start.rest (h : Start c) :
    ∃ w, Loaded w ∧ c.world = { w with states := c.world.states, branchStates := c.world.branchStates } := by
  obtain ⟨w, hw, -, h⟩ := h
  exact ⟨w, hw, World.update_none_rest hw.updateTargetBranch h⟩

theorem Start.partition (h : Start c) : Partition c := by
  obtain ⟨w, hw, hnd, h⟩ := h
  exact (Reachable.start hw.states hw.branchStates hnd h).partition

theorem Start.quiet (h : Start c) : Quiet c := by
  obtain ⟨w, hw, hr⟩ := h.rest
  exact ⟨fun s _ => by rw [hr]; exact hw.reachStore s, fun s _ => by rw [hr]; exact hw.reachBranch s⟩

theorem Run.sound {P : Config → Iteration → Prop} (h : Run P c) : Partition c ∧ Quiet c :=
  h.invariant (fun c => Partition c ∧ Quiet c) (fun _ h => ⟨h.partition, h.quiet⟩)
    fun _ _ _ hi ha _ hs => ⟨hi.1.step ha hs, hi.2.step hi.1 hs⟩

/-! ### A small program

Two blocks, each with a store to a variable and a `br` on the comparison of the variable with `5`.  The stores
(instructions `3` and `7`) have the ids `1` and `2`, the branches (instructions `0` and `4`) too. -/

/-- The program after `Executor::setModule`, with one target at a time. -/
def twoBranches : World :=
  { (default : World) with
    kmodule := ⟨[⟨.br, 0, [.inst 1]⟩, ⟨.icmp, 0, [.inst 2, .constantInt 5]⟩, ⟨.other, 0, []⟩, ⟨.other, 0, []⟩,
      ⟨.br, 1, [.inst 5]⟩, ⟨.icmp, 1, [.inst 6, .constantInt 5]⟩, ⟨.other, 1, []⟩, ⟨.other, 1, []⟩], fun _ => 0⟩
    bdDep := fun b => if b = 1 then some (.ofBr .eq [1]) else if b = 2 then some (.ofBr .eq [2]) else none
    id2bi := fun b => if b = 1 then some 0 else if b = 2 then some 4 else none
    bi2id := fun i => if i = 0 then some 1 else if i = 4 then some 2 else none
    id2si := fun s => if s = 1 then some 3 else if s = 2 then some 7 else none
    si2id := fun i => if i = 3 then 1 else if i = 7 then 2 else 0
    storetTobranches := fun s => if s = 1 then [1] else if s = 2 then [2] else []
    funcStores := fun _ => [3, 7]
    targetBranchNum := 1
    maxReachBranchCount := 3 }

def twoBranchesStart (initial : List StateId) : Config := ⟨{ twoBranches with states := initial }, initial⟩

theorem twoBranches_loaded : Loaded twoBranches where
  reachStore _ := rfl
  reachBranch _ := rfl
  branch i b h := by
    simp only [twoBranches] at h ⊢
    split at h
    · cases h; simp [*]
    · split at h
      · cases h; simp [*]
      · cases h
  targetBranches := rfl
  partlyCoveredBranches := rfl
  fullyCoveredBranches := rfl
  updateTargetBranch := rfl
  newFullyCoveredBranch := rfl
  newPartlyCoveredBranch := rfl
  newBranchNumFromStore := rfl
  invalidStoreValues _ := rfl
  validStoreValues _ := rfl
  states := rfl
  branchStates := rfl

theorem twoBranches_start : Start (twoBranchesStart [0]) :=
  ⟨twoBranches, twoBranches_loaded, by decide, rfl⟩

theorem twoBranches_start_two : Start (twoBranchesStart [0, 1]) :=
  ⟨twoBranches, twoBranches_loaded, by decide, rfl⟩

end CgsKlee
