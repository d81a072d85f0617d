import CgsKlee.Core.UncoveredDistance

/-!
# Distances of frames on return

A frame holds the distance to an uncovered instruction once its function returns.  The last loop of
`computeReachableUncovered` computes it for all frames, from the instruction behind the call; `framePushed` computes it
for a new frame, but from the call itself.  The two agree on all frames in runs in which at every call both
instructions were uncovered, or nothing uncovered can be reached from either (`PushEvent.Agrees`).
-/

namespace CgsKlee

open Derivations

/-- A `StackFrame`: the call, which only the first frame does not have, and the distance. -/
structure TrackedFrame (Inst : Type) where
  caller : Option Inst
  minDistToUncoveredOnReturn : Nat
deriving DecidableEq

/-- An `ExecutionState`, the last frame of the stack first. -/
structure TrackedState (Inst : Type) where
  pc : Inst
  stack : List (TrackedFrame Inst)
deriving DecidableEq

namespace TrackedModule

variable {Inst Fn : Type} [DecidableEq Inst] (infos : InfoTable Inst Fn)

def computeMinDistToUncovered (tables : StatsTables Fn) (ki : Inst) (minDistAtRA : Nat) : Nat :=
  let minDistLocal := infos.row tables.minDistToUncovered ki
  if minDistAtRA = 0 then minDistLocal
  else
    let distToReturn := infos.row tables.minDistToReturn ki
    if distToReturn = 0 then minDistLocal
    else if minDistLocal = 0 then distToReturn + minDistAtRA
    else min minDistLocal (distToReturn + minDistAtRA)

/-- `pushFrame` and `framePushed`, whose parent frame is the one below the new frame, if there is one. -/
def framePushed (tables : StatsTables Fn) (caller : Option Inst) (es : TrackedState Inst) : TrackedState Inst :=
  let minDistAtRA :=
    match es.stack with
    | [] => 0
    | parentFrame :: _ => parentFrame.minDistToUncoveredOnReturn
  let dist :=
    match caller with
    | none => 0
    | some ki => computeMinDistToUncovered infos tables ki minDistAtRA
  { es with stack := ⟨caller, dist % 2 ^ 32⟩ :: es.stack }

-- the instruction behind another one in `KFunction::instructions`
variable (next : Inst → Inst)

/-- The last loop for one state, over the frames from the first one on. -/
def frameLoop (tables : StatsTables Fn) (pc : Inst) (currentFrameMinDist : Nat) :
    List (TrackedFrame Inst) → List (TrackedFrame Inst)
  | [] => []
  | sf :: frames =>
    let kii :=
      match frames with
      | [] => some pc
      | nextFrame :: _ => nextFrame.caller.map next
    let dist :=
      match kii with
      | none => 0
      | some kii => computeMinDistToUncovered infos tables kii currentFrameMinDist
    { sf with minDistToUncoveredOnReturn := currentFrameMinDist % 2 ^ 32 } :: frameLoop tables pc dist frames

/-- The last loop of `computeReachableUncovered` for one state. -/
def updateFrames (tables : StatsTables Fn) (es : TrackedState Inst) : TrackedState Inst :=
  { es with stack := (frameLoop infos next tables es.pc 0 es.stack.reverse).reverse }

/-- What the loop computes for the last of the frames. -/
def onReturn (tables : StatsTables Fn) : List (TrackedFrame Inst) → Nat
  | [] | [_] => 0
  | sf :: parent :: rest =>
    match sf.caller with
    | none => 0
    | some ki => computeMinDistToUncovered infos tables (next ki) (onReturn tables (parent :: rest))

/-- The frames with what the loop computes for them. -/
def storeOnReturn (tables : StatsTables Fn) : List (TrackedFrame Inst) → List (TrackedFrame Inst)
  | [] => []
  | sf :: rest =>
    { sf with minDistToUncoveredOnReturn := onReturn infos next tables (sf :: rest) % 2 ^ 32 } ::
      storeOnReturn tables rest

variable {infos next} {tables : StatsTables Fn} {es : TrackedState Inst} {sf : TrackedFrame Inst}
  {frames stack : List (TrackedFrame Inst)} {pc : Inst} {dist : Nat}

/-- The variable `currentFrameMinDist` when the loop comes to a frame behind others. -/
private def atFrame (infos : InfoTable Inst Fn) (next : Inst → Inst) (tables : StatsTables Fn)
    (sf : TrackedFrame Inst) : Nat → List (TrackedFrame Inst) → Nat
  | dist, [] => dist
  | dist, _ :: frames =>
    let kii :=
      match frames with
      | [] => sf.caller.map next
      | nextFrame :: _ => nextFrame.caller.map next
    atFrame infos next tables sf
      (match kii with
      | none => 0
      | some kii => computeMinDistToUncovered infos tables kii dist) frames

private theorem frameLoop_append : frameLoop infos next tables pc dist (frames ++ [sf]) =
    frameLoop infos next tables pc dist frames ++
      [{ sf with minDistToUncoveredOnReturn := atFrame infos next tables sf dist frames % 2 ^ 32 }] := by
  induction frames generalizing dist with
  | nil => rfl
  | cons a frames ih =>
    cases frames with
    | nil => rfl
    | cons b frames => exact congrArg (List.cons _) ih

private theorem atFrame_append {parent : TrackedFrame Inst} :
    atFrame infos next tables sf dist (frames ++ [parent]) =
      match sf.caller with
      | none => 0
      | some ki => computeMinDistToUncovered infos tables (next ki) (atFrame infos next tables parent dist frames) := by
  induction frames generalizing dist with
  | nil => cases hcaller : sf.caller <;> simp only [List.nil_append, atFrame, hcaller, Option.map_none, Option.map_some]
  | cons a frames ih =>
    cases frames with
    | nil => exact ih
    | cons b frames => exact ih

private theorem atFrame_reverse :
    atFrame infos next tables sf 0 stack.reverse = onReturn infos next tables (sf :: stack) := by
  induction stack generalizing sf with
  | nil => rfl
  | cons parent stack ih =>
    rw [List.reverse_cons, atFrame_append, ih]
    rfl

theorem updateFrames_stack : (updateFrames infos next tables es).stack = storeOnReturn infos next tables es.stack := by
  have hloop : ∀ stack, frameLoop infos next tables es.pc 0 stack.reverse =
      (storeOnReturn infos next tables stack).reverse := by
    intro stack
    induction stack with
    | nil => rfl
    | cons sf stack ih =>
      rw [List.reverse_cons, frameLoop_append, ih, atFrame_reverse, storeOnReturn, List.reverse_cons]
  unfold updateFrames
  rw [hloop, List.reverse_reverse]

def Stored (infos : InfoTable Inst Fn) (next : Inst → Inst) (tables : StatsTables Fn)
    (stack : List (TrackedFrame Inst)) : Prop :=
  storeOnReturn infos next tables stack = stack

theorem updateFrames_eq_iff : updateFrames infos next tables es = es ↔ Stored infos next tables es.stack := by
  constructor
  · intro h
    rw [Stored, ← updateFrames_stack, h]
  · intro h
    have hstack : (updateFrames infos next tables es).stack = es.stack := updateFrames_stack.trans h
    calc updateFrames infos next tables es
        = ⟨es.pc, (updateFrames infos next tables es).stack⟩ := rfl
      _ = es := by rw [hstack]

theorem onReturn_congr {stack' : List (TrackedFrame Inst)}
    (h : stack.map TrackedFrame.caller = stack'.map TrackedFrame.caller) :
    onReturn infos next tables stack = onReturn infos next tables stack' := by
  induction stack generalizing stack' with
  | nil => rw [List.map_eq_nil_iff.mp h.symm]
  | cons sf stack ih =>
    obtain ⟨sf', rest', rfl, hsf, hrest⟩ := List.map_eq_cons_iff.mp h.symm
    cases stack with
    | nil =>
      rw [List.map_nil, List.map_eq_nil_iff] at hrest
      rw [hrest]
      rfl
    | cons parent rest =>
      have hih := ih hrest.symm
      cases rest' with
      | nil => cases hrest
      | cons parent' rest' =>
        unfold onReturn
        rw [hih, hsf]

theorem map_caller_storeOnReturn :
    (storeOnReturn infos next tables stack).map TrackedFrame.caller = stack.map TrackedFrame.caller := by
  induction stack with
  | nil => rfl
  | cons sf stack ih => exact congrArg (List.cons sf.caller) ih

theorem stored_storeOnReturn : Stored infos next tables (storeOnReturn infos next tables stack) := by
  unfold Stored
  induction stack with
  | nil => rfl
  | cons sf stack ih =>
    have hcongr : onReturn infos next tables (storeOnReturn infos next tables (sf :: stack)) =
        onReturn infos next tables (sf :: stack) := onReturn_congr map_caller_storeOnReturn
    rw [storeOnReturn] at hcongr ⊢
    rw [storeOnReturn, ih, hcongr]

theorem stored_cons : Stored infos next tables (sf :: stack) ↔
    sf.minDistToUncoveredOnReturn = onReturn infos next tables (sf :: stack) % 2 ^ 32 ∧
      Stored infos next tables stack := by
  unfold Stored
  rw [storeOnReturn, List.cons.injEq]
  constructor
  · rintro ⟨hsf, hstack⟩
    exact ⟨(congrArg TrackedFrame.minDistToUncoveredOnReturn hsf).symm, hstack⟩
  · rintro ⟨hsf, hstack⟩
    refine ⟨?_, hstack⟩
    rw [← hsf]

theorem Stored.suffix {stack' : List (TrackedFrame Inst)} (h : Stored infos next tables stack)
    (hsuffix : stack' <:+ stack) : Stored infos next tables stack' := by
  obtain ⟨front, rfl⟩ := hsuffix
  induction front with
  | nil => exact h
  | cons sf front ih => exact ih (stored_cons.mp h).2

/-- The tables hold the shortest distances for a set of uncovered instructions. -/
structure Computed (m : TrackedModule Inst Fn) (infos : InfoTable Inst Fn) (uncovered : Inst → Bool)
    (tables : StatsTables Fn) : Prop where
  through : m.ShortestThrough tables.functionShortestPath
  returns : ∀ i, IsShortest m.returnRules i (infos.row tables.minDistToReturn i)
  uncovered : ∀ i, IsShortest (m.localRules uncovered) i (infos.row tables.minDistToUncovered i)

/-- Something uncovered can be reached from an instruction in the last of the frames, or after returns. -/
def Reaches (m : TrackedModule Inst Fn) (next : Inst → Inst) (uncovered : Inst → Bool) :
    Inst → List (TrackedFrame Inst) → Prop
  | i, [] | i, [_] => ∃ k, Derives (m.localRules uncovered) i k
  | i, sf :: parent :: rest =>
    (∃ k, Derives (m.localRules uncovered) i k) ∨
      (∃ k, Derives m.returnRules i k) ∧ ∃ ki, sf.caller = some ki ∧ Reaches m next uncovered (next ki) (parent :: rest)

variable {m : TrackedModule Inst Fn} {uncovered : Inst → Bool} {i : Inst}

theorem computeMinDistToUncovered_eq_zero : computeMinDistToUncovered infos tables i dist = 0 ↔
    infos.row tables.minDistToUncovered i = 0 ∧ (dist = 0 ∨ infos.row tables.minDistToReturn i = 0) := by
  unfold computeMinDistToUncovered
  dsimp only
  split
  · rename_i hdist
    exact ⟨fun h => ⟨h, Or.inl hdist⟩, And.left⟩
  · rename_i hdist
    split
    · rename_i hreturn
      exact ⟨fun h => ⟨h, Or.inr hreturn⟩, And.left⟩
    · rename_i hreturn
      split <;> omega

theorem Computed.ne_zero_iff (h : Computed m infos uncovered tables) :
    infos.row tables.minDistToUncovered i ≠ 0 ↔ ∃ k, Derives (m.localRules uncovered) i k :=
  ⟨fun hne => ⟨_, (h.uncovered i).derives hne⟩, fun ⟨_, hk⟩ => (h.uncovered i).ne_zero hk⟩

theorem Computed.return_ne_zero_iff (h : Computed m infos uncovered tables) :
    infos.row tables.minDistToReturn i ≠ 0 ↔ ∃ k, Derives m.returnRules i k :=
  ⟨fun hne => ⟨_, (h.returns i).derives hne⟩, fun ⟨_, hk⟩ => (h.returns i).ne_zero hk⟩

theorem Computed.reaches_iff (h : Computed m infos uncovered tables) : Reaches m next uncovered i stack ↔
    computeMinDistToUncovered infos tables i (onReturn infos next tables stack) ≠ 0 := by
  rw [Ne, computeMinDistToUncovered_eq_zero, not_and_or, not_or, ← Ne, h.ne_zero_iff]
  induction stack generalizing i with
  | nil => exact (or_iff_left fun hand => hand.1 rfl).symm
  | cons sf stack ih =>
    cases stack with
    | nil => exact (or_iff_left fun hand => hand.1 rfl).symm
    | cons parent rest =>
      have hparent : onReturn infos next tables (sf :: parent :: rest) ≠ 0 ↔
          ∃ ki, sf.caller = some ki ∧ Reaches m next uncovered (next ki) (parent :: rest) := by
        unfold onReturn
        cases hcaller : sf.caller with
        | none => exact ⟨fun hne => absurd rfl hne, nofun⟩
        | some ki =>
          dsimp only
          rw [Ne, computeMinDistToUncovered_eq_zero, not_and_or, not_or, ← Ne, h.ne_zero_iff, ← ih]
          exact ⟨fun hreach => ⟨ki, rfl, hreach⟩, fun ⟨_, hki, hreach⟩ => Option.some.inj hki ▸ hreach⟩
      rw [← Ne, ← Ne, hparent, h.return_ne_zero_iff, and_comm]
      rfl

theorem Computed.eq_one_iff (h : Computed m infos uncovered tables) :
    computeMinDistToUncovered infos tables i dist = 1 ↔ uncovered i = true := by
  have hlocal : infos.row tables.minDistToUncovered i = 1 ↔ uncovered i = true := by
    constructor
    · intro hone
      have hd := (h.uncovered i).derives (by omega)
      rw [hone] at hd
      cases hd.leaf_of_one (m.localRules_positive uncovered) with
      | here hu => exact hu
    · intro hu
      have hleaf : Derives (m.localRules uncovered) i 1 := .leaf (.here hu)
      have hne := (h.uncovered i).ne_zero hleaf
      have hle := ((h.uncovered i).2 1 hleaf).1
      omega
  rw [← hlocal]
  unfold computeMinDistToUncovered
  dsimp only
  split
  · rfl
  · split
    · rfl
    · split <;> omega

variable {ki : Inst}

/-- At the call both instructions were uncovered, or nothing uncovered can be reached from either. -/
def CallAgrees (m : TrackedModule Inst Fn) (next : Inst → Inst) (uncovered : Inst → Bool) (ki : Inst)
    (stack : List (TrackedFrame Inst)) : Prop :=
  uncovered ki = true ∧ uncovered (next ki) = true ∨
    ¬Reaches m next uncovered ki stack ∧ ¬Reaches m next uncovered (next ki) stack

theorem stored_framePushed (hs : Stored infos next tables es.stack) (hne : es.stack ≠ []) :
    Stored infos next tables (framePushed infos tables (some ki) es).stack ↔
      computeMinDistToUncovered infos tables ki (onReturn infos next tables es.stack % 2 ^ 32) % 2 ^ 32 =
        computeMinDistToUncovered infos tables (next ki) (onReturn infos next tables es.stack) % 2 ^ 32 := by
  obtain ⟨pc, stack⟩ := es
  cases stack with
  | nil => exact absurd rfl hne
  | cons parent rest =>
    unfold framePushed
    dsimp only at hs ⊢
    rw [stored_cons, and_iff_left hs, (stored_cons.mp hs).1]
    rfl

theorem Stored.framePushed (hs : Stored infos next tables es.stack) (h : Computed m infos uncovered tables)
    (hne : es.stack ≠ []) (hagrees : CallAgrees m next uncovered ki es.stack) :
    Stored infos next tables (framePushed infos tables (some ki) es).stack := by
  rw [stored_framePushed hs hne]
  rcases hagrees with ⟨hki, hnext⟩ | ⟨hki, hnext⟩
  · rw [h.eq_one_iff.mpr hki, h.eq_one_iff.mpr hnext]
  · rw [h.reaches_iff, not_not] at hki hnext
    rw [hnext]
    rw [computeMinDistToUncovered_eq_zero] at hki
    have hzero : computeMinDistToUncovered infos tables ki (onReturn infos next tables es.stack % 2 ^ 32) = 0 := by
      rw [computeMinDistToUncovered_eq_zero]
      refine ⟨hki.1, hki.2.imp_left fun h0 => ?_⟩
      rw [h0]
      rfl
    rw [hzero]

theorem Computed.uncovered_call (h : Computed m infos uncovered tables) {operand : CalledOperand Fn}
    (hkind : m.kind ki = .call operand) {j : Inst} (hsuccs : m.getSuccs ki = [j]) (hki : ¬uncovered ki = true) :
    infos.row tables.minDistToUncovered ki =
      if m.bestThrough tables.functionShortestPath ki = 0 ∨ infos.row tables.minDistToUncovered j = 0 then 0
      else m.bestThrough tables.functionShortestPath ki + infos.row tables.minDistToUncovered j := by
  have hj : j ∈ m.getSuccs ki := by rw [hsuccs]; exact .head _
  refine eq_of_way h.uncovered (fun hne hjne => ⟨_, h.through.rule hj hne, if_neg hjne⟩) ?_
  intro r hr hvalue
  cases hr with
  | here hu => exact absurd hu hki
  | step hnot _ => exact absurd hkind (hnot operand)
  | @stepOver j' operand' f k hkind' hf hk hj' =>
    rw [hsuccs, List.mem_singleton] at hj'
    subst hj'
    have hjne : infos.row tables.minDistToUncovered j' ≠ 0 := fun h0 => hvalue (if_pos h0)
    obtain ⟨hfne, hfk⟩ := h.through.le hk
    obtain ⟨hthrough, hle⟩ := bestThrough_le (fun f => (h.through f).1) hkind' hf hfne
    rw [Rule.value, if_neg hjne]
    exact ⟨hthrough, hjne, by omega⟩

theorem Computed.return_call (h : Computed m infos uncovered tables) {operand : CalledOperand Fn}
    (hkind : m.kind ki = .call operand) {j : Inst} (hsuccs : m.getSuccs ki = [j]) :
    infos.row tables.minDistToReturn ki =
      if m.bestThrough tables.functionShortestPath ki = 0 ∨ infos.row tables.minDistToReturn j = 0 then 0
      else m.bestThrough tables.functionShortestPath ki + infos.row tables.minDistToReturn j := by
  have hj : j ∈ m.getSuccs ki := by rw [hsuccs]; exact .head _
  have hdeclared : ∀ f doesNotReturn, m.body f = .declaration doesNotReturn →
      tables.functionShortestPath f = if doesNotReturn then 0 else 1 := by
    intro f doesNotReturn hf
    have hpath := (h.through f).2
    rwa [hf] at hpath
  have hdefined : ∀ f first, m.body f = .definition first →
      tables.functionShortestPath f = infos.row tables.minDistToReturn first := by
    intro f first hf
    have hpath := (h.through f).2
    rw [hf] at hpath
    exact hpath.unique (h.returns first)
  have hfits : ∀ f, tables.functionShortestPath f + 1 < 2 ^ 32 := fun f => (h.through f).1
  refine eq_of_way h.returns (fun hne hjne =>
    exists_returnRule hfits hdeclared (fun f first hf _ => hdefined f first hf) hj hjne hne) ?_
  intro r hr hvalue
  cases hr with
  | ret hret =>
    rw [hret] at hkind
    cases hkind
  | step hnot _ => exact absurd hkind (hnot operand)
  | @declared j' operand' f hkind' hf hbody hj' =>
    rw [hsuccs, List.mem_singleton] at hj'
    subst hj'
    have hjne : infos.row tables.minDistToReturn j' ≠ 0 := fun h0 => hvalue (if_pos h0)
    have hpath : tables.functionShortestPath f = 1 := hdeclared f false hbody
    obtain ⟨hthrough, hle⟩ := bestThrough_le hfits hkind' hf (by omega)
    rw [Rule.value, if_neg hjne]
    exact ⟨hthrough, hjne, by omega⟩
  | @defined j' first operand' f hkind' hf hbody hj' =>
    rw [hsuccs, List.mem_singleton] at hj'
    subst hj'
    have hnot : ¬(infos.row tables.minDistToReturn first = 0 ∨ infos.row tables.minDistToReturn j' = 0) :=
      fun h0 => hvalue (if_pos h0)
    rw [Rule.value, if_neg hnot]
    rw [not_or] at hnot
    have hpath := hdefined f first hbody
    obtain ⟨hthrough, hle⟩ := bestThrough_le hfits hkind' hf (by omega)
    exact ⟨hthrough, hnot.2, by omega⟩

theorem Computed.computeMinDistToUncovered_call (h : Computed m infos uncovered tables) {operand : CalledOperand Fn}
    (hkind : m.kind ki = .call operand) {j : Inst} (hsuccs : m.getSuccs ki = [j]) (hki : ¬uncovered ki = true)
    (dist : Nat) :
    computeMinDistToUncovered infos tables ki dist =
      if m.bestThrough tables.functionShortestPath ki = 0 ∨ computeMinDistToUncovered infos tables j dist = 0 then 0
      else m.bestThrough tables.functionShortestPath ki + computeMinDistToUncovered infos tables j dist := by
  have huncovered := h.uncovered_call hkind hsuccs hki
  have hreturn := h.return_call hkind hsuccs
  unfold computeMinDistToUncovered
  dsimp only
  rw [huncovered, hreturn]
  -- the path through the call is added to both ways
  generalize m.bestThrough tables.functionShortestPath ki = through
  generalize infos.row tables.minDistToUncovered j = minDistLocal
  generalize infos.row tables.minDistToReturn j = distToReturn
  by_cases hthrough : through = 0
  · subst hthrough
    split <;> rfl
  · simp only [hthrough, false_or]
    grind

theorem Stored.agrees (h : Computed m infos uncovered tables) (hs : Stored infos next tables es.stack)
    (hne : es.stack ≠ []) {operand : CalledOperand Fn} (hkind : m.kind ki = .call operand)
    (hsuccs : m.getSuccs ki = [next ki]) (hfits : onReturn infos next tables es.stack < 2 ^ 32)
    (hfits' : computeMinDistToUncovered infos tables (next ki) (onReturn infos next tables es.stack) < 2 ^ 32)
    (hpush : Stored infos next tables (TrackedModule.framePushed infos tables (some ki) es).stack) :
    CallAgrees m next uncovered ki es.stack := by
  rw [stored_framePushed hs hne, Nat.mod_eq_of_lt hfits, Nat.mod_eq_of_lt hfits'] at hpush
  by_cases hki : uncovered ki = true
  · rw [h.eq_one_iff.mpr hki] at hpush
    exact Or.inl ⟨hki, h.eq_one_iff.mp hpush.symm⟩
  · have hcall := h.computeMinDistToUncovered_call hkind hsuccs hki (onReturn infos next tables es.stack)
    have hthrough : m.bestThrough tables.functionShortestPath ki < 2 ^ 32 := by
      by_cases hzero : m.bestThrough tables.functionShortestPath ki = 0
      · omega
      · obtain ⟨f, -, -, heq⟩ := exists_bestThrough (fun f => (h.through f).1) hkind hzero
        have := (h.through f).1
        omega
    -- a path through the call would be longer
    have hzero : computeMinDistToUncovered infos tables (next ki) (onReturn infos next tables es.stack) = 0 := by
      split at hcall <;> omega
    refine Or.inr ⟨?_, ?_⟩
    · rw [h.reaches_iff, not_not, hcall, if_pos (Or.inr hzero)]
    · rw [h.reaches_iff, not_not, hzero]

/-- The tables, the instructions that were uncovered when they were computed, and the states. -/
structure TrackedSystem (Inst Fn : Type) where
  tables : StatsTables Fn
  uncovered : Inst → Bool
  states : List (TrackedState Inst)

inductive TrackerEvent (Inst : Type)
  | entry
  | call (ki : Inst) (es : TrackedState Inst)
  | other
  | update

variable [DecidableEq Fn]

/-- The steps: the first state gets its frame, a state pushes a frame, a state does anything else (it goes on, forks
or terminates, and may pop frames), and the distances are computed again. -/
inductive TrackerStep (m : TrackedModule Inst Fn) (infos : InfoTable Inst Fn) (next : Inst → Inst) :
    TrackerEvent Inst → TrackedSystem Inst Fn → TrackedSystem Inst Fn → Prop
  | entry {sys : TrackedSystem Inst Fn} {pc : Inst} : TrackerStep m infos next .entry sys
    { sys with states := framePushed infos sys.tables none ⟨pc, []⟩ :: sys.states }
  | call {sys : TrackedSystem Inst Fn} {front back : List (TrackedState Inst)} {es : TrackedState Inst} {ki pc : Inst} :
    sys.states = front ++ es :: back → es.stack ≠ [] → TrackerStep m infos next (.call ki es) sys
      { sys with states := front ++ { framePushed infos sys.tables (some ki) es with pc } :: back }
  | other {sys : TrackedSystem Inst Fn} {front back successors : List (TrackedState Inst)} {es : TrackedState Inst} :
    sys.states = front ++ es :: back → (∀ es' ∈ successors, es'.stack <:+ es.stack) →
      TrackerStep m infos next .other sys { sys with states := front ++ successors ++ back }
  | update {sys : TrackedSystem Inst Fn} {fuel : Nat} {uncovered : Inst → Bool} {tables : StatsTables Fn} :
    m.computeReachableUncovered infos fuel uncovered sys.tables = some tables → TrackerStep m infos next .update sys
      ⟨tables, uncovered, sys.states.map (updateFrames infos next tables)⟩

def TrackerEvent.Agrees (m : TrackedModule Inst Fn) (next : Inst → Inst) (uncovered : Inst → Bool) :
    TrackerEvent Inst → Prop
  | .call ki es => CallAgrees m next uncovered ki es.stack
  | .entry | .other | .update => True

/-- The runs whose calls all meet the condition, from the first computation on. -/
inductive AgreeingRun (m : TrackedModule Inst Fn) (infos : InfoTable Inst Fn) (next : Inst → Inst) :
    TrackedSystem Inst Fn → Prop
  | start {fuel : Nat} {uncovered : Inst → Bool} {tables : StatsTables Fn} :
    m.computeReachableUncovered infos fuel uncovered .start = some tables →
      AgreeingRun m infos next ⟨tables, uncovered, []⟩
  | step {e : TrackerEvent Inst} {sys sys' : TrackedSystem Inst Fn} : AgreeingRun m infos next sys →
    TrackerStep m infos next e sys sys' → e.Agrees m next sys.uncovered → AgreeingRun m infos next sys'

variable {sys sys' : TrackedSystem Inst Fn}

structure SystemInv (m : TrackedModule Inst Fn) (infos : InfoTable Inst Fn) (next : Inst → Inst)
    (sys : TrackedSystem Inst Fn) : Prop where
  tables : TablesInv m infos sys.tables
  computed : Computed m infos sys.uncovered sys.tables
  stored : ∀ es ∈ sys.states, Stored infos next sys.tables es.stack

theorem TablesInv.computed {s s' : StatsTables Fn} (h : TablesInv m infos s) (hfits : m.Fits) {fuel : Nat}
    (hcall : m.computeReachableUncovered infos fuel uncovered s = some s') : Computed m infos uncovered s' := by
  obtain ⟨hinv, hinit, hlocal⟩ := h.call hfits hcall
  obtain ⟨hthrough, hreturns⟩ := hinv.returns hinit
  exact ⟨hthrough, hreturns, hlocal⟩

theorem SystemInv.step (h : SystemInv m infos next sys) (hfits : m.Fits) {e : TrackerEvent Inst}
    (hstep : TrackerStep m infos next e sys sys') (hagrees : e.Agrees m next sys.uncovered) :
    SystemInv m infos next sys' := by
  obtain ⟨htables, hcomputed, hstored⟩ := h
  cases hstep with
  | entry => exact ⟨htables, hcomputed, List.forall_mem_cons.mpr ⟨rfl, hstored⟩⟩
  | call hsys hne =>
    refine ⟨htables, hcomputed, ?_⟩
    rw [hsys, List.forall_mem_append, List.forall_mem_cons] at hstored
    obtain ⟨hfront, hes, hback⟩ := hstored
    have hpushed := hes.framePushed hcomputed hne hagrees
    exact List.forall_mem_append.mpr ⟨hfront, List.forall_mem_cons.mpr ⟨hpushed, hback⟩⟩
  | other hsys hsuffix =>
    refine ⟨htables, hcomputed, ?_⟩
    rw [hsys, List.forall_mem_append, List.forall_mem_cons] at hstored
    obtain ⟨hfront, hes, hback⟩ := hstored
    have hsuccessors := fun es' hes' => hes.suffix (hsuffix es' hes')
    exact List.forall_mem_append.mpr ⟨List.forall_mem_append.mpr ⟨hfront, hsuccessors⟩, hback⟩
  | update hcall =>
    refine ⟨(htables.call hfits hcall).1, htables.computed hfits hcall, fun es hes => ?_⟩
    obtain ⟨es, -, rfl⟩ := List.mem_map.mp hes
    rw [updateFrames_stack]
    exact stored_storeOnReturn

theorem AgreeingRun.inv (h : AgreeingRun m infos next sys) (hfits : m.Fits) : SystemInv m infos next sys := by
  induction h with
  | start hcall =>
    have hstart : TablesInv m infos .start := Reached.start.inv hfits
    exact ⟨(hstart.call hfits hcall).1, hstart.computed hfits hcall, nofun⟩
  | step _ hstep hagrees ih => exact ih.step hfits hstep hagrees

/-- In every run whose calls meet the condition, all frames hold what the loop would store; and after any other call,
where the distances fit an `unsigned`, the new frame does not. -/
theorem frames_agree (hfits : m.Fits) (hrun : AgreeingRun m infos next sys) :
    (∀ es ∈ sys.states, updateFrames infos next sys.tables es = es) ∧
    ∀ es ∈ sys.states, es.stack ≠ [] → ∀ ki operand, m.kind ki = .call operand → m.getSuccs ki = [next ki] →
      onReturn infos next sys.tables es.stack < 2 ^ 32 →
      computeMinDistToUncovered infos sys.tables (next ki) (onReturn infos next sys.tables es.stack) < 2 ^ 32 →
      (updateFrames infos next sys.tables (framePushed infos sys.tables (some ki) es) =
          framePushed infos sys.tables (some ki) es ↔
        CallAgrees m next sys.uncovered ki es.stack) := by
  obtain ⟨-, hcomputed, hstored⟩ := hrun.inv hfits
  refine ⟨fun es hes => updateFrames_eq_iff.mpr (hstored es hes), ?_⟩
  intro es hes hne ki operand hkind hsuccs hsmall hsmall'
  rw [updateFrames_eq_iff]
  exact ⟨(hstored es hes).agrees hcomputed hne hkind hsuccs hsmall hsmall',
    (hstored es hes).framePushed hcomputed hne⟩

/-- A run in which the call and the return behind it are uncovered. -/
theorem frames_agree_callAndReturn : ∃ sys : TrackedSystem (Fin 3) (Fin 2),
    sys.states.map (fun es => es.stack.length) = [2] ∧
      (∀ es ∈ sys.states, updateFrames callAndReturnInfos (· + 1) sys.tables es = es) := by
  have hstart : TablesInv callAndReturn callAndReturnInfos .start := Reached.start.inv callAndReturn_fits
  obtain ⟨fuel, tables, hcall⟩ := hstart.exists_call callAndReturn_fits fun _ => true
  have hrun : AgreeingRun callAndReturn callAndReturnInfos (· + 1) ⟨tables, fun _ => true, []⟩ := .start hcall
  have hentry := hrun.step (@TrackerStep.entry _ _ _ _ _ _ _ _ 0) trivial
  have hpush := hentry.step (@TrackerStep.call _ _ _ _ _ _ _ _ [] [] _ 0 2 rfl (List.cons_ne_nil _ _))
    (Or.inl ⟨rfl, rfl⟩)
  exact ⟨_, rfl, (frames_agree callAndReturn_fits hpush).1⟩

def stateInCallee (tables : StatsTables (Fin 2)) : TrackedState (Fin 3) :=
  let call := callAndReturnInfos.infos.head (by decide)
  framePushed callAndReturnInfos tables (some call) (framePushed callAndReturnInfos tables none ⟨call, []⟩)

/-- Only the return behind the call is uncovered: the new frame gets the way through the call, too. -/
theorem framePushed_counts_call : ∃ tables,
    callAndReturn.computeReachableUncovered callAndReturnInfos 3 (decide <| · = 1) .start = some tables ∧
      updateFrames callAndReturnInfos (· + 1) tables (stateInCallee tables) ≠ stateInCallee tables := by
  have hrun : (callAndReturn.computeReachableUncovered callAndReturnInfos 3 (decide <| · = 1) .start).map (fun tables =>
      decide (updateFrames callAndReturnInfos (· + 1) tables (stateInCallee tables) ≠ stateInCallee tables)) =
        some true := by decide
  obtain ⟨tables, hcall, hne⟩ := Option.map_eq_some_iff.mp hrun
  exact ⟨tables, hcall, of_decide_eq_true hne⟩

end TrackedModule

end CgsKlee
