import CgsKlee.Lib.Symbolic
import CgsKlee.Support.TreeStreamRoundTrip

/-!
# Recording the path of a state

With path writing on, every state has a stream of `pathWriter`, to which `Executor::fork` writes a `1` or a `0` for
each decision of the state, and a stream of `symPathWriter` for the decisions at which the state was split.  When
`fork` copies a state it opens streams of its own for the copy.  `Executor::branch` copies states too, but leaves
the copies with the streams of the original.

The model keeps, next to its two streams, the decisions that a state has really made.  A copy inherits them.
-/

namespace CgsKlee

open Symbolic TreeStream

namespace PathRecording

/-- A decision of a state at a fork that is not internal: the side, whether the solver left both sides open, and
whether both sides were followed. -/
structure Decision where
  side : Bool
  bothFeasible : Bool
  split : Bool
  feasible_of_split : split = true → bothFeasible = true
  deriving DecidableEq

structure PathState where
  pathOS : Nat
  symPathOS : Nat
  decisions : List Decision
  deriving DecidableEq

structure Recorder where
  pathWriter : TreeStreamWriter
  symPathWriter : TreeStreamWriter
  states : List PathState

def Recorder.init : Recorder :=
  let (pathOS, pathWriter) := TreeStreamWriter.init.openStream 0
  let (symPathOS, symPathWriter) := TreeStreamWriter.init.openStream 0
  ⟨pathWriter, symPathWriter, [⟨pathOS, symPathOS, []⟩]⟩

/-- `"1"` or `"0"`. -/
def bit (b : Bool) : List UInt8 := [if b then 49 else 48]

/-- What `fork` is told: the solver's answer (`none` when it timed out), the next branch of the path that is
replayed, if one is, and what it knows about seeds. -/
structure ForkAnswers where
  evaluate : Option Validity
  isSeeding : Bool := false
  replayPath : Option Bool := none
  replayKTest : Bool := false
  branchingPermitted : Bool := true
  coin : Bool := false
  forkDisabled : Bool := false
  onlyReplaySeeds : Bool := false
  trueSeed : Bool := false
  falseSeed : Bool := false
  deriving DecidableEq

def validityOf (b : Bool) : Validity := if b then .true else .false

/-- The value of `res` before the paths are recorded; `none` is a failed assertion. -/
def ForkAnswers.resolve (a : ForkAnswers) (isInternal : Bool) (res : Validity) : Option Validity :=
  if !a.isSeeding then
    match a.replayPath, isInternal with
    | some branch, false =>
      match res with
      | .true => if branch then some .true else none
      | .false => if branch then none else some .false
      | .unknown => some (validityOf branch)
    | _, _ =>
      match res with
      | .unknown =>
        if a.replayKTest then none
        else if !a.branchingPermitted then some (validityOf a.coin)
        else some .unknown
      | res => some res
  else if (a.forkDisabled || a.onlyReplaySeeds) && res == .unknown && !(a.trueSeed && a.falseSeed) then
    if a.trueSeed || a.falseSeed then some (validityOf a.trueSeed) else none
  else some res

def Recorder.recordOne (r : Recorder) (i : Nat) (s : PathState) (isInternal side bothFeasible : Bool) : Recorder :=
  if isInternal then r
  else
    { r with
      pathWriter := r.pathWriter.write s.pathOS (bit side)
      states := r.states.set i { s with decisions := s.decisions ++ [⟨side, bothFeasible, false, by simp⟩] } }

/-- The state is split: streams are opened for the copy, which takes the false side. -/
def Recorder.recordSplit (r : Recorder) (i : Nat) (s : PathState) (isInternal : Bool) : Recorder :=
  let (pathOS, pathWriter) := r.pathWriter.openStream s.pathOS
  let (symPathOS, symPathWriter) := r.symPathWriter.openStream s.symPathOS
  if isInternal then ⟨pathWriter, symPathWriter, r.states ++ [⟨pathOS, symPathOS, s.decisions⟩]⟩
  else
    { pathWriter := (pathWriter.write s.pathOS (bit true)).write pathOS (bit false)
      symPathWriter := (symPathWriter.write s.symPathOS (bit true)).write symPathOS (bit false)
      states := r.states.set i { s with decisions := s.decisions ++ [⟨true, true, true, by simp⟩] } ++
        [⟨pathOS, symPathOS, s.decisions ++ [⟨false, true, true, by simp⟩]⟩] }

/-- `Executor::fork` by the state at position `i`. -/
def Recorder.fork (r : Recorder) (i : Nat) (isInternal : Bool) (a : ForkAnswers) : Option Recorder :=
  match r.states[i]?, a.evaluate with
  | none, _ => none
  | some _, none => some { r with states := r.states.eraseIdx i }
  | some s, some res =>
    match a.resolve isInternal res with
    | none => none
    | some .true => some (r.recordOne i s isInternal true (res == .unknown))
    | some .false => some (r.recordOne i s isInternal false (res == .unknown))
    | some .unknown => some (r.recordSplit i s isInternal)

/-- The copies that `branch` makes, each of a random state among the first one and the copies before it.  The
positions of these are `result`. -/
def copies (rng : Nat → Nat) : Nat → List Nat → List PathState → List PathState
  | 0, _, states => states
  | n + 1, result, states =>
    match result[rng result.length % result.length]? with
    | none => states
    | some j =>
      match states[j]? with
      | none => states
      | some es => copies rng n (result ++ [states.length]) (states ++ [es])

/-- `Executor::branch` by the state at position `i`, with `n` conditions. -/
def Recorder.branch (r : Recorder) (i : Nat) (permitted : Bool) (rng : Nat → Nat) (n : Nat) : Option Recorder :=
  if n = 0 then none
  else
    match r.states[i]? with
    | none => none
    | some _ =>
      if !permitted then some r
      else some { r with states := copies rng (n - 1) [i] r.states }

/-- What states do to the streams.  A state is terminated by other code than `fork` and `branch`, too. -/
inductive Event
  | fork (i : Nat) (isInternal : Bool) (a : ForkAnswers)
  | branch (i : Nat) (permitted : Bool) (rng : Nat → Nat) (n : Nat)
  | terminate (i : Nat)

def Recorder.step (r : Recorder) : Event → Option Recorder
  | .fork i isInternal a => r.fork i isInternal a
  | .branch i permitted rng n => r.branch i permitted rng n
  | .terminate i => if i < r.states.length then some { r with states := r.states.eraseIdx i } else none

def bits (l : List Decision) : List UInt8 := l.flatMap fun d => bit d.side

/-! ## Streams that are not shared -/

/-- A writer with a stream for each entry of a list, all different, that holds the bytes of the entry. -/
structure Recorded (w : TreeStreamWriter) (l : List (Nat × List UInt8)) : Prop where
  history : ∃ ops, Valid 0 ops ∧ w.Keeps ops ∧
    ∀ e ∈ l, 0 < e.1 ∧ e.1 ≤ opens ops ∧ expected ops e.1 = e.2
  distinct : (l.map (·.1)).Nodup

variable {w : TreeStreamWriter} {l : List (Nat × List UInt8)} {id : Nat} {bytes s : List UInt8}

theorem Recorded.readStream (h : Recorded w l) (hmem : (id, bytes) ∈ l) :
    w.readStream id [] = some (bytes, w.flush) := by
  obtain ⟨ops, -, hkeeps, hl⟩ := h.history
  obtain ⟨h0, hid, heq⟩ := hl _ hmem
  rw [hkeeps.readStream h0 hid, heq, List.nil_append]

theorem Recorded.sublist (h : Recorded w l) {l' : List (Nat × List UInt8)} (hl : l'.Sublist l) : Recorded w l' := by
  obtain ⟨ops, hv, hkeeps, hall⟩ := h.history
  exact ⟨⟨ops, hv, hkeeps, fun e he => hall e (hl.subset he)⟩, h.distinct.sublist (hl.map _)⟩

theorem Recorded.write {l₁ l₂ : List (Nat × List UInt8)} (h : Recorded w (l₁ ++ (id, bytes) :: l₂))
    (hs : s.length < 2 ^ 31) : Recorded (w.write id s) (l₁ ++ (id, bytes ++ s) :: l₂) := by
  obtain ⟨ops, hv, hkeeps, hl⟩ := h.history
  obtain ⟨h0, hid, heq⟩ := hl (id, bytes) (by simp)
  have hop : Valid (opens ops) [.write id s] := ⟨⟨h0, hid, hs⟩, trivial⟩
  refine ⟨⟨ops ++ [.write id s], valid_append.mpr ⟨hv, by simpa using hop⟩, hkeeps.write hv hop, ?_⟩,
    by simpa using h.distinct⟩
  -- nothing is written to the other streams, which have other numbers
  have hother : ∀ e ∈ l₁ ++ l₂, 0 < e.1 ∧ e.1 ≤ opens ops ∧ expected (ops ++ [.write id s]) e.1 = e.2 := by
    intro e he
    have hmem : e ∈ l₁ ++ (id, bytes) :: l₂ := by
      simp only [List.mem_append, List.mem_cons] at he ⊢
      tauto
    obtain ⟨he0, heid, heeq⟩ := hl e hmem
    have hne : id ≠ e.1 := by
      have hnd : ((id, bytes) :: (l₁ ++ l₂)).map (·.1) |>.Nodup :=
        (List.perm_middle.map _).nodup_iff.mp h.distinct
      rw [List.map_cons, List.nodup_cons] at hnd
      intro hid
      exact hnd.1 (List.mem_map.mpr ⟨e, he, hid.symm⟩)
    refine ⟨he0, heid, ?_⟩
    rw [expected_append he0 heid, heeq]
    simp [written, hne]
  intro e he
  rw [opens_snoc_write]
  simp only [List.mem_append, List.mem_cons] at he
  obtain he | rfl | he := he
  · exact hother e (List.mem_append_left _ he)
  · refine ⟨h0, hid, ?_⟩
    rw [expected_append h0 hid, heq]
    simp [written]
  · exact hother e (List.mem_append_right _ he)

theorem Recorded.openStream (h : Recorded w l) (hmem : (id, bytes) ∈ l) (hroom : w.ids < 2 ^ 31) :
    Recorded (w.openStream id).2 (l ++ [((w.openStream id).1, bytes)]) := by
  obtain ⟨ops, hv, hkeeps, hl⟩ := h.history
  obtain ⟨h0, hid, heq⟩ := hl _ hmem
  have hids := hkeeps.ids
  have hop : Valid (opens ops) [.openStream id] := ⟨⟨hid, by omega⟩, trivial⟩
  have hnew : (w.openStream id).1 = opens ops + 1 := by
    rw [← hids]
    exact w.flushBuffer_ids
  refine ⟨⟨ops ++ [.openStream id], valid_append.mpr ⟨hv, by simpa using hop⟩, hkeeps.openStream hv hop, ?_⟩, ?_⟩
  · intro e he
    rw [opens_snoc_open]
    obtain he | he := List.mem_append.mp he
    · obtain ⟨he0, heid, heeq⟩ := hl e he
      refine ⟨he0, by omega, ?_⟩
      rw [expected_append he0 heid, heeq]
      simp [written]
    · obtain rfl := List.mem_singleton.mp he
      simp only [hnew]
      exact ⟨by omega, le_rfl, by rw [expected_open hv, heq]⟩
  · rw [List.map_append, List.map_singleton, hnew]
    refine List.nodup_append.mpr ⟨h.distinct, by simp, ?_⟩
    intro a ha b hb
    obtain ⟨e, he, rfl⟩ := List.mem_map.mp ha
    have := (hl e he).2.1
    simp only [List.mem_singleton] at hb
    omega

/-! ## Runs -/

def pathEntry (s : PathState) : Nat × List UInt8 := (s.pathOS, bits s.decisions)

def symPathEntry (s : PathState) : Nat × List UInt8 := (s.symPathOS, bits (s.decisions.filter (·.split)))

/-- Every state has streams of its own, with its own decisions. -/
structure OwnPaths (r : Recorder) : Prop where
  path : Recorded r.pathWriter (r.states.map pathEntry)
  symPath : Recorded r.symPathWriter (r.states.map symPathEntry)

/-- The condition on a step: `branch` makes no copy, and `fork` has a stream left to open. -/
def NoCopy (r : Recorder) : Event → Prop
  | .fork _ _ _ => r.pathWriter.ids < 2 ^ 31 ∧ r.symPathWriter.ids < 2 ^ 31
  | .branch _ permitted _ n => permitted = false ∨ n ≤ 1
  | .terminate _ => True

inductive Run : List Event → Recorder → Prop
  | start : Run [] .init
  | step {es : List Event} {r r' : Recorder} {e : Event} (h : Run es r) (hok : NoCopy r e)
      (hstep : r.step e = some r') : Run (es ++ [e]) r'

variable {r : Recorder} {st : PathState} {i : Nat}

theorem bit_length (b : Bool) : (bit b).length < 2 ^ 31 := by simp [bit]

theorem bits_append (a b : List Decision) : bits (a ++ b) = bits a ++ bits b := List.flatMap_append

theorem ownPaths_init : OwnPaths .init := by
  have h : Recorded (TreeStreamWriter.init.openStream 0).2 [((TreeStreamWriter.init.openStream 0).1, [])] := by
    refine ⟨⟨[.openStream 0], by decide, TreeStreamWriter.keeps_init.openStream trivial (by decide), ?_⟩, by simp⟩
    intro e he
    obtain rfl := List.mem_singleton.mp he
    refine ⟨by decide, by decide, ?_⟩
    have hnil : Valid 0 [] := trivial
    have hopen := expected_open hnil 0
    rw [expected_zero] at hopen
    exact hopen
  exact ⟨h, h⟩

theorem split_states (h : r.states[i]? = some st) :
    ∃ l₁ l₂, r.states = l₁ ++ st :: l₂ ∧ ∀ x, r.states.set i x = l₁ ++ x :: l₂ := by
  obtain ⟨hlt, hget⟩ := List.getElem?_eq_some_iff.mp h
  refine ⟨r.states.take i, r.states.drop (i + 1), ?_, ?_⟩
  · rw [← hget]
    simp
  · intro x
    rw [List.set_eq_take_append_cons_drop, if_pos hlt]

theorem OwnPaths.erase (h : OwnPaths r) (i : Nat) : OwnPaths { r with states := r.states.eraseIdx i } :=
  ⟨h.path.sublist ((List.eraseIdx_sublist _ _).map _), h.symPath.sublist ((List.eraseIdx_sublist _ _).map _)⟩

theorem OwnPaths.recordOne (h : OwnPaths r) (hi : r.states[i]? = some st) (isInternal side bothFeasible : Bool) :
    OwnPaths (r.recordOne i st isInternal side bothFeasible) := by
  cases isInternal with
  | true => exact h
  | false =>
    obtain ⟨l₁, l₂, hst, hset⟩ := split_states hi
    obtain ⟨hpath, hsym⟩ := h
    rw [hst, List.map_append, List.map_cons] at hpath hsym
    simp only [Recorder.recordOne, hset]
    refine ⟨?_, ?_⟩
    · have hw := hpath.write (bit_length side)
      simpa [pathEntry, bits_append, bits] using hw
    · simpa [symPathEntry] using hsym

theorem OwnPaths.recordSplit (h : OwnPaths r) (hi : r.states[i]? = some st) (isInternal : Bool)
    (hpathIds : r.pathWriter.ids < 2 ^ 31) (hsymIds : r.symPathWriter.ids < 2 ^ 31) :
    OwnPaths (r.recordSplit i st isInternal) := by
  obtain ⟨l₁, l₂, hst, hset⟩ := split_states hi
  have hmem : st ∈ r.states := List.mem_of_getElem? hi
  have hpath := h.path.openStream (List.mem_map_of_mem hmem) hpathIds
  have hsym := h.symPath.openStream (List.mem_map_of_mem hmem) hsymIds
  cases isInternal with
  | true =>
    refine ⟨?_, ?_⟩
    · simpa [Recorder.recordSplit, pathEntry] using hpath
    · simpa [Recorder.recordSplit, symPathEntry] using hsym
  | false =>
    rw [hst, List.map_append, List.map_cons, List.append_assoc, List.cons_append] at hpath hsym
    simp only [Recorder.recordSplit, hset]
    refine ⟨?_, ?_⟩
    · -- first the bit of the state itself, then that of the copy, which is the last one of the list
      have hone := hpath.write (bit_length true)
      rw [← List.cons_append, ← List.append_assoc] at hone
      have htwo := hone.write (bit_length false)
      simpa [pathEntry, bits_append, bits] using htwo
    · have hone := hsym.write (bit_length true)
      rw [← List.cons_append, ← List.append_assoc] at hone
      have htwo := hone.write (bit_length false)
      simpa [symPathEntry, bits_append, bits] using htwo

theorem OwnPaths.fork (h : OwnPaths r) {isInternal : Bool} {a : ForkAnswers} {r' : Recorder}
    (hpathIds : r.pathWriter.ids < 2 ^ 31) (hsymIds : r.symPathWriter.ids < 2 ^ 31)
    (hf : r.fork i isInternal a = some r') : OwnPaths r' := by
  unfold Recorder.fork at hf
  split at hf
  · cases hf
  · cases hf
    exact h.erase i
  · rename_i s res hs ha
    split at hf
    · cases hf
    · cases hf
      exact h.recordOne hs isInternal true _
    · cases hf
      exact h.recordOne hs isInternal false _
    · cases hf
      exact h.recordSplit hs isInternal hpathIds hsymIds

theorem OwnPaths.branch (h : OwnPaths r) {permitted : Bool} {rng : Nat → Nat} {n : Nat} {r' : Recorder}
    (hok : permitted = false ∨ n ≤ 1) (hb : r.branch i permitted rng n = some r') : OwnPaths r' := by
  unfold Recorder.branch at hb
  split at hb
  · cases hb
  · split at hb
    · cases hb
    · split at hb
      · cases hb
        exact h
      · rename_i hn _ _ hp
        obtain hfalse | hok := hok
        · simp [hfalse] at hp
        · obtain rfl : n = 1 := by omega
          cases hb
          exact h

theorem OwnPaths.step (h : OwnPaths r) {e : Event} {r' : Recorder} (hok : NoCopy r e) (hs : r.step e = some r') :
    OwnPaths r' := by
  cases e with
  | fork i isInternal a => exact h.fork hok.1 hok.2 hs
  | branch i permitted rng n => exact h.branch hok hs
  | terminate i =>
    simp only [Recorder.step] at hs
    split at hs
    · cases hs
      exact h.erase i
    · cases hs

theorem Run.ownPaths {es : List Event} (h : Run es r) : OwnPaths r := by
  induction h with
  | start => exact ownPaths_init
  | step _ hok hstep ih => exact ih.step hok hstep

/-- As long as `branch` makes no copy, the path stream of every state gives its own decisions, the symbolic path
stream those at which the state was split, and no two states share a stream.  The decisions with a split are the
ones where both sides were feasible, unless one side was left out. -/
theorem run_paths (es : List Event) (r : Recorder) (h : Run es r) :
    (∀ s ∈ r.states,
      r.pathWriter.readStream s.pathOS [] = some (bits s.decisions, r.pathWriter.flush) ∧
      r.symPathWriter.readStream s.symPathOS [] =
        some (bits (s.decisions.filter (·.split)), r.symPathWriter.flush) ∧
      ((∀ d ∈ s.decisions, d.bothFeasible = true → d.split = true) →
        r.symPathWriter.readStream s.symPathOS [] =
          some (bits (s.decisions.filter (·.bothFeasible)), r.symPathWriter.flush))) ∧
    (r.states.map (·.pathOS)).Nodup ∧ (r.states.map (·.symPathOS)).Nodup := by
  obtain ⟨hpath, hsym⟩ := h.ownPaths
  refine ⟨?_, ?_, ?_⟩
  · intro s hs
    have hsplit := hsym.readStream (List.mem_map_of_mem hs)
    refine ⟨hpath.readStream (List.mem_map_of_mem hs), hsplit, ?_⟩
    intro hboth
    have hfilter : s.decisions.filter (·.split) = s.decisions.filter (·.bothFeasible) := by
      apply List.filter_congr
      intro d hd
      rw [Bool.eq_iff_iff]
      exact ⟨d.feasible_of_split, hboth d hd⟩
    rw [← hfilter]
    exact hsplit
  · simpa [pathEntry, Function.comp_def] using hpath.distinct
  · simpa [symPathEntry, Function.comp_def] using hsym.distinct

def bothSides : ForkAnswers where
  evaluate := some .unknown

def mustBeTrue : ForkAnswers where
  evaluate := some .true

/-- Two forks, the second one by the copy that the first one made. -/
theorem run_paths_fork :
    ∃ r, Run [.fork 0 false bothSides, .fork 1 false mustBeTrue] r ∧
      ∃ s ∈ r.states, bits s.decisions = [48, 49] ∧
        r.pathWriter.readStream s.pathOS [] = some ([48, 49], r.pathWriter.flush) := by
  have hok : NoCopy .init (.fork 0 false bothSides) := ⟨by decide, by decide⟩
  have hrun := Run.step .start hok rfl
  have hok' : NoCopy (Recorder.init.recordSplit 0 ⟨1, 1, []⟩ false) (.fork 1 false mustBeTrue) :=
    ⟨by decide, by decide⟩
  have hrun' := hrun.step hok' rfl
  refine ⟨_, hrun', _, List.mem_cons_of_mem _ (List.mem_cons_self ..), rfl, ?_⟩
  exact ((run_paths _ _ hrun').1 _ (List.mem_cons_of_mem _ (List.mem_cons_self ..))).1

/-- After a symbolic `switch` with two targets, a decision of the one state is read back as the other one's: the two
states write to the same stream. -/
theorem branch_shares_stream :
    ∃ r r', Recorder.init.branch 0 true (fun _ => 0) 2 = some r ∧ r.fork 0 false mustBeTrue = some r' ∧
      ∃ s ∈ r'.states, s.decisions = [] ∧
        r'.pathWriter.readStream s.pathOS [] = some ([49], r'.pathWriter.flush) ∧
        ¬(r'.states.map (·.pathOS)).Nodup := by
  refine ⟨_, _, rfl, rfl, ⟨1, 1, []⟩, List.mem_cons_of_mem _ (List.mem_cons_self ..), rfl, ?_, by decide⟩
  have hvalid : Valid 0 [.openStream 0, .write 1 [49]] := by decide
  have h1 : 1 ≤ opens [.openStream 0, .write 1 [49]] := by decide
  have hread := (keeps_run hvalid).readStream Nat.one_pos h1 []
  have hopened : openedAt [.openStream 0, .write 1 [49]] 1 = some (0, 0) := rfl
  rw [expected_of_openedAt hopened, List.take_zero, expected_zero] at hread
  exact hread


end PathRecording

end CgsKlee
