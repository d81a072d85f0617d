import CgsKlee.Support.DiscretePDF
import Mathlib.Data.List.Induction

/-!
# `DiscretePDF` and the red-black invariant

`insert` keeps the tree red-black.  Its loop splits a black node with two red children before it goes on, which
keeps the uncle of the node it stands on from being red (`Stage`); after a double rotation it comes through the
lifted red node's new parent once more before it reaches a child of that node.

`remove` calls `lengthen` on the only child of the node that it takes out, which is red then.  A black node without
children has none to call it on, so the paths through its place lose a black node: `redBlack_iff` says that this is
the only way a run loses the invariant.
-/

namespace CgsKlee.PDFTree

open RedBlack RedBlack.RBTree

variable {T W : Type} (lessThan : T → T → Bool) (item : T)

def Searched (path : Path T W) : Prop := ∀ p ∈ path, p.side = direction lessThan item p.data.key

/-- Below a red parent, the parent's sibling is not red. -/
def BlackUncle : Path T W → Prop
  | p :: pp :: _ => p.red → pp.other.isRed = false
  | _ => True

/-- The tree is a child of `n` made black, or a red node that `n` was rotated over, with such a child on the side
the item belongs to. -/
def FromChild (n t : Node T W) : Prop :=
  (∃ s, t = (n.child s).mark false) ∨
    ∃ d l r s, t = node true d l r ∧ t.child (direction lessThan item d.key) = (n.child s).mark false

def Quiet (t : Node T W) : Prop := ∃ d l r, t = node false d l r ∧ (l.isRed && r.isRed) = false

/-- What the loop relies on at its cursor: no red siblings at it and above it, or, after a split, that the red child
which the split made black comes next. -/
inductive Stage (lessThan : T → T → Bool) (item : T) : Node T W → Path T W → Prop
  | fresh {n path} (hn : n.isRed → ∀ p ∈ path.head?, p.other.isRed = false) (hu : BlackUncle path) :
    Stage lessThan item n path
  | quiet {n path} (hn : Quiet n) : Stage lessThan item n path
  | lifted {d l r path} (hn : Quiet ((node true d l r).child (direction lessThan item d.key))) :
    Stage lessThan item (node true d l r) path

variable {lessThan item} {n : Nat} {red : Bool} {d : Item T W} {l r t root : Node T W} {path : Path T W}

theorem quiet_child (h : (node false d l r).Levels n)
    (hl : l.isRed) (hr : r.isRed) (s : Side) : Quiet (((node false d l r).child s).mark false) := by
  obtain ⟨n, rfl, hlv, hrv⟩ := h.black
  match l, r, hl, hr with
  | node true dl ll lr, node true dr rl rr, _, _ =>
    cases s
    case left => exact ⟨_, _, _, rfl, by simp [hlv.1]⟩
    case right => exact ⟨_, _, _, rfl, by simp [hrv.1]⟩

theorem FromChild.stage {n : Node T W} (h : FromChild lessThan item n t)
    (hq : ∀ s, Quiet ((n.child s).mark false)) (path : Path T W) : Stage lessThan item t path := by
  obtain ⟨s, rfl⟩ | ⟨d, l, r, s, rfl, hs⟩ := h
  · exact .quiet (hq s)
  · exact .lifted (hs ▸ hq s)

theorem Stage.down (h : Stage lessThan item (node red d l r) path) (hlr : (l.isRed && r.isRed) = false) :
    Stage lessThan item (down (direction lessThan item d.key) (node red d l r) path).1
      (down (direction lessThan item d.key) (node red d l r) path).2 := by
  -- the node's own sibling is not red when the node is, so the child's uncle is not
  have hfresh (hn : red → ∀ p ∈ path.head?, p.other.isRed = false) (s : Side) :
      Stage lessThan item (RedBlack.down s (node red d l r) path).1 (RedBlack.down s (node red d l r) path).2 := by
    have huncle : BlackUncle (⟨s, red, d, ((node red d l r).child s.opp)⟩ :: path) := by
      cases path with
      | nil => trivial
      | cons pp up => exact fun hred => hn hred pp rfl
    cases s
    case left => exact .fresh (by simpa using hlr) huncle
    case right => exact .fresh (by simpa using (Bool.and_comm ..).trans hlr) huncle
  cases h with
  | fresh hn _ => exact hfresh hn _
  | quiet hn =>
    obtain ⟨_, _, _, heq, -⟩ := hn
    cases heq
    exact hfresh (by simp) _
  | lifted hn =>
    generalize direction lessThan item d.key = s at hn ⊢
    cases s <;> exact .quiet hn

theorem Searched.down (hs : Searched lessThan item path) :
    Searched lessThan item (down (direction lessThan item d.key) (node red d l r) path).2 := by
  generalize hside : direction lessThan item d.key = s
  cases s <;> exact List.forall_mem_cons.2 ⟨hside.symm, hs⟩

theorem leftMax_at (h : At n t path) : ∃ m, At m (leftMax t path).1 (leftMax t path).2 := by
  induction t generalizing n path with
  | null => exact ⟨n, h⟩
  | node red d l r _ ihr =>
    cases r with
    | null => exact ⟨n, h⟩
    | node red' d' l' r' =>
      obtain ⟨m, hm⟩ := h.down .right
      exact ihr hm

theorem leftMax_spec (t : Node T W) (path : Path T W) :
    t = null ∧ (leftMax t path).1 = null ∨ ∃ red d l, (leftMax t path).1 = node red d l null := by
  induction t generalizing path with
  | null => exact .inl ⟨rfl, rfl⟩
  | node red d l r _ ihr =>
    cases r with
    | null => exact .inr ⟨red, d, l, rfl⟩
    | node => exact .inr ((ihr _).resolve_left (by simp))

variable [Add W]

theorem split_at (hl : (l.mark false).Levels n) (hr : (r.mark false).Levels n) (hf : Fits path n) (hu : BlackUncle path)
    (hs : Searched lessThan item path) :
    ∃ red' d' l' r' path' m, split (node false d l r) path = .ok (node red' d' l' r', path') ∧ d'.key = d.key ∧
      At m (node red' d' l' r') path' ∧ Searched lessThan item path' ∧
      ∀ s, FromChild lessThan item (node false d l r) ((node red' d' l' r').child s) := by
  have hlb := l.isRed_mark_false
  have hrb := r.isRed_mark_false
  match path with
  | [] =>
    exact ⟨false, d, l.mark false, r.mark false, [], n + 1, rfl, rfl, ⟨⟨hl, hr⟩, trivial, by simp⟩, hs,
      fun s => .inl ⟨s, by cases s <;> rfl⟩⟩
  | ⟨side, false, pd, o⟩ :: up =>
    exact ⟨true, d, l.mark false, r.mark false, _, n, rfl, rfl, ⟨⟨hlb, hrb, hl, hr⟩, hf, by simp⟩, hs,
      fun s => .inl ⟨s, by cases s <;> rfl⟩⟩
  | [⟨side, true, pd, o⟩] => exact absurd hf.2.2.1 (by simp)
  | ⟨side, true, pd, o⟩ :: ⟨side', true, ppd, o'⟩ :: up => exact absurd hf.2.2.1 (by simp)
  | ⟨side, true, pd, o⟩ :: ⟨side', false, ppd, o'⟩ :: up =>
    obtain ⟨ho, hob, -, ho', hf⟩ := hf
    have hob' : o'.isRed = false := hu rfl
    have hsp := hs _ (.head _)
    have hspp := hs _ (.tail _ (.head _))
    have hup : Searched lessThan item up := fun p hp => hs p (.tail _ (.tail _ hp))
    simp only at hsp hspp
    cases side <;> cases side'
    case left.left =>
      exact ⟨_, _, _, _, _, n, rfl, rfl, ⟨⟨hlb, hrb, hl, hr⟩, ⟨⟨hob, hob', ho, ho'⟩, hf⟩, by simp⟩,
        List.forall_mem_cons.2 ⟨hsp, hup⟩, fun s => .inl ⟨s, by cases s <;> rfl⟩⟩
    case right.right =>
      exact ⟨_, _, _, _, _, n, rfl, rfl, ⟨⟨hlb, hrb, hl, hr⟩, ⟨⟨hob', hob, ho', ho⟩, hf⟩, by simp⟩,
        List.forall_mem_cons.2 ⟨hsp, hup⟩, fun s => .inl ⟨s, by cases s <;> rfl⟩⟩
    case right.left =>
      refine ⟨_, _, _, _, _, n + 1, rfl, rfl, ⟨⟨⟨hob, hlb, ho, hl⟩, ⟨hrb, hob', hr, ho'⟩⟩, hf, by simp⟩, hup, ?_⟩
      intro s
      cases s
      case left => exact .inr ⟨_, _, _, .left, rfl, by simp [Item.setSum, ← hsp, child]⟩
      case right => exact .inr ⟨_, _, _, .right, rfl, by simp [Item.setSum, ← hspp, child]⟩
    case left.right =>
      refine ⟨_, _, _, _, _, n + 1, rfl, rfl, ⟨⟨⟨hob', hlb, ho', hl⟩, ⟨hrb, hob, hr, ho⟩⟩, hf, by simp⟩, hup, ?_⟩
      intro s
      cases s
      case left => exact .inr ⟨_, _, _, .left, rfl, by simp [Item.setSum, ← hspp, child]⟩
      case right => exact .inr ⟨_, _, _, .right, rfl, by simp [Item.setSum, ← hsp, child]⟩


structure Descending (lessThan : T → T → Bool) (item : T) (c : Pointer T W) : Prop where
  here : ∃ n, At n c.1 c.2
  searched : Searched lessThan item c.2
  stage : Stage lessThan item c.1 c.2

theorem Descending.turn (h : Descending lessThan item (node red d l r, path)) :
    ∃ c, splitFull (node red d l r) path = .ok c ∧
      Descending lessThan item (down (direction lessThan item d.key) c.1 c.2) := by
  obtain ⟨⟨n, hat⟩, hs, hst⟩ := h
  cases hlr : l.isRed && r.isRed with
  | false => exact ⟨_, if_neg (by simpa [child] using hlr), hat.down _, hs.down, hst.down hlr⟩
  | true =>
    obtain ⟨hl, hr⟩ := Bool.and_eq_true_iff.1 hlr
    obtain rfl : red = false := by
      cases red with
      | false => rfl
      | true => exact absurd hat.levels.1 (by simp [hl])
    have hu : BlackUncle path := by
      cases hst with
      | fresh _ hu => exact hu
      | quiet hn =>
        obtain ⟨_, _, _, heq, hq⟩ := hn
        cases heq
        simp [hlr] at hq
    obtain ⟨m, rfl, hlv, hrv⟩ := hat.levels.black
    have hlb := hlv.mark_black
    have hrb := hrv.mark_black
    rw [hl] at hlb
    rw [hr] at hrb
    obtain ⟨red', d', l', r', path', k, hsplit, hkey, hat', hs', hfrom⟩ := split_at hlb hrb hat.fits hu hs
    refine ⟨_, (if_pos hlr).trans hsplit, ?_⟩
    rw [← hkey]
    refine ⟨hat'.down _, hs'.down, ?_⟩
    rw [down_fst]
    exact (hfrom _).stage (quiet_child hat.levels hl hr) _

/-! ## The whole tree after a call -/

theorem levels_setSum : (setSum t).Levels n ↔ t.Levels n := by
  match t with
  | null => exact Iff.rfl
  | node true d l r => exact Iff.rfl
  | node false d l r => cases n <;> exact Iff.rfl

theorem isRed_setSum : (setSum t).isRed = t.isRed := by cases t <;> rfl

theorem setSum_at (h : At n t path) : At n (setSum t) path :=
  ⟨levels_setSum.2 h.levels, h.fits, isRed_setSum (t := t) ▸ h.red⟩

theorem propagateSumsUp_at (h : At n t path) : ∃ m, At m (propagateSumsUp t path) [] := by
  induction path generalizing n t with
  | nil => exact ⟨n, setSum_at h⟩
  | cons p up ih =>
    obtain ⟨m, hm⟩ := (setSum_at h).fill
    exact ih hm

theorem levels_of_propagateSumsUp (h : (propagateSumsUp t path).Levels n) : ∃ m, t.Levels m := by
  induction path generalizing t with
  | nil => exact ⟨n, levels_setSum.1 h⟩
  | cons p up ih =>
    obtain ⟨m, hm⟩ := ih h
    obtain ⟨k, hk, -⟩ := RBFrame.levels_fill hm
    exact ⟨k, levels_setSum.1 hk⟩

theorem lengthen_red (h : t.isRed) : lengthen t path = (t.mark false, path) := by
  rw [lengthen.eq_def, if_pos h]

theorem sumsAbove_at {c : Pointer T W} (h : At n c.1 c.2) : ∃ m, At m (sumsAbove c) [] := by
  obtain ⟨t, path⟩ := c
  cases path with
  | nil => exact ⟨n, h⟩
  | cons p up =>
    obtain ⟨m, hm⟩ := h.fill
    exact propagateSumsUp_at hm

variable [DecidableEq T]

theorem descend_at {c : Pointer T W} (h : Descending lessThan item c) :
    descend lessThan item c = .error .assertion ∨
      ∃ path, descend lessThan item c = .ok path ∧ Descending lessThan item (null, path) := by
  induction c using @descend.induct T W _ lessThan _ item with
  | case1 path => exact .inr ⟨path, by rw [descend], h⟩
  | case2 red d l r path stop heq =>
    obtain ⟨c, hc, -⟩ := h.turn
    simp [hc] at heq
  | case3 red d l r path c heq hkey =>
    left
    rw [descend]
    split <;> simp_all
  | case4 red d l r path c heq hkey ih =>
    obtain ⟨c', hc, hnext⟩ := h.turn
    obtain rfl : c = c' := by simpa [heq] using hc
    have hstep : descend lessThan item (node red d l r, path) =
        descend lessThan item (down (direction lessThan item d.key) c.1 c.2) := by
      rw [descend]
      split <;> simp_all
    rw [hstep]
    exact ih hnext

theorem insert_at [Zero W] {weight : W} (h : At n root []) :
    insert lessThan item weight root = .error .assertion ∨
      ∃ t m, insert lessThan item weight root = .ok t ∧ At m t [] := by
  have hstart : Descending lessThan item (root, []) := ⟨⟨n, h⟩, by simp [Searched], .fresh (by simp) trivial⟩
  obtain herr | ⟨path, hok, ⟨k, hat⟩, hs, hst⟩ := descend_at hstart
  · exact .inl (by rw [insert, herr]; rfl)
  · right
    obtain rfl : k = 0 := by simpa using hat.levels
    have hu : BlackUncle path := by
      cases hst with
      | fresh _ hu => exact hu
      | quiet hn => simp [Quiet] at hn
    cases path with
    | nil =>
      have hnew : At 1 (node false (⟨item, weight, 0⟩ : Item T W) null null) [] := ⟨⟨rfl, rfl⟩, trivial, by simp⟩
      obtain ⟨m, hm⟩ := propagateSumsUp_at hnew
      exact ⟨_, m, by rw [insert, hok]; rfl, hm⟩
    | cons p up =>
      obtain ⟨red', d', l', r', path', m, hsplit, -, hat', -⟩ :=
        split_at (d := ⟨item, weight, 0⟩) (l := null) (r := null) rfl rfl hat.fits hu hs
      obtain ⟨m, hm⟩ := propagateSumsUp_at hat'
      refine ⟨_, m, ?_, hm⟩
      rw [insert, hok]
      simp only [bind, Except.bind, List.isEmpty_cons, Bool.false_eq_true, if_false, hsplit]
      rfl

omit [Add W] in
theorem lookup_at (lessThan : T → T → Bool) (item : T) (h : At n t path) :
    ∃ m, At m (lookup lessThan item t path).1 (lookup lessThan item t path).2 := by
  induction t generalizing n path with
  | null => exact ⟨n, h⟩
  | node red d l r ihl ihr =>
    unfold lookup
    split
    · exact ⟨n, h⟩
    · split
      · obtain ⟨m, hm⟩ := h.down .left
        exact ihl hm
      · obtain ⟨m, hm⟩ := h.down .right
        exact ihr hm

omit [Add W] in
theorem unlinked_at (lessThan : T → T → Bool) (item : T) (h : At n root []) :
    (∃ m, At m (unlinked lessThan item root).1 (unlinked lessThan item root).2) ∧
      ∀ red d l r, (unlinked lessThan item root).1 = node red d l r → l = null ∨ r = null := by
  obtain ⟨m, hm⟩ := lookup_at lessThan item h
  unfold unlinked
  split
  · next red d l r path heq =>
    rw [heq] at hm
    split
    · next hl =>
      refine ⟨⟨m, hm⟩, fun _ _ _ _ h => ?_⟩
      cases h
      obtain ⟨hnull, -⟩ | ⟨_, _, _, hnode⟩ := leftMax_spec l []
      · exact .inl hnull
      · simp [hl] at hnode
    · next e _ _ _ hl =>
      have hdata : At m (node red { d with key := e.key, weight := e.weight } l r) path := hm.data
      obtain ⟨k, hk⟩ := hdata.down .left
      refine ⟨leftMax_at hk, fun _ _ _ _ h => ?_⟩
      obtain ⟨-, hnull⟩ | ⟨_, _, _, hnode⟩ := leftMax_spec l _
      · rw [hnull] at h
        cases h
      · rw [hnode] at h
        cases h
        exact .inr rfl
  · next hc =>
    exact ⟨⟨m, hm⟩, fun red d l r h => (hc red d l r _ (Prod.ext h rfl)).elim⟩

/-- The cursor is not on a black node without children that has a parent. -/
def Mendable (c : Pointer T W) : Prop := ∀ d p up, c ≠ (node false d null null, p :: up)

theorem remove_at (h : At n root []) (hc : Mendable (unlinked lessThan item root)) :
    remove lessThan item root = .error .assertion ∨
      ∃ t m, remove lessThan item root = .ok t ∧ At m t [] := by
  obtain ⟨⟨k, hk⟩, hnull⟩ := unlinked_at lessThan item h
  unfold remove
  generalize unlinked lessThan item root = c at hk hnull hc
  obtain ⟨_ | ⟨_ | _, d, l, r⟩, path⟩ := c
  · exact .inl rfl
  · -- a black node has at most one child, which is red, and `lengthen` makes it black
    right
    obtain ⟨k, rfl, hl, hr⟩ := hk.levels.black
    obtain rfl : k = 0 := by
      obtain rfl | rfl := hnull _ _ _ _ rfl
      · exact hl
      · exact hr
    have hred {n : Node T W} (hn : n.Levels 0) (h : n.isRed) :
        ∃ m, At m (sumsAbove (lengthen n path)) [] := by
      have hblack := hn.mark_black
      rw [h] at hblack
      rw [lengthen_red h]
      exact sumsAbove_at ⟨hblack, hk.fits, by simp [isRed_mark_false]⟩
    cases hlred : l.isRed with
    | true =>
      obtain ⟨m, hm⟩ := hred hl hlred
      cases l with
      | null => cases hlred
      | node => exact ⟨_, m, rfl, hm⟩
    | false =>
      obtain rfl := hl.eq_null hlred
      cases hrred : r.isRed with
      | true =>
        obtain ⟨m, hm⟩ := hred hr hrred
        cases r with
        | null => cases hrred
        | node => exact ⟨_, m, rfl, hm⟩
      | false =>
        obtain rfl := hr.eq_null hrred
        cases path with
        | nil => exact ⟨null, 0, rfl, rfl, trivial, by simp⟩
        | cons p up => exact absurd rfl (hc d p up)
  · -- a red node has none
    right
    obtain ⟨⟨hlb, hrb, hl, hr⟩, hf, -⟩ := hk
    obtain ⟨rfl, rfl, rfl⟩ : k = 0 ∧ l = null ∧ r = null := by
      obtain rfl | rfl := hnull _ _ _ _ rfl
      · obtain rfl := levels_null.1 hl
        exact ⟨rfl, rfl, hr.eq_null hrb⟩
      · obtain rfl := levels_null.1 hr
        exact ⟨rfl, hl.eq_null hlb, rfl⟩
    obtain ⟨m, hm⟩ := sumsAbove_at (c := (null, path)) ⟨rfl, hf, by simp⟩
    exact ⟨_, m, rfl, hm⟩

theorem remove_broken (h : At n root []) (hc : ¬ Mendable (unlinked lessThan item root)) :
    ∃ t, remove lessThan item root = .ok t ∧ ¬ t.IsRedBlack := by
  obtain ⟨⟨k, hk⟩, -⟩ := unlinked_at lessThan item h
  simp only [Mendable, not_forall, not_not] at hc
  obtain ⟨d, p, up, hc⟩ := hc
  unfold remove
  rw [hc] at hk ⊢
  refine ⟨_, rfl, ?_⟩
  rintro ⟨m, hm⟩
  obtain ⟨m, hm⟩ := levels_of_propagateSumsUp hm
  obtain ⟨i, hnull, ho⟩ := RBFrame.levels_fill hm
  obtain ⟨m, hat⟩ := hk.fill
  obtain ⟨j, hnode, ho'⟩ := RBFrame.levels_fill hat.levels
  obtain rfl := ho.unique ho'
  obtain rfl : i = 0 := hnull
  exact hnode

/-! ## Runs -/

/-- A call returned a red-black tree, or stopped in an assertion: an item inserted twice, or removed without being
in the tree. -/
def KeepsRedBlack : Except Stop (Node T W) → Prop
  | .ok t => t.IsRedBlack
  | .error stop => stop = .assertion

def Call.Mendable (lessThan : T → T → Bool) (root : Node T W) : Call T W → Prop
  | insert .. => True
  | remove item => PDFTree.Mendable (unlinked lessThan item root)

/-- No removal of the run takes out a black node without children, the root apart. -/
def MendableRun [Zero W] (lessThan : T → T → Bool) (calls : List (Call T W)) : Prop :=
  ∀ pre call, pre ++ [call] <+: calls → ∀ t, run lessThan pre = .ok t → call.Mendable lessThan t

variable [Zero W]

theorem run_concat (calls : List (Call T W)) (call : Call T W) :
    run lessThan (calls ++ [call]) = run lessThan calls >>= fun t => call.run lessThan t := by
  simp [run, List.foldlM_append]

theorem Call.run_at {call : Call T W} (hat : At n t []) (hm : call.Mendable lessThan t) :
    call.run lessThan t = .error .assertion ∨ ∃ t' m, call.run lessThan t = .ok t' ∧ At m t' [] := by
  cases call with
  | insert item weight => exact insert_at hat
  | remove item => exact remove_at hat hm

theorem MendableRun.run_at {calls : List (Call T W)} (h : MendableRun lessThan calls) :
    run lessThan calls = .error .assertion ∨ ∃ t n, run lessThan calls = .ok t ∧ At n t [] := by
  induction calls using List.reverseRecOn with
  | nil => exact .inr ⟨null, 0, rfl, rfl, trivial, by simp⟩
  | append_singleton calls call ih =>
    have hcalls : MendableRun lessThan calls := fun pre c hp => h pre c (hp.trans (List.prefix_append ..))
    rw [run_concat]
    obtain herr | ⟨t, n, hok, hat⟩ := ih hcalls
    · exact .inl (by rw [herr]; rfl)
    · rw [hok]
      exact Call.run_at hat (h calls call List.prefix_rfl t hok)

theorem redBlack_iff (lessThan : T → T → Bool) (calls : List (Call T W)) :
    (∀ pre, pre <+: calls → KeepsRedBlack (run lessThan pre)) ↔ MendableRun lessThan calls := by
  constructor
  · intro hkeeps
    induction calls using List.reverseRecOn with
    | nil => exact fun pre call h => absurd h (by simp)
    | append_singleton calls call ih =>
      have hcalls := ih fun pre hp => hkeeps pre (hp.trans (List.prefix_append ..))
      intro pre call' hp t ht
      obtain heq | hp := List.prefix_concat_iff.1 hp
      · obtain ⟨rfl, rfl⟩ := List.append_singleton_inj.1 heq
        obtain herr | ⟨t', n, hok, hat⟩ := hcalls.run_at
        · cases ht.symm.trans herr
        · cases ht.symm.trans hok
          -- were the node not mendable, the last call would leave a tree that is not red-black
          cases call' with
          | insert item weight => trivial
          | remove item =>
            by_contra hm
            obtain ⟨t', hrem, hbroken⟩ := remove_broken hat hm
            have hk := hkeeps _ List.prefix_rfl
            rw [run_concat, ht] at hk
            change KeepsRedBlack (remove lessThan item t) at hk
            rw [hrem] at hk
            exact hbroken hk
      · exact hcalls pre call' hp t ht
  · intro hm pre hp
    have hpre : MendableRun lessThan pre := fun p c h => hm p c (h.trans hp)
    obtain herr | ⟨t, n, hok, hat⟩ := hpre.run_at
    · rw [herr]
      rfl
    · rw [hok]
      exact ⟨n, hat.levels⟩

/-- Four items in ascending order: the tree has the root 2 with the black children 1 and 3, and 4 red below 3. -/
theorem redBlack_lost : ∃ t : RBTree (Item Nat Nat),
    run Nat.blt [.insert 1 1, .insert 2 1, .insert 3 1, .insert 4 1, .remove 1] = .ok t ∧ ¬ t.IsRedBlack := by
  refine ⟨_, by simp [run, Call.run, insert, descend, splitFull, child, direction, split, blackenChildren, mark,
    rotate, RBFrame.fill, down, remove, unlinked, lookup, leftMax, sumsAbove, isNull, isRed, propagateSumsUp, setSum, 
    Item.setSum, addSum, bind, Except.bind, pure, Except.pure, Nat.blt, Nat.ble]; rfl, ?_⟩
  rintro ⟨n, h⟩
  obtain ⟨m, rfl, hnull, hnode⟩ := h.black
  obtain rfl : m = 0 := hnull
  exact hnode

end CgsKlee.PDFTree
