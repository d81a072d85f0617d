import CgsKlee.Lib.RedBlackCursor
import Mathlib.Algebra.Notation.Defs
import Mathlib.Data.List.Basic

/-!
# The weighted tree of `DiscretePDF`

`DiscretePDF` keeps its items in a binary tree of red and black nodes with the sum of the weights below each of
them.  A pointer to a node is a cursor into the tree: the node's subtree and the frames up to the root.  `split`
and `lengthen` leave the cursor on the node they were called for, `rotate` is seen from the parent of the node
that it lifts.
-/

namespace CgsKlee.PDFTree

open RedBlack RedBlack.RBTree

structure Item (T W : Type) where
  key : T
  weight : W
  sumWeights : W

abbrev Node (T W : Type) := RBTree (Item T W)

abbrev Path (T W : Type) := List (RBFrame (Item T W))

abbrev Pointer (T W : Type) := Cursor (Item T W)

inductive Stop
  | assertion
  | nullPointer
  deriving DecidableEq

variable {T W : Type} [Add W]

def addSum (w : W) : Node T W → W
  | null => w
  | node _ d _ _ => w + d.sumWeights

def Item.setSum (d : Item T W) (l r : Node T W) : Item T W :=
  { d with sumWeights := addSum (addSum d.weight l) r }

def setSum : Node T W → Node T W
  | null => null
  | node red d l r => node red (d.setSum l r) l r

/-- `rotate(n)` on the tree at the parent `p` of `n`, for the child `n` on the given side.  The sum of `n` is set
before that of `p`, which is below it by then. -/
def rotate : Side → Node T W → Node T W
  | .left, node pRed pd (node nRed nd l r) o =>
    node nRed (nd.setSum l (node pRed pd r o)) l (node pRed (pd.setSum r o) r o)
  | .right, node pRed pd o (node nRed nd l r) =>
    node nRed (nd.setSum (node pRed pd o l) r) (node pRed (pd.setSum o l) o l) r
  | _, t => t

def blackenChildren : Node T W → Node T W
  | null => null
  | node red d l r => node red d (l.mark false) (r.mark false)

def split (n : Node T W) : Path T W → Except Stop (Pointer T W)
  | [] => .ok (blackenChildren n, [])
  | p :: up =>
    let n := (blackenChildren n).mark true
    if !p.red then .ok (n, p :: up) else
    match up with
    | [] => .error .nullPointer
    | pp :: up =>
      let pp := { pp with red := true }
      if p.side = pp.side then
        down p.side ((rotate pp.side (pp.fill (p.fill n))).mark false) up |> .ok
      else
        ((rotate pp.side (pp.fill (rotate p.side (p.fill n)))).mark false, up) |> .ok

/-- From the tree at a node that was rotated over the cursor's parent, down to the cursor. -/
def descendTwice (s : Side) (t : Node T W) (up : Path T W) : Pointer T W :=
  down s (down s t up).1 (down s t up).2

/-- `lengthen`'s first step: a red sibling changes colours with the parent and is rotated over it. -/
def liftSibling (n : Node T W) (p : RBFrame (Item T W)) (up : Path T W) : Pointer T W :=
  if p.other.isRed then
    descendTwice p.side (rotate p.side.opp ({ p with red := true, other := p.other.mark false }.fill n)) up
  else (n, p :: up)

theorem liftSibling_lt {n : Node T W} {p q : RBFrame (Item T W)} {up rest : Path T W}
    (h : (liftSibling n p up).2 = q :: rest) :
    2 * rest.length + (!q.red).toNat < 2 * (up.length + 1) + 1 := by
  obtain ⟨side, red, d, o⟩ := p
  unfold liftSibling at h
  match side, o with
  | _, null =>
    simp at h
    simp only [← h]
    have := Bool.toNat_le (!red)
    omega
  | _, node false _ _ _ =>
    simp at h
    simp only [← h]
    have := Bool.toNat_le (!red)
    omega
  | .left, node true sd l r =>
    simp [descendTwice, rotate, Side.opp, RBFrame.fill] at h
    simp [← h]
  | .right, node true sd l r =>
    simp [descendTwice, rotate, Side.opp, RBFrame.fill] at h
    simp [← h]

/-- The black nodes below `n` are one too few on each path; the cursor is on `n` again at the end. -/
def lengthen (n : Node T W) (path : Path T W) : Pointer T W :=
  if n.isRed then (n.mark false, path) else
  match path with
  | [] => (n, [])
  | p :: up =>
    match h : (liftSibling n p up).2 with
    | [] => (n, [])
    | p :: up =>
      let sibling := p.other
      if sibling.isNull then
        let c := lengthen (p.fill n) up
        down p.side c.1 c.2
      else if !(sibling.child .left).isRed && !(sibling.child .right).isRed then
        let p := { p with other := sibling.mark true }
        if p.red then (n, { p with red := false } :: up)
        else
          let c := lengthen (p.fill n) up
          down p.side c.1 c.2
      else
        let sibling := if (sibling.child p.side.opp).isRed then sibling
          else (rotate p.side (sibling.mark true)).mark false
        let top := rotate p.side.opp ({ p with other := sibling }.fill n)
        descendTwice p.side (blackenChildren (if p.red then top.mark true else top)) up
termination_by 2 * path.length + (!n.isRed).toNat
decreasing_by all_goals simpa [*] using liftSibling_lt h

def propagateSumsUp (n : Node T W) : Path T W → Node T W
  | [] => setSum n
  | p :: up => propagateSumsUp (p.fill (setSum n)) up

/-- `propagateSumsUp(n->parent)` -/
def sumsAbove : Pointer T W → Node T W
  | (n, []) => n
  | (n, p :: up) => propagateSumsUp (p.fill n) up

theorem reds_rotate {s : Side} {t : Node T W} : (rotate s t).reds = t.reds := by
  unfold rotate
  split <;> simp only [RBTree.reds] <;> omega

theorem isRed_rotate_fill {f : RBFrame (Item T W)} {t : Node T W} (h : t.isRed) :
    (rotate f.side (f.fill t)).isRed := by
  obtain ⟨side, red, d, o⟩ := f
  cases t with
  | null => cases h
  | node red d l r => cases side <;> exact h

theorem reds_rotate_fill {f : RBFrame (Item T W)} {t : Node T W} (h : t.isRed) :
    ((rotate f.side ({ f with red := true }.fill t)).mark false).reds = t.reds + f.other.reds := by
  have hm := reds_mark_false (t := rotate f.side ({ f with red := true }.fill t))
  have hr := isRed_rotate_fill (f := { f with red := true }) h
  simp [hr, reds_rotate, RBFrame.reds_fill] at hm
  omega

theorem split_reds {red : Bool} {d : Item T W} {l r : Node T W} {path : Path T W}
    {c : Pointer T W} (hl : l.isRed) (hr : r.isRed) (h : split (node red d l r) path = .ok c) :
    redCount c < redCount (node red d l r, path) := by
  have hlm := reds_mark_false (t := l)
  have hrm := reds_mark_false (t := r)
  simp only [hl, hr, Bool.toNat_true] at hlm hrm
  unfold split at h
  split at h
  · cases h
    simp [redCount, blackenChildren, RBTree.reds]
    omega
  · next p up =>
    split at h
    · cases h
      simp [redCount, blackenChildren, RBTree.reds]
      omega
    · next hp =>
      simp only [Bool.not_eq_true', Bool.not_eq_false] at hp
      split at h
      · cases h
      · next pp up =>
        dsimp only at h
        split at h
        · cases h
          rw [redCount_down, redCount, reds_rotate_fill (by simpa using hp), RBFrame.reds_fill]
          simp [redCount, blackenChildren, RBTree.reds]
          omega
        · cases h
          rw [redCount, reds_rotate_fill (isRed_rotate_fill rfl), reds_rotate, RBFrame.reds_fill]
          simp [redCount, blackenChildren, RBTree.reds]
          omega

/-- The first step of a turn of `insert`'s loop. -/
def splitFull (n : Node T W) (path : Path T W) : Except Stop (Pointer T W) :=
  if (n.child .left).isRed && (n.child .right).isRed then split n path else .ok (n, path)

variable (lessThan : T → T → Bool)

def direction (item key : T) : Side := if lessThan item key then .left else .right

variable [DecidableEq T]

/-- `insert`'s loop: the missing child at which the item belongs. -/
def descend (item : T) (c : Pointer T W) : Except Stop (Path T W) :=
  match c with
  | (null, path) => .ok path
  | (node red d l r, path) =>
    match _h : splitFull (node red d l r) path with
    | .error stop => .error stop
    | .ok c =>
      if d.key = item then .error .assertion
      else descend item (down (direction lessThan item d.key) c.1 c.2)
termination_by (redCount c, sizeOf c.1)
decreasing_by
  rw [redCount_down]
  unfold splitFull at _h
  split at _h
  · next hlr =>
    rw [Bool.and_eq_true] at hlr
    exact .left _ _ (split_reds hlr.1 hlr.2 _h)
  · obtain rfl : _ = c := by simpa using _h
    refine Prod.Lex.right _ ?_
    cases direction lessThan item d.key <;> simp <;> omega

def insert [Zero W] (item : T) (weight : W) (root : Node T W) : Except Stop (Node T W) := do
  let path ← descend lessThan item (root, [])
  let n := node false ⟨item, weight, 0⟩ null null
  let c ← if path.isEmpty then pure (n, path) else split n path
  return propagateSumsUp c.1 c.2

def lookup (item : T) : Node T W → Path T W → Pointer T W
  | null, path => (null, path)
  | node red d l r, path =>
    if d.key = item then (node red d l r, path)
    else if lessThan item d.key then lookup item l (⟨.left, red, d, r⟩ :: path)
    else lookup item r (⟨.right, red, d, l⟩ :: path)

/-- `while ((*leftMaxp)->right)` -/
def leftMax : Node T W → Path T W → Pointer T W
  | node red d l (node red' d' l' r'), path => leftMax (node red' d' l' r') (⟨.right, red, d, l⟩ :: path)
  | t, path => (t, path)

/-- The node that `remove` takes out of the tree: the item's own when that has no left child, else the greatest
one left of it, whose key and weight the item's node gets. -/
def unlinked (item : T) (root : Node T W) : Pointer T W :=
  match lookup lessThan item root [] with
  | (node red d l r, path) =>
    match leftMax l [] with
    | (null, _) => (node red d l r, path)
    | (node _ m _ _, _) => leftMax l (⟨.left, red, { d with key := m.key, weight := m.weight }, r⟩ :: path)
  | c => c

def remove (item : T) (root : Node T W) : Except Stop (Node T W) :=
  match unlinked lessThan item root with
  | (null, _) => .error .assertion
  | (node red _ l r, path) =>
    let child := if l.isNull then r else l
    .ok (sumsAbove (if !child.isNull && !red then lengthen child path else (child, path)))

inductive Call (T W : Type)
  | insert (item : T) (weight : W)
  | remove (item : T)

def Call.run [Zero W] (root : Node T W) : Call T W → Except Stop (Node T W)
  | insert item weight => PDFTree.insert lessThan item weight root
  | remove item => PDFTree.remove lessThan item root

def run [Zero W] (calls : List (Call T W)) : Except Stop (Node T W) := calls.foldlM (Call.run lessThan) null

end CgsKlee.PDFTree
