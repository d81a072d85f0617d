import Mathlib.Algebra.GroupWithZero.Nat
import Mathlib.Data.Bool.Basic
import Mathlib.Order.Basic
import Mathlib.Tactic.Basic

/-!
# Red-black trees with a cursor

A binary tree whose nodes are red or black, and a cursor into it: the subtree it stands on, with the frames that
lead back to the root, the parent's first.  `At n t path` says that the whole tree is red-black, its root not red,
when the subtree `t` has `n` black levels; it holds after a move up iff it held before, so a change at the cursor
is judged by the subtree and the first frames alone.
-/

namespace CgsKlee.RedBlack

inductive Side
  | left
  | right
  deriving DecidableEq

def Side.opp : Side → Side
  | left => right
  | right => left

inductive RBTree (α : Type)
  | null
  | node (red : Bool) (data : α) (left right : RBTree α)

namespace RBTree

variable {α : Type}

def isNull : RBTree α → Bool
  | null => true
  | node .. => false

def isRed : RBTree α → Bool
  | null => false
  | node red _ _ _ => red

def mark (red : Bool) : RBTree α → RBTree α
  | null => null
  | node _ d l r => node red d l r

def child : Side → RBTree α → RBTree α
  | _, null => null
  | .left, node _ _ l _ => l
  | .right, node _ _ _ r => r

@[simp] theorem isRed_null : (null : RBTree α).isRed = false := rfl

@[simp] theorem isRed_node {red : Bool} {d : α} {l r : RBTree α} : (node red d l r).isRed = red := rfl

@[simp] theorem mark_node {red red' : Bool} {d : α} {l r : RBTree α} :
    (node red' d l r).mark red = node red d l r := rfl

def reds : RBTree α → Nat
  | null => 0
  | node red _ l r => red.toNat + l.reds + r.reds

/-- No red node has a red child, and every path to a missing child has `n` black nodes. -/
def Levels : Nat → RBTree α → Prop
  | n, null => n = 0
  | n, node true _ l r => l.isRed = false ∧ r.isRed = false ∧ l.Levels n ∧ r.Levels n
  | 0, node false _ _ _ => False
  | n + 1, node false _ l r => l.Levels n ∧ r.Levels n

def IsRedBlack (t : RBTree α) : Prop := ∃ n, t.Levels n

variable {l r t : RBTree α} {d : α} {n m : Nat}

theorem reds_mark_false : (t.mark false).reds + t.isRed.toNat = t.reds := by
  cases t with
  | null => rfl
  | node red d l r => simp [mark, reds]; omega

@[simp] theorem levels_null : (null : RBTree α).Levels n ↔ n = 0 := Iff.rfl

@[simp] theorem levels_red : (node true d l r).Levels n ↔
    l.isRed = false ∧ r.isRed = false ∧ l.Levels n ∧ r.Levels n := Iff.rfl

@[simp] theorem levels_black : (node false d l r).Levels (n + 1) ↔ l.Levels n ∧ r.Levels n := Iff.rfl

theorem Levels.black (h : (node false d l r).Levels n) : ∃ m, n = m + 1 ∧ l.Levels m ∧ r.Levels m := by
  cases n with
  | zero => exact h.elim
  | succ m => exact ⟨m, rfl, h⟩

theorem Levels.unique (h : t.Levels n) (h' : t.Levels m) : n = m := by
  induction t generalizing n m with
  | null => simp_all
  | node red d l r ihl _ =>
    cases red with
    | true => exact ihl h.2.2.1 h'.2.2.1
    | false =>
      obtain ⟨n, rfl, hl, -⟩ := h.black
      obtain ⟨m, rfl, hl', -⟩ := h'.black
      rw [ihl hl hl']

theorem Levels.eq_null (h : t.Levels 0) (hr : t.isRed = false) : t = null := by
  match t, h, hr with
  | null, _, _ => rfl
  | node false _ _ _, h, _ => exact h.elim

theorem Levels.mark_black (h : t.Levels n) : (t.mark false).Levels (n + t.isRed.toNat) := by
  match t, h with
  | null, h => simpa [mark] using h
  | node true d l r, h => exact h.2.2
  | node false d l r, h => exact h

theorem isRed_mark_false : (t.mark false).isRed = false := by cases t <;> rfl

end RBTree

open RBTree

/-- A node on the way back to the root: the side the cursor went down on, the node's own colour and data, and
the subtree on the other side. -/
structure RBFrame (α : Type) where
  side : Side
  red : Bool
  data : α
  other : RBTree α

namespace RBFrame

variable {α : Type}

def fill : RBFrame α → RBTree α → RBTree α
  | ⟨.left, red, data, other⟩, t => node red data t other
  | ⟨.right, red, data, other⟩, t => node red data other t

variable {f : RBFrame α} {t : RBTree α} {n : Nat}

@[simp] theorem isRed_fill : (f.fill t).isRed = f.red := by
  obtain ⟨side, red, d, o⟩ := f
  cases side <;> rfl

theorem reds_fill : (f.fill t).reds = f.red.toNat + t.reds + f.other.reds := by
  obtain ⟨side, red, d, o⟩ := f
  cases side <;> simp only [fill, reds]
  omega

theorem levels_fill (h : (f.fill t).Levels n) :
    ∃ m, t.Levels m ∧ f.other.Levels m := by
  obtain ⟨side, red, d, o⟩ := f
  cases red with
  | true => cases side with
    | left => exact ⟨n, h.2.2⟩
    | right => exact ⟨n, h.2.2.symm⟩
  | false => cases side with
    | left => exact h.black.imp fun _ h => h.2
    | right => exact h.black.imp fun _ h => h.2.symm

end RBFrame

abbrev Cursor (α : Type) := RBTree α × List (RBFrame α)

variable {α : Type} {path up : List (RBFrame α)} {f : RBFrame α} {t l r : RBTree α} {d : α} {n m : Nat} {red : Bool}

@[simp] def down : Side → RBTree α → List (RBFrame α) → Cursor α
  | _, null, path => (null, path)
  | .left, node red d l r, path => (l, ⟨.left, red, d, r⟩ :: path)
  | .right, node red d l r, path => (r, ⟨.right, red, d, l⟩ :: path)

theorem down_fst {s : Side} : (down s (node red d l r) path).1 = (node red d l r).child s := by cases s <;> rfl

def redCount (c : Cursor α) : Nat := c.1.reds + (c.2.map fun f => f.red.toNat + f.other.reds).sum

theorem redCount_down {s : Side} : redCount (down s t path) = redCount (t, path) := by
  cases t with
  | null => rfl
  | node red d l r => cases s <;> simp [redCount, RBTree.reds] <;> omega

@[simp] def blackTop : List (RBFrame α) → Bool
  | [] => false
  | f :: _ => !f.red

/-- What the frames of a red-black tree satisfy around a subtree with `n` black levels. -/
def Fits : List (RBFrame α) → Nat → Prop
  | [], _ => True
  | ⟨_, true, _, other⟩ :: up, n => other.Levels n ∧ other.isRed = false ∧ blackTop up ∧ Fits up n
  | ⟨_, false, _, other⟩ :: up, n => other.Levels n ∧ Fits up (n + 1)

structure At (n : Nat) (t : RBTree α) (path : List (RBFrame α)) : Prop where
  levels : t.Levels n
  fits : Fits path n
  red : t.isRed → blackTop path

theorem At.fill (h : At n t (f :: up)) : ∃ m, At m (f.fill t) up := by
  obtain ⟨ht, hf, hr⟩ := h
  obtain ⟨side, red, d, o⟩ := f
  cases red with
  | true =>
    obtain ⟨ho, hor, hup, hf⟩ := hf
    exact ⟨n, by cases side <;> simp_all [RBFrame.fill], hf, fun _ => hup⟩
  | false => exact ⟨n + 1, by cases side <;> simp_all [RBFrame.fill, Fits], hf.2, by simp⟩

theorem At.down (h : At n (node red d l r) path) (s : Side) :
    ∃ m, At m (down s (node red d l r) path).1 (down s (node red d l r) path).2 := by
  obtain ⟨ht, hf, hr⟩ := h
  cases red with
  | true =>
    obtain ⟨hlr, hrr, hl, hr'⟩ := ht
    cases s with
    | left => exact ⟨n, hl, ⟨hr', hrr, hr rfl, hf⟩, by simp [hlr]⟩
    | right => exact ⟨n, hr', ⟨hl, hlr, hr rfl, hf⟩, by simp [hrr]⟩
  | false =>
    obtain ⟨m, rfl, hl, hr'⟩ := ht.black
    cases s with
    | left => exact ⟨m, hl, ⟨hr', hf⟩, by simp⟩
    | right => exact ⟨m, hr', ⟨hl, hf⟩, by simp⟩

theorem At.data {d' : α} (h : At n (node red d l r) path) : At n (node red d' l r) path := by
  obtain ⟨hl, hf, hr⟩ := h
  refine ⟨?_, hf, hr⟩
  cases red with
  | true => exact hl
  | false => cases n <;> exact hl

end CgsKlee.RedBlack
