import CgsKlee.Core.Types
import CgsKlee.Lib.Forest
import Mathlib.Data.Finset.Basic
import Mathlib.Logic.Function.Basic

/-!
# The process tree

The leaves of the process tree are the states of the executor.  A pointer from a node to a child, and the pointer to
the root, has a tag of three bits in it, one for each `RandomPathSearcher`.  A searcher marks with its bit the links
that lead to its states.

Nodes are numbers in the order of their allocation; `heap` has the nodes that are allocated and not deleted.  An
operation returns `none` when it dereferences another pointer or when an assertion fails.  A loop that goes up the
tree gets smaller numbers in every round, which is its fuel.
-/

namespace CgsKlee

def ptrBitCount : Nat := 3

abbrev Tag := BitVec ptrBitCount

structure PTreeNodePtr where
  pointer : Option Nat := none
  int : Tag := 0
  deriving DecidableEq

structure PTreeNode where
  parent : Option Nat
  left : PTreeNodePtr := {}
  right : PTreeNodePtr := {}
  state : Option StateId
  deriving DecidableEq

/-- A `PTree` and the field `ptreeNode` of the execution states; `next` is the next node to be allocated. -/
structure PTree where
  registeredIds : Nat
  root : PTreeNodePtr
  heap : Nat → Option PTreeNode
  next : Nat
  ptreeNode : StateId → Option Nat

namespace PTree

def init (initialState : StateId) : PTree where
  registeredIds := 0
  root := { pointer := some 0 }
  heap := Function.update (fun _ => none) 0 (some { parent := none, state := some initialState })
  next := 1
  ptreeNode := Function.update (fun _ => none) initialState (some 0)

/-- `getNextId`; `none` is the error about too many searchers. -/
def getNextId (t : PTree) : Option (Tag × PTree) :=
  if ptrBitCount < t.registeredIds + 1 then none
  else some (1 <<< t.registeredIds, { t with registeredIds := t.registeredIds + 1 })

def setNode (t : PTree) (n : Nat) (node : PTreeNode) : PTree := { t with heap := Function.update t.heap n (some node) }

def deleteNode (t : PTree) (n : Nat) : PTree := { t with heap := Function.update t.heap n none }

/-- Where a link is kept. -/
inductive Slot
  | root
  | left (p : Nat)
  | right (p : Nat)
  deriving DecidableEq

def get (t : PTree) : Slot → Option PTreeNodePtr
  | .root => some t.root
  | .left p => (t.heap p).map (·.left)
  | .right p => (t.heap p).map (·.right)

def set (t : PTree) (slot : Slot) (link : PTreeNodePtr) : PTree :=
  match slot with
  | .root => { t with root := link }
  | .left p =>
    match t.heap p with
    | none => t
    | some node => t.setNode p { node with left := link }
  | .right p =>
    match t.heap p with
    | none => t
    | some node => t.setNode p { node with right := link }

/-- `parent ? (parent->left.getPointer() == pnode ? &parent->left : &parent->right) : &root` -/
def childPtr (t : PTree) (pnode : Nat) (parent : Option Nat) : Option Slot :=
  match parent with
  | none => some .root
  | some p => (t.heap p).map fun node => if node.left.pointer = some pnode then .left p else .right p

/-! ## `PTree` -/

def newNode (t : PTree) (parent : Nat) (state : StateId) : Nat × PTree :=
  (t.next, { t.setNode t.next { parent := some parent, state := some state } with
    next := t.next + 1
    ptreeNode := Function.update t.ptreeNode state (some t.next) })

def currentNodeTag (t : PTree) (node : Nat) (parent : Option Nat) : Option Tag := do
  let slot ← t.childPtr node parent
  let link ← t.get slot
  return link.int

def attach (t : PTree) (node : Nat) (leftState rightState : StateId) : Option PTree := do
  let n ← t.heap node
  if n.left.pointer.isSome ∨ n.right.pointer.isSome ∨ t.ptreeNode rightState ≠ some node then none
  else
    let t := t.setNode node { n with state := none }
    let (a, t) := t.newNode node leftState
    let t := t.set (.left node) { pointer := some a }
    let tag ← t.currentNodeTag node n.parent
    let (b, t) := t.newNode node rightState
    return t.set (.right node) { pointer := some b, int := tag }

/-- The loop of `remove`: deletes the node and its ancestors as long as they have no children; the node at which it
stops, if it stops below the root's parent. -/
def prune (t : PTree) : Nat → Nat → Option (PTree × Option Nat)
  | 0, _ => none
  | fuel + 1, n => do
    let node ← t.heap n
    match node.parent with
    | none => return (t.deleteNode n, none)
    | some p =>
      let parent ← t.heap p
      if parent.left.pointer = some n then
        let t := (t.set (.left p) {}).deleteNode n
        if parent.right.pointer = none then prune t fuel p else return (t, some p)
      else if parent.right.pointer = some n then
        let t := (t.set (.right p) {}).deleteNode n
        if parent.left.pointer = none then prune t fuel p else return (t, some p)
      else none

/-- The end of `remove` with `CompressProcessTree`: `n` has one child, which takes its place. -/
def compress (t : PTree) (n : Nat) : Option PTree := do
  let node ← t.heap n
  let child := if node.left.pointer.isSome then node.left else node.right
  let c ← child.pointer
  let childNode ← t.heap c
  let t := t.setNode c { childNode with parent := node.parent }
  match node.parent with
  | none => return (t.set .root child).deleteNode n
  | some p =>
    let parent ← t.heap p
    if parent.left.pointer = some n then return (t.set (.left p) child).deleteNode n
    else if parent.right.pointer = some n then return (t.set (.right p) child).deleteNode n
    else none

def remove (compressProcessTree : Bool) (t : PTree) (n : Nat) : Option PTree := do
  let node ← t.heap n
  if node.left.pointer.isSome ∨ node.right.pointer.isSome then none
  else
    let (t, stop) ← t.prune (n + 1) n
    match stop with
    | none => return t
    | some p => if compressProcessTree then t.compress p else return t

/-! ## `RandomPathSearcher` -/

def isOurNodeValid (idBitMask : Tag) (link : PTreeNodePtr) : Bool :=
  link.pointer.isSome && link.int &&& idBitMask != 0

def insertUp (idBitMask : Tag) : Nat → PTree → Nat → Option PTree
  | 0, _, _ => none
  | fuel + 1, t, pnode => do
    let node ← t.heap pnode
    let slot ← t.childPtr pnode node.parent
    let link ← t.get slot
    if isOurNodeValid idBitMask link then return t
    else
      let t := t.set slot { link with int := link.int ||| idBitMask }
      match node.parent with
      | none => return t
      | some p => insertUp idBitMask fuel t p

def removeUp (idBitMask : Tag) : Nat → PTree → Nat → Option PTree
  | 0, _, _ => none
  | fuel + 1, t, pnode => do
    let node ← t.heap pnode
    if isOurNodeValid idBitMask node.left ∨ isOurNodeValid idBitMask node.right then return t
    else
      let slot ← t.childPtr pnode node.parent
      let link ← t.get slot
      if !isOurNodeValid idBitMask link then none
      else
        let t := t.set slot { link with int := link.int &&& ~~~idBitMask }
        match node.parent with
        | none => return t
        | some p => removeUp idBitMask fuel t p

def insertState (idBitMask : Tag) (t : PTree) (es : StateId) : Option PTree := do
  let pnode ← t.ptreeNode es
  insertUp idBitMask (pnode + 1) t pnode

def removeState (idBitMask : Tag) (t : PTree) (es : StateId) : Option PTree := do
  let pnode ← t.ptreeNode es
  removeUp idBitMask (pnode + 1) t pnode

def update (idBitMask : Tag) (t : PTree) (addedStates removedStates : List StateId) : Option PTree := do
  let t ← addedStates.foldlM (insertState idBitMask) t
  removedStates.foldlM (removeState idBitMask) t

def empty (idBitMask : Tag) (t : PTree) : Bool := !isOurNodeValid idBitMask t.root

/-- The walk of `selectState`: `flips` has `bits` unused bits, and `rng` are the numbers still to be drawn.  A child
has a larger number than its parent, so that `next` is enough fuel. -/
def selectWalk (idBitMask : Tag) (t : PTree) (rng : Nat → BitVec 32) : Nat → Nat → BitVec 32 → Nat → Nat → Option StateId
  | 0, _, _, _, _ => none
  | fuel + 1, n, flips, bits, drawn => do
    let node ← t.heap n
    match node.state with
    | some state => return state
    | none =>
      if !isOurNodeValid idBitMask node.left then
        if !isOurNodeValid idBitMask node.right then none
        else
          let m ← node.right.pointer
          selectWalk idBitMask t rng fuel m flips bits drawn
      else if !isOurNodeValid idBitMask node.right then
        let m ← node.left.pointer
        selectWalk idBitMask t rng fuel m flips bits drawn
      else
        let (flips, bits, drawn) := if bits = 0 then (rng drawn, 32, drawn + 1) else (flips, bits, drawn)
        let bits := bits - 1
        let m ← (if flips.getLsbD bits then node.left else node.right).pointer
        selectWalk idBitMask t rng fuel m flips bits drawn

def selectState (idBitMask : Tag) (t : PTree) (rng : Nat → BitVec 32) : Option StateId :=
  if t.root.int &&& idBitMask = 0 then none
  else
    match t.root.pointer with
    | none => none
    | some n => selectWalk idBitMask t rng (t.next + 1) n 0 0 0

end PTree

/-! ## Histories -/

/-- The process tree and, for each searcher, the states that were added to it and not yet removed from it. -/
structure Process where
  tree : PTree
  owned : Fin ptrBitCount → Finset StateId

namespace Process

/-- What happens to the process tree.  `terminate` is the removal of a state from the tree, either in `updateStates` or
for a state that no searcher has seen. -/
inductive Event
  | newSearcher
  | attach (current added : StateId)
  | update (searcher : Fin ptrBitCount) (addedStates removedStates : List StateId)
  | terminate (state : StateId)

/-- `idBitMask` of a searcher. -/
def mask (i : Fin ptrBitCount) : Tag := 1 <<< i.val

def init (initialState : StateId) : Process := ⟨.init initialState, fun _ => ∅⟩

def step (compressProcessTree : Bool) (s : Process) : Event → Option Process
  | .newSearcher => s.tree.getNextId.map fun (_, t) => { s with tree := t }
  | .attach current added => do
    let node ← s.tree.ptreeNode current
    let t ← s.tree.attach node added current
    return { s with tree := t }
  | .update i addedStates removedStates => do
    let t ← s.tree.update (mask i) addedStates removedStates
    return ⟨t, Function.update s.owned i ((s.owned i ∪ addedStates.toFinset) \ removedStates.toFinset)⟩
  | .terminate state => do
    let node ← s.tree.ptreeNode state
    let t ← s.tree.remove compressProcessTree node
    -- the state itself is deleted
    return { s with tree := { t with ptreeNode := Function.update t.ptreeNode state none } }

def Live (s : Process) (state : StateId) : Prop := (s.tree.ptreeNode state).isSome

/-- How the executor uses the tree: a new state is attached to a live one, a searcher is given live states and takes
back states that it has, and a state is removed from the tree when no searcher has it any more. -/
def Allowed (s : Process) : Event → Prop
  | .newSearcher => s.tree.registeredIds < ptrBitCount
  | .attach current added => s.Live current ∧ ¬s.Live added
  | .update i addedStates removedStates => i.val < s.tree.registeredIds ∧ (∀ es ∈ addedStates, s.Live es) ∧
      removedStates.Nodup ∧ ∀ es ∈ removedStates, es ∈ s.owned i ∪ addedStates.toFinset
  | .terminate state => s.Live state ∧ ∀ i, state ∉ s.owned i

inductive Reachable (compressProcessTree : Bool) (initialState : StateId) : Process → Prop
  | start : Reachable compressProcessTree initialState (init initialState)
  | step {s s' : Process} {e : Event} (h : Reachable compressProcessTree initialState s) (hok : s.Allowed e)
      (hstep : s.step compressProcessTree e = some s') : Reachable compressProcessTree initialState s'

end Process

end CgsKlee
