import CgsKlee.Core.PTree
import Mathlib.Tactic.Tauto

/-!
# The shape and the tags of a process tree

`Shape` says that the pointers of a process tree are those of a tree: a child points back to its parent, has a larger
number and one place only.  The tag of a node is the tag of the link to it.  `Good` adds what the tags mean: the bit
of a searcher is in the tag of a node iff a state of the searcher is at or below the node.
-/

namespace CgsKlee

open Forest

namespace PTree

def parentOf (t : PTree) (n : Nat) : Option Nat := (t.heap n).bind (·.parent)

variable {n : Nat} {nd pd : PTreeNode} {t t' : PTree}

theorem parentOf_eq (h : t.heap n = some nd) : t.parentOf n = nd.parent := by
  simp [parentOf, h]

theorem heap_of_parentOf {p : Nat} (h : t.parentOf n = some p) :
    ∃ nd, t.heap n = some nd ∧ nd.parent = some p := by
  simpa [parentOf, Option.bind_eq_some_iff] using h

def HasChild (t : PTree) (p c : Nat) : Prop :=
  ∃ nd, t.heap p = some nd ∧ (nd.left.pointer = some c ∨ nd.right.pointer = some c)

structure Shape (t : PTree) : Prop where
  fresh : ∀ n, t.next ≤ n → t.heap n = none
  child : ∀ {p c}, HasChild t p c → t.parentOf c = some p ∧ p < c
  parent : ∀ {n p}, t.parentOf n = some p → HasChild t p n
  sides : ∀ {p nd c}, t.heap p = some nd → nd.left.pointer = some c → nd.right.pointer ≠ some c
  top : ∀ {n nd}, t.heap n = some nd → nd.parent = none → t.root.pointer = some n
  root : ∃ r, t.root.pointer = some r ∧ r < t.next ∧ t.parentOf r = none ∧ (t.heap r = none → t.root.int = 0)
  leaf : ∀ {n nd}, t.heap n = some nd → nd.state ≠ none → nd.left.pointer = none ∧ nd.right.pointer = none
  null : ∀ {n nd}, t.heap n = some nd →
    (nd.left.pointer = none → nd.left.int = 0) ∧ (nd.right.pointer = none → nd.right.int = 0)

/-- What the shape says of a node by itself, under a root. -/
structure Fits (root : Option Nat) (n : Nat) (nd : PTreeNode) : Prop where
  sides : ∀ {c}, nd.left.pointer = some c → nd.right.pointer ≠ some c
  top : nd.parent = none → root = some n
  leaf : nd.state ≠ none → nd.left.pointer = none ∧ nd.right.pointer = none
  null : (nd.left.pointer = none → nd.left.int = 0) ∧ (nd.right.pointer = none → nd.right.int = 0)

theorem Shape.fits (h : Shape t) (hn : t.heap n = some nd) : Fits t.root.pointer n nd :=
  ⟨h.sides hn, h.top hn, h.leaf hn, h.null hn⟩

theorem Shape.of_fits (hfresh : ∀ n, t.next ≤ n → t.heap n = none)
    (hchild : ∀ {p c}, HasChild t p c → t.parentOf c = some p ∧ p < c)
    (hparent : ∀ {n p}, t.parentOf n = some p → HasChild t p n)
    (hroot : ∃ r, t.root.pointer = some r ∧ r < t.next ∧ t.parentOf r = none ∧ (t.heap r = none → t.root.int = 0))
    (hfits : ∀ {n nd}, t.heap n = some nd → Fits t.root.pointer n nd) : Shape t :=
  ⟨hfresh, hchild, hparent, fun hn => (hfits hn).sides, fun hn => (hfits hn).top, hroot, fun hn => (hfits hn).leaf,
    fun hn => (hfits hn).null⟩

def Inner (t : PTree) : Prop :=
  ∀ n nd, t.heap n = some nd → nd.state = none → nd.left.pointer ≠ none ∨ nd.right.pointer ≠ none

def tagOf (t : PTree) (n : Nat) : Tag :=
  match t.heap n with
  | none => 0
  | some nd => (t.currentNodeTag n nd.parent).getD 0

structure SameShape (t t' : PTree) : Prop where
  registeredIds : t'.registeredIds = t.registeredIds
  next : t'.next = t.next
  ptreeNode : t'.ptreeNode = t.ptreeNode
  root : t'.root.pointer = t.root.pointer
  absent : ∀ n, t.heap n = none ↔ t'.heap n = none
  present : ∀ {n nd}, t.heap n = some nd → ∃ nd', t'.heap n = some nd' ∧ nd'.parent = nd.parent ∧
    nd'.left.pointer = nd.left.pointer ∧ nd'.right.pointer = nd.right.pointer ∧ nd'.state = nd.state

theorem SameShape.refl (t : PTree) : SameShape t t :=
  ⟨rfl, rfl, rfl, rfl, fun _ => Iff.rfl, fun h => ⟨_, h, rfl, rfl, rfl, rfl⟩⟩

theorem SameShape.trans {t'' : PTree} (h : SameShape t t') (h' : SameShape t' t'') : SameShape t t'' := by
  refine ⟨h'.registeredIds.trans h.registeredIds, h'.next.trans h.next, h'.ptreeNode.trans h.ptreeNode,
    h'.root.trans h.root, fun n => (h.absent n).trans (h'.absent n), ?_⟩
  intro n nd hn
  obtain ⟨nd', hn', hp, hl, hr, hs⟩ := h.present hn
  obtain ⟨nd'', hn'', hp', hl', hr', hs'⟩ := h'.present hn'
  exact ⟨nd'', hn'', hp'.trans hp, hl'.trans hl, hr'.trans hr, hs'.trans hs⟩

theorem SameShape.parentOf (h : SameShape t t') : t'.parentOf = t.parentOf := by
  funext n
  cases hn : t.heap n with
  | none => simp [PTree.parentOf, hn, (h.absent n).mp hn]
  | some nd =>
    obtain ⟨nd', hn', hp, -⟩ := h.present hn
    simp [PTree.parentOf, hn, hn', hp]

theorem SameShape.hasChild (h : SameShape t t') {p c : Nat} : HasChild t' p c ↔ HasChild t p c := by
  cases hp : t.heap p with
  | none => simp [HasChild, hp, (h.absent p).mp hp]
  | some nd =>
    obtain ⟨nd', hp', -, hl, hr, -⟩ := h.present hp
    simp [HasChild, hp, hp', hl, hr]

theorem Shape.of_sameShape (h : Shape t) (hsame : SameShape t t')
    (hroot : ∀ r, t.root.pointer = some r → t.heap r = none → t'.root.int = 0)
    (hnull : ∀ {n nd}, t'.heap n = some nd →
      (nd.left.pointer = none → nd.left.int = 0) ∧ (nd.right.pointer = none → nd.right.int = 0)) : Shape t' := by
  -- a node of the new tree is one of the old tree with other tags
  have hback : ∀ {n nd'}, t'.heap n = some nd' → ∃ nd, t.heap n = some nd ∧ nd'.parent = nd.parent ∧
      nd'.left.pointer = nd.left.pointer ∧ nd'.right.pointer = nd.right.pointer ∧ nd'.state = nd.state := by
    intro n nd' hn
    cases ht : t.heap n with
    | none =>
      rw [(hsame.absent n).mp ht] at hn
      cases hn
    | some nd =>
      obtain ⟨nd'', hn', hrest⟩ := hsame.present ht
      cases hn.symm.trans hn'
      exact ⟨nd, rfl, hrest⟩
  refine .of_fits ?_ ?_ ?_ ?_ ?_
  · intro n hn
    exact (hsame.absent n).mp (h.fresh n (hsame.next ▸ hn))
  · intro p c hc
    rw [hsame.parentOf]
    exact h.child (hsame.hasChild.mp hc)
  · intro n p hp
    rw [hsame.parentOf] at hp
    exact hsame.hasChild.mpr (h.parent hp)
  · obtain ⟨r, hr, hlt, hpar, -⟩ := h.root
    exact ⟨r, by rw [hsame.root, hr], by rwa [hsame.next], by rw [hsame.parentOf, hpar],
      fun hnone => hroot r hr ((hsame.absent r).mpr hnone)⟩
  · intro n nd' hn
    obtain ⟨nd, hn', hp, hl, hr, hs⟩ := hback hn
    refine ⟨?_, ?_, ?_, hnull hn⟩
    · rw [hl, hr]
      exact h.sides hn'
    · rw [hp, hsame.root]
      exact h.top hn'
    · rw [hl, hr, hs]
      exact h.leaf hn'

/-! ## The link to a node -/

theorem tagOf_root (hn : t.heap n = some nd) (hp : nd.parent = none) :
    t.tagOf n = t.root.int := by
  simp [tagOf, hn, currentNodeTag, hp, childPtr, get]

theorem tagOf_left {p : Nat} (hn : t.heap n = some nd) (hp : nd.parent = some p)
    (hpd : t.heap p = some pd) (hl : pd.left.pointer = some n) : t.tagOf n = pd.left.int := by
  simp [tagOf, hn, currentNodeTag, hp, childPtr, hpd, hl, get]

theorem tagOf_right {p : Nat} (hn : t.heap n = some nd) (hp : nd.parent = some p)
    (hpd : t.heap p = some pd) (hl : pd.left.pointer ≠ some n) : t.tagOf n = pd.right.int := by
  simp [tagOf, hn, currentNodeTag, hp, childPtr, hpd, hl, get]

theorem Shape.slot (h : Shape t) (hn : t.heap n = some nd) :
    ∃ slot link, t.childPtr n nd.parent = some slot ∧ t.get slot = some link ∧ link.pointer = some n ∧
      link.int = t.tagOf n := by
  cases hp : nd.parent with
  | none =>
    exact ⟨.root, t.root, rfl, rfl, h.top hn hp, (tagOf_root hn hp).symm⟩
  | some p =>
    obtain ⟨pd, hpd, hc⟩ := h.parent ((parentOf_eq hn).trans hp)
    by_cases hl : pd.left.pointer = some n
    · exact ⟨.left p, pd.left, by simp [childPtr, hpd, hl], by simp [get, hpd], hl, (tagOf_left hn hp hpd hl).symm⟩
    · exact ⟨.right p, pd.right, by simp [childPtr, hpd, hl], by simp [get, hpd], hc.resolve_left hl,
        (tagOf_right hn hp hpd hl).symm⟩

theorem Shape.tagOf_frame (h : Shape t) {m : Nat} {md md' : PTreeNode} (hm : t.heap m = some md)
    (hm' : t'.heap m = some md') (hpar : md'.parent = md.parent) (hroot : md.parent = none → t'.root.int = t.root.int)
    (hlink : ∀ q qd, md.parent = some q → t.heap q = some qd → ∃ qd', t'.heap q = some qd' ∧
      (qd'.left.pointer = some m ↔ qd.left.pointer = some m) ∧
      (qd.left.pointer = some m → qd'.left.int = qd.left.int) ∧
      (qd.left.pointer ≠ some m → qd'.right.int = qd.right.int)) : t'.tagOf m = t.tagOf m := by
  cases hp : md.parent with
  | none => rw [tagOf_root hm hp, tagOf_root hm' (hpar.trans hp), hroot hp]
  | some q =>
    obtain ⟨qd, hq, -⟩ := h.parent ((parentOf_eq hm).trans hp)
    obtain ⟨qd', hq', hiff, hl, hr⟩ := hlink q qd hp hq
    by_cases hc : qd.left.pointer = some m
    · rw [tagOf_left hm hp hq hc, tagOf_left hm' (hpar.trans hp) hq' (hiff.mpr hc), hl hc]
    · rw [tagOf_right hm hp hq hc, tagOf_right hm' (hpar.trans hp) hq' (fun h => hc (hiff.mp h)), hr hc]

theorem setNode_heap_self (t : PTree) (p : Nat) (pd : PTreeNode) : (t.setNode p pd).heap p = some pd := by
  simp [setNode]

theorem setNode_heap_ne {p : Nat} (pd : PTreeNode) (h : n ≠ p) : (t.setNode p pd).heap n = t.heap n := by
  simp [setNode, Function.update_of_ne h]

theorem sameShape_setNode {p : Nat} {pd' : PTreeNode} (hpd : t.heap p = some pd)
    (hparent : pd'.parent = pd.parent) (hl : pd'.left.pointer = pd.left.pointer)
    (hr : pd'.right.pointer = pd.right.pointer) (hs : pd'.state = pd.state) : SameShape t (t.setNode p pd') := by
  refine ⟨rfl, rfl, rfl, rfl, ?_, ?_⟩
  · intro n
    by_cases hnp : n = p
    · subst hnp
      simp [setNode, hpd]
    · simp [setNode, Function.update_of_ne hnp]
  · intro n nd hn
    by_cases hnp : n = p
    · subst hnp
      cases hpd.symm.trans hn
      exact ⟨pd', by simp [setNode], hparent, hl, hr, hs⟩
    · exact ⟨nd, by simp [setNode, Function.update_of_ne hnp, hn], rfl, rfl, rfl, rfl⟩

theorem Shape.retag (h : Shape t) {p : Nat} (hpd : t.heap p = some pd) (pd' : PTreeNode)
    (hparent : pd'.parent = pd.parent) (hl : pd'.left.pointer = pd.left.pointer)
    (hr : pd'.right.pointer = pd.right.pointer) (hs : pd'.state = pd.state)
    (hnull : (pd'.left.pointer = none → pd'.left.int = 0) ∧ (pd'.right.pointer = none → pd'.right.int = 0)) :
    SameShape t (t.setNode p pd') ∧ Shape (t.setNode p pd') := by
  have hsame := sameShape_setNode hpd hparent hl hr hs
  refine ⟨hsame, h.of_sameShape hsame ?_ ?_⟩
  · intro r hr hnone
    obtain ⟨r', hr', -, -, htag⟩ := h.root
    rw [hr, Option.some.injEq] at hr'
    exact htag (hr' ▸ hnone)
  · intro m md hm
    by_cases hmp : m = p
    · subst hmp
      rw [setNode_heap_self, Option.some.injEq] at hm
      exact hm ▸ hnull
    · rw [setNode_heap_ne _ hmp] at hm
      exact h.null hm

theorem Shape.setTag (h : Shape t) (hn : t.heap n = some nd) {slot : Slot}
    {link : PTreeNodePtr} (hslot : t.childPtr n nd.parent = some slot) (hlink : t.get slot = some link) (tag : Tag) :
    SameShape t (t.set slot { link with int := tag }) ∧ Shape (t.set slot { link with int := tag }) ∧
      (t.set slot { link with int := tag }).tagOf n = tag ∧
      ∀ m md, m ≠ n → t.heap m = some md → (t.set slot { link with int := tag }).tagOf m = t.tagOf m := by
  cases hp : nd.parent with
  | none =>
    rw [hp] at hslot
    obtain rfl : Slot.root = slot := by simpa [childPtr] using hslot
    obtain rfl : t.root = link := by simpa [get] using hlink
    have hsame : SameShape t (t.set .root { t.root with int := tag }) :=
      ⟨rfl, rfl, rfl, rfl, fun _ => Iff.rfl, fun h => ⟨_, h, rfl, rfl, rfl, rfl⟩⟩
    refine ⟨hsame, h.of_sameShape hsame ?_ h.null, tagOf_root hn hp, ?_⟩
    · intro r hr hnone
      rw [h.top hn hp, Option.some.injEq] at hr
      subst hr
      rw [hn] at hnone
      cases hnone
    · intro m md hmn hm
      cases hmp : md.parent with
      | none =>
        have htop := h.top hm hmp
        rw [h.top hn hp, Option.some.injEq] at htop
        exact absurd htop.symm hmn
      | some q =>
        refine h.tagOf_frame hm hm rfl (fun hnone => by rw [hmp] at hnone; cases hnone) ?_
        intro q' qd _ hq
        exact ⟨qd, hq, Iff.rfl, fun _ => rfl, fun _ => rfl⟩
  | some p =>
    obtain ⟨pd, hpd, hc⟩ := h.parent ((parentOf_eq hn).trans hp)
    have hpn : p < n := (h.child (h.parent ((parentOf_eq hn).trans hp))).2
    rw [hp] at hslot
    by_cases hl : pd.left.pointer = some n
    · obtain rfl : Slot.left p = slot := by simpa [childPtr, hpd, hl] using hslot
      obtain rfl : pd.left = link := by simpa [get, hpd] using hlink
      have heq : t.set (.left p) { pd.left with int := tag } =
          t.setNode p { pd with left := { pd.left with int := tag } } := by simp [set, hpd]
      rw [heq]
      obtain ⟨hsame, hshape⟩ := h.retag hpd { pd with left := { pd.left with int := tag } } rfl rfl rfl rfl
        ⟨fun hnone => absurd (hl.symm.trans hnone) (by simp), (h.null hpd).2⟩
      have hn' := (setNode_heap_ne { pd with left := { pd.left with int := tag } } hpn.ne').trans hn
      refine ⟨hsame, hshape, tagOf_left hn' hp (setNode_heap_self t p _) hl, ?_⟩
      intro m md hmn hm
      obtain ⟨md', hm', hpar, -⟩ := hsame.present hm
      refine h.tagOf_frame hm hm' hpar (fun _ => rfl) ?_
      intro q qd hmq hq
      by_cases hqp : q = p
      · subst hqp
        cases hpd.symm.trans hq
        refine ⟨_, setNode_heap_self t q _, Iff.rfl, fun hm => ?_, fun _ => rfl⟩
        rw [hl, Option.some.injEq] at hm
        exact absurd hm.symm hmn
      · exact ⟨qd, (setNode_heap_ne _ hqp).trans hq, Iff.rfl, fun _ => rfl, fun _ => rfl⟩
    · have hr : pd.right.pointer = some n := hc.resolve_left hl
      obtain rfl : Slot.right p = slot := by simpa [childPtr, hpd, hl] using hslot
      obtain rfl : pd.right = link := by simpa [get, hpd] using hlink
      have heq : t.set (.right p) { pd.right with int := tag } =
          t.setNode p { pd with right := { pd.right with int := tag } } := by simp [set, hpd]
      rw [heq]
      obtain ⟨hsame, hshape⟩ := h.retag hpd { pd with right := { pd.right with int := tag } } rfl rfl rfl rfl
        ⟨(h.null hpd).1, fun hnone => absurd (hr.symm.trans hnone) (by simp)⟩
      have hn' := (setNode_heap_ne { pd with right := { pd.right with int := tag } } hpn.ne').trans hn
      refine ⟨hsame, hshape, tagOf_right hn' hp (setNode_heap_self t p _) hl, ?_⟩
      intro m md hmn hm
      obtain ⟨md', hm', hpar, -⟩ := hsame.present hm
      refine h.tagOf_frame hm hm' hpar (fun _ => rfl) ?_
      intro q qd hmq hq
      by_cases hqp : q = p
      · subst hqp
        cases hpd.symm.trans hq
        refine ⟨_, setNode_heap_self t q _, Iff.rfl, fun _ => rfl, fun hml => ?_⟩
        -- a child of the node that is not the left one is the right one
        obtain ⟨qd, hq, hcm⟩ := h.parent ((parentOf_eq hm).trans hmq)
        cases hpd.symm.trans hq
        have hmr := hcm.resolve_left hml
        rw [hr, Option.some.injEq] at hmr
        exact absurd hmr.symm hmn
      · exact ⟨qd, (setNode_heap_ne _ hqp).trans hq, Iff.rfl, fun _ => rfl, fun _ => rfl⟩

end PTree

end CgsKlee
