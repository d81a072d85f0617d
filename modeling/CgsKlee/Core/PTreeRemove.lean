import CgsKlee.Core.PTreeAttach

/-!
# Removing a state from the process tree

`PTree::remove` deletes a leaf and the nodes above it that have no other child.  With `CompressProcessTree` the node
at which it stops, which is left with one child, is taken out and the child put in its place, together with the tag of
the link to it.
-/

namespace CgsKlee

open Forest

namespace PTree

variable {t : PTree} {f : StateId → Option Nat} {owned : Fin ptrBitCount → Finset StateId} {own : Finset StateId}

/-! ## Deleting a leaf -/

theorem deleteNode_heap_self (t : PTree) (n : Nat) : (t.deleteNode n).heap n = none := by
  simp [deleteNode]

theorem deleteNode_heap_ne {m n : Nat} (h : m ≠ n) : (t.deleteNode n).heap m = t.heap m := by
  simp [deleteNode, Function.update_of_ne h]

/-- `pd'` is the node `pd` with its link to `n` set to null. -/
def Unlinked (pd pd' : PTreeNode) (n : Nat) : Prop :=
  pd'.parent = pd.parent ∧ pd'.state = pd.state ∧
    (pd.left.pointer = some n ∧ pd'.left = {} ∧ pd'.right = pd.right ∨
      pd.left.pointer ≠ some n ∧ pd.right.pointer = some n ∧ pd'.left = pd.left ∧ pd'.right = {})

section DeleteLeaf

variable {n p : Nat} {nd pd pd' : PTreeNode}

theorem unlinked_heap (hpn : p < n) {m : Nat} {md : PTreeNode}
    (hm : ((t.setNode p pd').deleteNode n).heap m = some md) :
    m ≠ n ∧ (m = p ∧ md = pd' ∨ m ≠ p ∧ t.heap m = some md) := by
  have hmn : m ≠ n := by
    rintro rfl
    rw [deleteNode_heap_self] at hm
    cases hm
  rw [deleteNode_heap_ne hmn] at hm
  by_cases hmp : m = p
  · subst hmp
    rw [setNode_heap_self, Option.some.injEq] at hm
    exact ⟨hmn, .inl ⟨rfl, hm.symm⟩⟩
  · rw [setNode_heap_ne _ hmp] at hm
    exact ⟨hmn, .inr ⟨hmp, hm⟩⟩

theorem unlinked_heap_parent (hpn : p < n) : ((t.setNode p pd').deleteNode n).heap p = some pd' := by
  rw [deleteNode_heap_ne hpn.ne, setNode_heap_self]

theorem unlinked_heap_ne {m : Nat} (hmn : m ≠ n) (hmp : m ≠ p) :
    ((t.setNode p pd').deleteNode n).heap m = t.heap m := by
  rw [deleteNode_heap_ne hmn, setNode_heap_ne _ hmp]

theorem unlinked_parentOf (hpd : t.heap p = some pd) (hun : Unlinked pd pd' n) (hpn : p < n) {m : Nat} (hmn : m ≠ n) :
    ((t.setNode p pd').deleteNode n).parentOf m = t.parentOf m := by
  by_cases hmp : m = p
  · subst hmp
    rw [parentOf_eq (unlinked_heap_parent hpn), parentOf_eq hpd, hun.1]
  · rw [parentOf, parentOf, unlinked_heap_ne hmn hmp]

theorem unlinked_link (h : Shape t) (hpd : t.heap p = some pd) (hun : Unlinked pd pd' n) (c : Nat) :
    (pd'.left.pointer = some c ↔ pd.left.pointer = some c ∧ c ≠ n) ∧
      (pd'.right.pointer = some c ↔ pd.right.pointer = some c ∧ c ≠ n) := by
  obtain ⟨-, -, ⟨hl, hl', hr'⟩ | ⟨hl, hr, hl', hr'⟩⟩ := hun
  · rw [hl', hr', hl]
    refine ⟨by simp [eq_comm], ?_⟩
    constructor
    · intro hc
      refine ⟨hc, ?_⟩
      rintro rfl
      exact h.sides hpd hl hc
    · exact And.left
  · rw [hl', hr', hr]
    refine ⟨?_, by simp [eq_comm]⟩
    constructor
    · intro hc
      refine ⟨hc, ?_⟩
      rintro rfl
      exact hl hc
    · exact And.left

theorem unlinked_hasChild (h : Shape t) (hn : t.heap n = some nd) (hnl : nd.left.pointer = none)
    (hnr : nd.right.pointer = none) (hp : nd.parent = some p) (hpd : t.heap p = some pd) (hun : Unlinked pd pd' n)
    (hpn : p < n) {q c : Nat} :
    HasChild ((t.setNode p pd').deleteNode n) q c ↔ HasChild t q c ∧ c ≠ n := by
  constructor
  · rintro ⟨qd, hqd, hc⟩
    obtain ⟨-, ⟨rfl, rfl⟩ | ⟨hqp, hqd'⟩⟩ := unlinked_heap hpn hqd
    · obtain ⟨hl, hr⟩ := unlinked_link h hpd hun c
      rw [hl, hr] at hc
      obtain ⟨hc, hcn⟩ | ⟨hc, hcn⟩ := hc
      · exact ⟨⟨pd, hpd, .inl hc⟩, hcn⟩
      · exact ⟨⟨pd, hpd, .inr hc⟩, hcn⟩
    · refine ⟨⟨qd, hqd', hc⟩, ?_⟩
      rintro rfl
      -- the node has one parent only
      have hpar := (h.child ⟨qd, hqd', hc⟩).1
      rw [parentOf_eq hn, hp, Option.some.injEq] at hpar
      exact hqp hpar.symm
  · rintro ⟨⟨qd, hqd, hc⟩, hcn⟩
    have hqn : q ≠ n := by
      rintro rfl
      exact h.no_child hn hnl hnr c (h.child ⟨qd, hqd, hc⟩).1
    by_cases hqp : q = p
    · subst hqp
      cases hpd.symm.trans hqd
      obtain ⟨hl, hr⟩ := unlinked_link h hpd hun c
      exact ⟨pd', unlinked_heap_parent hpn, hc.imp (fun hc => hl.mpr ⟨hc, hcn⟩) (fun hc => hr.mpr ⟨hc, hcn⟩)⟩
    · exact ⟨qd, (unlinked_heap_ne hqn hqp).trans hqd, hc⟩

theorem Shape.unlinked (h : Shape t) (hn : t.heap n = some nd) (hnl : nd.left.pointer = none)
    (hnr : nd.right.pointer = none) (hp : nd.parent = some p) (hpd : t.heap p = some pd) (hun : Unlinked pd pd' n) :
    Shape ((t.setNode p pd').deleteNode n) := by
  have hpn : p < n := (h.child (h.parent ((parentOf_eq hn).trans hp))).2
  have hparent : ∀ {m}, m ≠ n → ((t.setNode p pd').deleteNode n).parentOf m = t.parentOf m :=
    unlinked_parentOf hpd hun hpn
  have hchild : ∀ {q c}, HasChild ((t.setNode p pd').deleteNode n) q c ↔ HasChild t q c ∧ c ≠ n :=
    unlinked_hasChild h hn hnl hnr hp hpd hun hpn
  refine .of_fits ?_ ?_ ?_ ?_ ?_
  · intro m hm
    have hm : t.next ≤ m := hm
    have hmn : m ≠ n := by
      have := h.lt_next hn
      omega
    have hmp : m ≠ p := by
      have := h.lt_next hpd
      omega
    rw [unlinked_heap_ne hmn hmp, h.fresh m hm]
  · intro q c hc
    obtain ⟨hc, hcn⟩ := hchild.mp hc
    rw [hparent hcn]
    exact h.child hc
  · intro m q hq
    have hmn : m ≠ n := by
      rintro rfl
      simp [parentOf, deleteNode_heap_self] at hq
    rw [hparent hmn] at hq
    exact hchild.mpr ⟨h.parent hq, hmn⟩
  · obtain ⟨r, hr, hrt, hpar, htag⟩ := h.root
    have hrn : r ≠ n := by
      rintro rfl
      rw [parentOf_eq hn, hp] at hpar
      cases hpar
    refine ⟨r, hr, hrt, by rw [hparent hrn, hpar], ?_⟩
    intro hnone
    by_cases hrp : r = p
    · subst hrp
      rw [unlinked_heap_parent hpn] at hnone
      cases hnone
    · exact htag ((unlinked_heap_ne hrn hrp).symm.trans hnone)
  · intro m md hmd
    obtain ⟨-, ⟨rfl, rfl⟩ | ⟨-, hmd'⟩⟩ := unlinked_heap hpn hmd
    · refine ⟨fun {c} hc hrc => ?_, fun hmp => h.top hpd (hun.1 ▸ hmp), fun hst => ?_, ?_⟩
      · obtain ⟨hl, hr⟩ := unlinked_link h hpd hun c
        exact h.sides hpd (hl.mp hc).1 (hr.mp hrc).1
      · obtain ⟨hl, hr⟩ := h.leaf hpd (hun.2.1 ▸ hst)
        obtain ⟨-, -, ⟨hl', -⟩ | ⟨-, hr', -⟩⟩ := hun
        · cases hl.symm.trans hl'
        · cases hr.symm.trans hr'
      · obtain ⟨-, -, ⟨-, hl', hr'⟩ | ⟨-, -, hl', hr'⟩⟩ := hun
        · rw [hl', hr']
          exact ⟨fun _ => rfl, (h.null hpd).2⟩
        · rw [hl', hr']
          exact ⟨(h.null hpd).1, fun _ => rfl⟩
    · exact h.fits hmd'

theorem unlinked_tagOf (h : Shape t) (hleaf : ∀ x, t.parentOf x ≠ some n) (hpd : t.heap p = some pd)
    (hun : Unlinked pd pd' n) (hpn : p < n) {m : Nat} {md : PTreeNode} (hmn : m ≠ n) (hmd : t.heap m = some md) :
    ((t.setNode p pd').deleteNode n).tagOf m = t.tagOf m := by
  obtain ⟨md', hmd', hpar⟩ : ∃ md', ((t.setNode p pd').deleteNode n).heap m = some md' ∧ md'.parent = md.parent := by
    by_cases hmp : m = p
    · subst hmp
      rw [hpd, Option.some.injEq] at hmd
      exact ⟨pd', unlinked_heap_parent hpn, hmd ▸ hun.1⟩
    · exact ⟨md, (unlinked_heap_ne hmn hmp).trans hmd, rfl⟩
  refine h.tagOf_frame hmd hmd' hpar (fun _ => rfl) ?_
  intro q qd hmq hqd
  by_cases hqp : q = p
  · subst hqp
    cases hpd.symm.trans hqd
    refine ⟨pd', unlinked_heap_parent hpn, ?_, ?_, ?_⟩
    · rw [(unlinked_link h hpd hun m).1]
      simp [hmn]
    · intro hl
      obtain ⟨-, -, ⟨hl', -⟩ | ⟨-, -, hl', -⟩⟩ := hun
      · rw [hl', Option.some.injEq] at hl
        exact absurd hl.symm hmn
      · rw [hl']
    · intro hl
      obtain ⟨-, -, ⟨-, -, hr'⟩ | ⟨-, hr, -⟩⟩ := hun
      · rw [hr']
      · -- a child that is not the left one is the right one, which is deleted
        obtain ⟨qd, hqd, hc⟩ := h.parent ((parentOf_eq hmd).trans hmq)
        cases hpd.symm.trans hqd
        have hmr := hc.resolve_left hl
        rw [hr, Option.some.injEq] at hmr
        exact absurd hmr.symm hmn
  · have hqn : q ≠ n := by
      rintro rfl
      exact hleaf m ((parentOf_eq hmd).trans hmq)
    exact ⟨qd, (unlinked_heap_ne hqn hqp).trans hqd, Iff.rfl, fun _ => rfl, fun _ => rfl⟩

theorem ownedBelow_of_leaf {t' : PTree} (hleaf : ∀ x, t.parentOf x ≠ some n)
    (hparent : ∀ m, m ≠ n → t'.parentOf m = t.parentOf m) (hf : ∀ s, f s ≠ some n) {m : Nat} :
    OwnedBelow t' f own m ↔ OwnedBelow t f own m := by
  have hup : ∀ s a, f s = some a → (Up t'.parentOf a m ↔ Up t.parentOf a m) := by
    intro s a ha
    apply up_congr
    intro x hx
    apply hparent
    rintro rfl
    have := (up_of_leaf hleaf).mp hx
    exact hf s (this ▸ ha)
  constructor
  · rintro ⟨s, hs, a, ha, h⟩
    exact ⟨s, hs, a, ha, (hup s a ha).mp h⟩
  · rintro ⟨s, hs, a, ha, h⟩
    exact ⟨s, hs, a, ha, (hup s a ha).mpr h⟩

theorem Good.unlinked (h : Good t f owned) (hn : t.heap n = some nd) (hnl : nd.left.pointer = none)
    (hnr : nd.right.pointer = none) (hf : ∀ s, f s ≠ some n) (hp : nd.parent = some p) (hpd : t.heap p = some pd)
    (hun : Unlinked pd pd' n) : Good ((t.setNode p pd').deleteNode n) f owned := by
  have hpn : p < n := (h.shape.child (h.shape.parent ((parentOf_eq hn).trans hp))).2
  have hleaf := h.shape.no_child hn hnl hnr
  refine ⟨h.shape.unlinked hn hnl hnr hp hpd hun, ?_, ?_⟩
  · intro s m hs
    obtain ⟨md, hmd, hst⟩ := h.nodes s m hs
    have hmn : m ≠ n := by
      rintro rfl
      exact hf s hs
    by_cases hmp : m = p
    · subst hmp
      rw [hpd, Option.some.injEq] at hmd
      exact ⟨pd', unlinked_heap_parent hpn, hun.2.1.trans (hmd ▸ hst)⟩
    · exact ⟨md, (unlinked_heap_ne hmn hmp).trans hmd, hst⟩
  · intro i m md hmd
    obtain ⟨hmn, hcase⟩ := unlinked_heap hpn hmd
    obtain ⟨md₀, hmd₀⟩ : ∃ md₀, t.heap m = some md₀ := by
      obtain ⟨rfl, -⟩ | ⟨-, hmd₀⟩ := hcase
      · exact ⟨pd, hpd⟩
      · exact ⟨md, hmd₀⟩
    rw [unlinked_tagOf h.shape hleaf hpd hun hpn hmn hmd₀,
      ownedBelow_of_leaf hleaf (fun m hm => unlinked_parentOf hpd hun hpn hm) hf]
    exact h.exact i m md₀ hmd₀

end DeleteLeaf

theorem Good.deleteRoot (h : Good t f owned) {n : Nat} {nd : PTreeNode} (hn : t.heap n = some nd)
    (hnl : nd.left.pointer = none) (hnr : nd.right.pointer = none) (hf : ∀ s, f s ≠ some n)
    (hp : nd.parent = none) : Good (t.deleteNode n) f owned := by
  have hleaf := h.shape.no_child hn hnl hnr
  have hparent : ∀ m, m ≠ n → (t.deleteNode n).parentOf m = t.parentOf m := by
    intro m hmn
    rw [parentOf, parentOf, deleteNode_heap_ne hmn]
  have hheap : ∀ {m md}, (t.deleteNode n).heap m = some md → m ≠ n ∧ t.heap m = some md := by
    intro m md hmd
    have hmn : m ≠ n := by
      rintro rfl
      rw [deleteNode_heap_self] at hmd
      cases hmd
    exact ⟨hmn, (deleteNode_heap_ne hmn).symm.trans hmd⟩
  have hroot := h.shape.top hn hp
  -- no state is below the node, so no searcher has a bit in its tag
  have hzero : t.root.int = 0 := by
    rw [← tagOf_root hn hp]
    apply bit_ext
    intro i
    rw [← Bool.not_eq_true, h.exact i n nd hn, ownedBelow_iff]
    rintro (⟨s, -, hs⟩ | ⟨c, hc, -⟩)
    · exact hf s hs
    · exact hleaf c hc
  refine ⟨.of_fits ?_ ?_ ?_ ?_ fun hmd => h.shape.fits (hheap hmd).2, ?_, ?_⟩
  · intro m hm
    by_cases hmn : m = n
    · rw [hmn, deleteNode_heap_self]
    · rw [deleteNode_heap_ne hmn]
      exact h.shape.fresh m hm
  · rintro q c ⟨qd, hqd, hc⟩
    obtain ⟨hpar, hlt⟩ := h.shape.child ⟨qd, (hheap hqd).2, hc⟩
    have hcn : c ≠ n := by
      rintro rfl
      rw [parentOf_eq hn, hp] at hpar
      cases hpar
    exact ⟨by rw [hparent c hcn, hpar], hlt⟩
  · intro m q hq
    have hmn : m ≠ n := by
      rintro rfl
      simp [parentOf, deleteNode_heap_self] at hq
    rw [hparent m hmn] at hq
    obtain ⟨qd, hqd, hc⟩ := h.shape.parent hq
    have hqn : q ≠ n := by
      rintro rfl
      exact hleaf m hq
    exact ⟨qd, (deleteNode_heap_ne hqn).trans hqd, hc⟩
  · exact ⟨n, hroot, h.shape.lt_next hn, by simp [parentOf, deleteNode_heap_self], fun _ => hzero⟩
  · intro s m hs
    obtain ⟨md, hmd, hst⟩ := h.nodes s m hs
    have hmn : m ≠ n := by
      rintro rfl
      exact hf s hs
    exact ⟨md, (deleteNode_heap_ne hmn).trans hmd, hst⟩
  · intro i m md hmd
    obtain ⟨hmn, hmd₀⟩ := hheap hmd
    have htag : (t.deleteNode n).tagOf m = t.tagOf m := by
      refine h.shape.tagOf_frame hmd₀ hmd rfl (fun _ => rfl) ?_
      intro q qd hq hqd
      have hqn : q ≠ n := by
        rintro rfl
        exact hleaf m ((parentOf_eq hmd₀).trans hq)
      exact ⟨qd, (deleteNode_heap_ne hqn).trans hqd, Iff.rfl, fun _ => rfl, fun _ => rfl⟩
    rw [htag, ownedBelow_of_leaf hleaf hparent hf]
    exact h.exact i m md hmd₀

/-! ## `remove` -/

theorem Good.prune (h : Good t f owned) {fuel n : Nat} {nd : PTreeNode} (hn : t.heap n = some nd)
    (hnl : nd.left.pointer = none) (hnr : nd.right.pointer = none) (hf : ∀ s, f s ≠ some n)
    (hinner : ∀ m md, m ≠ n → t.heap m = some md → md.state = none → md.left.pointer ≠ none ∨ md.right.pointer ≠ none)
    (hfuel : n < fuel) :
    ∃ t' stop, t.prune fuel n = some (t', stop) ∧ Good t' f owned ∧ Inner t' ∧ t'.ptreeNode = t.ptreeNode ∧
      t'.registeredIds = t.registeredIds ∧
      ∀ p, stop = some p → ∃ pd, t'.heap p = some pd ∧ pd.state = none ∧
        (pd.left.pointer = none ∧ pd.right.pointer ≠ none ∨ pd.left.pointer ≠ none ∧ pd.right.pointer = none) := by
  induction fuel generalizing t n nd with
  | zero => omega
  | succ fuel ih =>
    cases hp : nd.parent with
    | none =>
      refine ⟨t.deleteNode n, none, by simp [PTree.prune, hn, hp], h.deleteRoot hn hnl hnr hf hp, ?_, rfl, rfl, by simp⟩
      intro m md hmd hst
      have hmn : m ≠ n := by
        rintro rfl
        rw [deleteNode_heap_self] at hmd
        cases hmd
      exact hinner m md hmn ((deleteNode_heap_ne hmn).symm.trans hmd) hst
    | some p =>
      have hpar := (parentOf_eq hn).trans hp
      obtain ⟨pd, hpd, hc⟩ := h.shape.parent hpar
      have hpn : p < n := (h.shape.child (h.shape.parent hpar)).2
      have hst : pd.state = none := by
        by_contra hne
        obtain ⟨hl, hr⟩ := h.shape.leaf hpd hne
        simp [hl, hr] at hc
      have hfp : ∀ s, f s ≠ some p := by
        intro s hs
        obtain ⟨pd₀, hpd₀, hst₀⟩ := h.nodes s p hs
        cases hpd.symm.trans hpd₀
        rw [hst] at hst₀
        cases hst₀
      -- one round, which takes the link to the node out of its parent `pd`
      have hround : ∀ pd', Unlinked pd pd' n →
          (t.prune (fuel + 1) n = if pd'.left.pointer = none ∧ pd'.right.pointer = none then
              ((t.setNode p pd').deleteNode n).prune fuel p
            else some ((t.setNode p pd').deleteNode n, some p)) →
          ∃ t' stop, t.prune (fuel + 1) n = some (t', stop) ∧ Good t' f owned ∧ Inner t' ∧ t'.ptreeNode = t.ptreeNode ∧
            t'.registeredIds = t.registeredIds ∧
            ∀ p, stop = some p → ∃ pd, t'.heap p = some pd ∧ pd.state = none ∧
              (pd.left.pointer = none ∧ pd.right.pointer ≠ none ∨ pd.left.pointer ≠ none ∧ pd.right.pointer = none) := by
        intro pd' hun hrun
        have hgood := h.unlinked hn hnl hnr hf hp hpd hun
        have hpd' : ((t.setNode p pd').deleteNode n).heap p = some pd' := unlinked_heap_parent hpn
        have hinner' : ∀ m md, m ≠ p → ((t.setNode p pd').deleteNode n).heap m = some md → md.state = none →
            md.left.pointer ≠ none ∨ md.right.pointer ≠ none := by
          intro m md hmp hmd
          obtain ⟨hmn, ⟨hmp', -⟩ | ⟨-, hmd'⟩⟩ := unlinked_heap hpn hmd
          · exact absurd hmp' hmp
          · exact hinner m md hmn hmd'
        by_cases hboth : pd'.left.pointer = none ∧ pd'.right.pointer = none
        · rw [if_pos hboth] at hrun
          obtain ⟨t', stop, hloop, hrest⟩ := ih hgood hpd' hboth.1 hboth.2 hfp hinner' (by omega)
          exact ⟨t', stop, hrun.trans hloop, hrest⟩
        · rw [if_neg hboth] at hrun
          refine ⟨_, _, hrun, hgood, ?_, rfl, rfl, ?_⟩
          · intro m md hmd hmst
            by_cases hmp : m = p
            · subst hmp
              cases hpd'.symm.trans hmd
              tauto
            · exact hinner' m md hmp hmd hmst
          · intro q hq
            rw [Option.some.injEq] at hq
            subst hq
            refine ⟨pd', hpd', hun.2.1.trans hst, ?_⟩
            obtain ⟨-, -, ⟨-, hl', -⟩ | ⟨-, -, -, hr'⟩⟩ := hun
            · rw [hl'] at hboth ⊢
              simp at hboth ⊢
              exact hboth
            · rw [hr'] at hboth ⊢
              simp at hboth ⊢
              exact hboth
      by_cases hl : pd.left.pointer = some n
      · refine hround { pd with left := {} } ⟨rfl, rfl, .inl ⟨hl, rfl, rfl⟩⟩ ?_
        simp [PTree.prune, hn, hp, hpd, hl, PTree.set]
      · have hr := hc.resolve_left hl
        refine hround { pd with right := {} } ⟨rfl, rfl, .inr ⟨hl, hr, rfl, rfl⟩⟩ ?_
        simp [PTree.prune, hn, hp, hpd, hl, hr, PTree.set]

/-! ## Taking a node out -/

/-- `t'` is `t` without the node `n`, whose only child `c` takes its place.  `link` is the link from `n` to `c`. -/
structure Spliced (t t' : PTree) (n c : Nat) (nd cd : PTreeNode) (link : PTreeNodePtr) : Prop where
  gone : t'.heap n = none
  child : t'.heap c = some { cd with parent := nd.parent }
  other : ∀ m, m ≠ n → m ≠ c → nd.parent ≠ some m → t'.heap m = t.heap m
  next : t'.next = t.next
  place : nd.parent = none ∧ t'.root = link ∨
    ∃ p pd pd', nd.parent = some p ∧ t'.root = t.root ∧ t.heap p = some pd ∧ t'.heap p = some pd' ∧
      pd'.parent = pd.parent ∧ pd'.state = pd.state ∧
      (pd.left.pointer = some n ∧ pd'.left = link ∧ pd'.right = pd.right ∨
        pd.left.pointer ≠ some n ∧ pd.right.pointer = some n ∧ pd'.left = pd.left ∧ pd'.right = link)

section Splice

variable {t' : PTree} {n c : Nat} {nd cd : PTreeNode} {link : PTreeNodePtr}

structure OneChild (t : PTree) (n c : Nat) (nd cd : PTreeNode) (link : PTreeNodePtr) : Prop where
  node : t.heap n = some nd
  state : nd.state = none
  child : t.heap c = some cd
  pointer : link.pointer = some c
  only : nd.left = link ∧ nd.right.pointer = none ∨ nd.left.pointer = none ∧ nd.right = link

theorem OneChild.parentOf (h : OneChild t n c nd cd link) (hs : Shape t) : t.parentOf c = some n ∧ n < c := by
  apply hs.child
  refine ⟨nd, h.node, ?_⟩
  obtain ⟨hl, -⟩ | ⟨-, hr⟩ := h.only
  · exact .inl (by rw [hl, h.pointer])
  · exact .inr (by rw [hr, h.pointer])

theorem OneChild.eq_child (h : OneChild t n c nd cd link) (hs : Shape t) {x : Nat} (hx : t.parentOf x = some n) :
    x = c := by
  obtain ⟨nd', hn', hc⟩ := hs.parent hx
  cases h.node.symm.trans hn'
  obtain ⟨hl, hr⟩ | ⟨hl, hr⟩ := h.only
  · rw [hl, hr, h.pointer] at hc
    simpa [eq_comm] using hc
  · rw [hl, hr, h.pointer] at hc
    simpa [eq_comm] using hc

theorem OneChild.tagOf (h : OneChild t n c nd cd link) (hs : Shape t) : t.tagOf c = link.int := by
  obtain ⟨hpar, -⟩ := h.parentOf hs
  have hp : cd.parent = some n := (parentOf_eq h.child).symm.trans hpar
  obtain ⟨hl, -⟩ | ⟨hl, hr⟩ := h.only
  · rw [tagOf_left h.child hp h.node (by rw [hl, h.pointer]), hl]
  · rw [tagOf_right h.child hp h.node (by simp [hl]), hr]

theorem Spliced.parentOf_child (h : Spliced t t' n c nd cd link) : t'.parentOf c = nd.parent := by
  rw [parentOf_eq h.child]

theorem Spliced.parentOf_other (h : Spliced t t' n c nd cd link) {m : Nat} (hmn : m ≠ n) (hmc : m ≠ c) :
    t'.parentOf m = t.parentOf m := by
  by_cases hmp : nd.parent = some m
  · obtain ⟨hnone, -⟩ | ⟨p, pd, pd', hp, -, hpd, hpd', hpar, -⟩ := h.place
    · rw [hnone] at hmp
      cases hmp
    · cases hp.symm.trans hmp
      rw [parentOf_eq hpd, parentOf_eq hpd', hpar]
  · rw [PTree.parentOf, PTree.parentOf, h.other m hmn hmc hmp]

theorem Spliced.heap (h : Spliced t t' n c nd cd link) {m : Nat} {md : PTreeNode} (hm : t'.heap m = some md) :
    m ≠ n ∧ (m = c ∧ md = { cd with parent := nd.parent } ∨ m ≠ c ∧ nd.parent = some m ∨
      m ≠ c ∧ nd.parent ≠ some m ∧ t.heap m = some md) := by
  have hmn : m ≠ n := by
    rintro rfl
    rw [h.gone] at hm
    cases hm
  refine ⟨hmn, ?_⟩
  by_cases hmc : m = c
  · subst hmc
    rw [h.child, Option.some.injEq] at hm
    exact .inl ⟨rfl, hm.symm⟩
  · by_cases hmp : nd.parent = some m
    · exact .inr (.inl ⟨hmc, hmp⟩)
    · exact .inr (.inr ⟨hmc, hmp, (h.other m hmn hmc hmp).symm.trans hm⟩)

theorem Spliced.hasChild (h : Spliced t t' n c nd cd link) (hs : Shape t) (h1 : OneChild t n c nd cd link) {q x : Nat} :
    HasChild t' q x ↔ x = c ∧ nd.parent = some q ∨ HasChild t q x ∧ q ≠ n ∧ x ≠ n := by
  obtain ⟨hcn, hnc⟩ := h1.parentOf hs
  constructor
  · rintro ⟨qd, hqd, hx⟩
    obtain ⟨hqn, ⟨rfl, rfl⟩ | ⟨hqc, hqp⟩ | ⟨hqc, hqp, hqd'⟩⟩ := h.heap hqd
    · right
      have hold : HasChild t q x := ⟨cd, h1.child, hx⟩
      have := (hs.child hold).2
      exact ⟨hold, hqn, by omega⟩
    · obtain ⟨hnone, -⟩ | ⟨p, pd, pd', hp, -, hpd, hpd', -, -, hcase⟩ := h.place
      · rw [hnone] at hqp
        cases hqp
      · obtain rfl : p = q := by simpa [hp] using hqp
        cases hqd.symm.trans hpd'
        have hxn : ∀ {y}, pd.left.pointer = some y ∨ pd.right.pointer = some y → HasChild t p y :=
          fun hy => ⟨pd, hpd, hy⟩
        obtain ⟨hl, hl', hr'⟩ | ⟨hl, hr, hl', hr'⟩ := hcase
        · rw [hl', hr', h1.pointer] at hx
          obtain hx | hx := hx
          · exact .inl ⟨by simpa [eq_comm] using hx, hqp⟩
          · refine .inr ⟨hxn (.inr hx), hqn, ?_⟩
            rintro rfl
            exact hs.sides hpd hl hx
        · rw [hl', hr', h1.pointer] at hx
          obtain hx | hx := hx
          · refine .inr ⟨hxn (.inl hx), hqn, ?_⟩
            rintro rfl
            exact hl hx
          · exact .inl ⟨by simpa [eq_comm] using hx, hqp⟩
    · refine .inr ⟨⟨qd, hqd', hx⟩, hqn, ?_⟩
      rintro rfl
      have := (hs.child ⟨qd, hqd', hx⟩).1
      rw [parentOf_eq h1.node] at this
      exact hqp this
  · rintro (⟨rfl, hqp⟩ | ⟨⟨qd, hqd, hx⟩, hqn, hxn⟩)
    · obtain ⟨hnone, -⟩ | ⟨p, pd, pd', hp, -, hpd, hpd', -, -, hcase⟩ := h.place
      · rw [hnone] at hqp
        cases hqp
      · obtain rfl : p = q := by simpa [hp] using hqp
        refine ⟨pd', hpd', ?_⟩
        obtain ⟨-, hl', -⟩ | ⟨-, -, -, hr'⟩ := hcase
        · exact .inl (by rw [hl', h1.pointer])
        · exact .inr (by rw [hr', h1.pointer])
    · by_cases hqc : q = c
      · subst hqc
        cases h1.child.symm.trans hqd
        exact ⟨_, h.child, hx⟩
      · by_cases hqp : nd.parent = some q
        · obtain ⟨hnone, -⟩ | ⟨p, pd, pd', hp, -, hpd, hpd', -, -, hcase⟩ := h.place
          · rw [hnone] at hqp
            cases hqp
          · obtain rfl : p = q := by simpa [hp] using hqp
            cases hpd.symm.trans hqd
            refine ⟨pd', hpd', ?_⟩
            obtain ⟨hl, -, hr'⟩ | ⟨-, hr, hl', -⟩ := hcase
            · rw [hl, Option.some.injEq] at hx
              exact .inr (by rw [hr']; exact hx.resolve_left (Ne.symm hxn))
            · rw [hr, Option.some.injEq] at hx
              exact .inl (by rw [hl']; exact hx.resolve_right (Ne.symm hxn))
        · exact ⟨qd, (h.other q hqn hqc hqp).trans hqd, hx⟩

theorem Spliced.parent (h : Spliced t t' n c nd cd link) {p : Nat} {pd' : PTreeNode} (hp : nd.parent = some p)
    (hpd' : t'.heap p = some pd') :
    ∃ pd, t'.root = t.root ∧ t.heap p = some pd ∧ pd'.parent = pd.parent ∧ pd'.state = pd.state ∧
      (pd.left.pointer = some n ∧ pd'.left = link ∧ pd'.right = pd.right ∨
        pd.left.pointer ≠ some n ∧ pd.right.pointer = some n ∧ pd'.left = pd.left ∧ pd'.right = link) := by
  obtain ⟨hnone, -⟩ | ⟨p', pd, pd'', hp', hroot, hpd, hpd'', hrest⟩ := h.place
  · rw [hnone] at hp
    cases hp
  · obtain rfl : p' = p := by simpa [hp'] using hp
    cases hpd'.symm.trans hpd''
    exact ⟨pd, hroot, hpd, hrest⟩

theorem Shape.spliced (hs : Shape t) (h1 : OneChild t n c nd cd link) (h : Spliced t t' n c nd cd link) : Shape t' := by
  obtain ⟨hcn, hnc⟩ := h1.parentOf hs
  have hlt : ∀ {p}, nd.parent = some p → p < n := fun hp =>
    (hs.child (hs.parent ((parentOf_eq h1.node).trans hp))).2
  have hcN := hs.lt_next h1.child
  refine .of_fits ?_ ?_ ?_ ?_ ?_
  · intro m hm
    rw [h.next] at hm
    have hmp : nd.parent ≠ some m := by
      intro hp
      have := hlt hp
      omega
    rw [h.other m (by omega) (by omega) hmp, hs.fresh m hm]
  · intro q x hx
    obtain ⟨rfl, hqp⟩ | ⟨hx, hqn, hxn⟩ := (h.hasChild hs h1).mp hx
    · have := hlt hqp
      exact ⟨h.parentOf_child.trans hqp, by omega⟩
    · obtain ⟨hpar, hqx⟩ := hs.child hx
      have hxc : x ≠ c := by
        rintro rfl
        rw [hcn, Option.some.injEq] at hpar
        exact hqn hpar.symm
      exact ⟨(h.parentOf_other hxn hxc).trans hpar, hqx⟩
  · intro m q hq
    rw [h.hasChild hs h1]
    have hmn : m ≠ n := by
      rintro rfl
      simp [PTree.parentOf, h.gone] at hq
    by_cases hmc : m = c
    · subst hmc
      rw [h.parentOf_child] at hq
      exact .inl ⟨rfl, hq⟩
    · rw [h.parentOf_other hmn hmc] at hq
      refine .inr ⟨hs.parent hq, ?_, hmn⟩
      rintro rfl
      exact hmc (h1.eq_child hs hq)
  · obtain ⟨hnone, hroot⟩ | ⟨p, pd, pd', hp, hroot, hpd, hpd', -⟩ := h.place
    · refine ⟨c, by rw [hroot, h1.pointer], by rw [h.next]; exact hcN, h.parentOf_child.trans hnone, ?_⟩
      intro hc
      rw [h.child] at hc
      cases hc
    · obtain ⟨r, hr, hrt, hpar, htag⟩ := hs.root
      have hrn : r ≠ n := by
        rintro rfl
        rw [parentOf_eq h1.node, hp] at hpar
        cases hpar
      have hrc : r ≠ c := by
        rintro rfl
        rw [hcn] at hpar
        cases hpar
      refine ⟨r, by rw [hroot, hr], by rwa [h.next], by rw [h.parentOf_other hrn hrc, hpar], ?_⟩
      intro hnone
      rw [hroot]
      by_cases hrp : r = p
      · subst hrp
        rw [hpd'] at hnone
        cases hnone
      · refine htag ((h.other r hrn hrc ?_).symm.trans hnone)
        rw [hp, Ne, Option.some.injEq]
        exact Ne.symm hrp
  · intro m md hmd
    have hnull : link.pointer = none → link.int = 0 := fun hnone => by
      rw [h1.pointer] at hnone
      cases hnone
    obtain ⟨hmn, ⟨rfl, rfl⟩ | ⟨-, hmp⟩ | ⟨-, -, hmd'⟩⟩ := h.heap hmd
    · have hold := hs.fits h1.child
      refine ⟨hold.sides, fun hp => ?_, hold.leaf, hold.null⟩
      obtain ⟨-, hroot⟩ | ⟨p, pd, pd', hp', -⟩ := h.place
      · rw [hroot, h1.pointer]
      · cases (show nd.parent = none from hp).symm.trans hp'
    · obtain ⟨pd, hroot, hpd, hpar, hst', hcase⟩ := h.parent hmp hmd
      -- the child was no child of the parent before
      have hno : ∀ {y}, pd.left.pointer = some y ∨ pd.right.pointer = some y → y ≠ c := by
        rintro y hy rfl
        have := (hs.child ⟨pd, hpd, hy⟩).1
        rw [hcn, Option.some.injEq] at this
        have := hlt hmp
        omega
      have htop : md.parent = none → t'.root.pointer = some m := by
        rw [hpar, hroot]
        exact hs.top hpd
      have hleaf : md.state ≠ none → False := fun hst => by
        obtain ⟨hl, hr⟩ := hs.leaf hpd (hst' ▸ hst)
        obtain ⟨hl', -⟩ | ⟨-, hr', -⟩ := hcase
        · cases hl.symm.trans hl'
        · cases hr.symm.trans hr'
      obtain ⟨-, hl', hr'⟩ | ⟨-, -, hl', hr'⟩ := hcase
      · refine ⟨fun hl hr => ?_, htop, fun hst => (hleaf hst).elim, by rw [hl', hr']; exact ⟨hnull, (hs.null hpd).2⟩⟩
        rw [hl', h1.pointer, Option.some.injEq] at hl
        rw [hr'] at hr
        exact hno (.inr hr) hl.symm
      · refine ⟨fun hl hr => ?_, htop, fun hst => (hleaf hst).elim, by rw [hl', hr']; exact ⟨(hs.null hpd).1, hnull⟩⟩
        rw [hr', h1.pointer, Option.some.injEq] at hr
        rw [hl'] at hl
        exact hno (.inl hl) hr.symm
    · refine ⟨hs.sides hmd', fun hp => ?_, hs.leaf hmd', hs.null hmd'⟩
      have htop := hs.top hmd' hp
      obtain ⟨hnone, -⟩ | ⟨p, pd, pd', hp', hroot, -⟩ := h.place
      · rw [hs.top h1.node hnone, Option.some.injEq] at htop
        exact absurd htop.symm hmn
      · rw [hroot, htop]

theorem Spliced.tagOf_child (h : Spliced t t' n c nd cd link) (hs : Shape t) (h1 : OneChild t n c nd cd link) :
    t'.tagOf c = t.tagOf c := by
  obtain ⟨hcn, -⟩ := h1.parentOf hs
  rw [h1.tagOf hs]
  obtain ⟨hnone, hroot⟩ | ⟨p, pd, pd', hp, -, hpd, hpd', -, -, hcase⟩ := h.place
  · rw [tagOf_root h.child hnone, hroot]
  · obtain ⟨-, hl', -⟩ | ⟨-, -, hl', hr'⟩ := hcase
    · rw [tagOf_left h.child hp hpd' (by rw [hl', h1.pointer]), hl']
    · have hne : pd'.left.pointer ≠ some c := by
        rw [hl']
        intro hl
        have := (hs.child ⟨pd, hpd, .inl hl⟩).1
        rw [hcn, Option.some.injEq] at this
        have := (hs.child (hs.parent ((parentOf_eq h1.node).trans hp))).2
        omega
      rw [tagOf_right h.child hp hpd' hne, hr']

theorem Spliced.tagOf (h : Spliced t t' n c nd cd link) (hs : Shape t) (h1 : OneChild t n c nd cd link) {m : Nat}
    {md md₀ : PTreeNode} (hmd : t'.heap m = some md) (hmd₀ : t.heap m = some md₀) : t'.tagOf m = t.tagOf m := by
  obtain ⟨hmn, -⟩ := h.heap hmd
  by_cases hmc : m = c
  · rw [hmc]
    exact h.tagOf_child hs h1
  · have hpar : md.parent = md₀.parent := by
      rw [← parentOf_eq hmd, ← parentOf_eq hmd₀, h.parentOf_other hmn hmc]
    refine hs.tagOf_frame hmd₀ hmd hpar ?_ ?_
    · intro hnone
      have htop := hs.top hmd₀ hnone
      obtain ⟨hnp, -⟩ | ⟨p, pd, pd', -, hroot, -⟩ := h.place
      · rw [hs.top h1.node hnp, Option.some.injEq] at htop
        exact absurd htop.symm hmn
      · rw [hroot]
    · intro q qd hq hqd
      have hmq := (parentOf_eq hmd₀).trans hq
      have hqn : q ≠ n := by
        rintro rfl
        exact hmc (h1.eq_child hs hmq)
      by_cases hqc : q = c
      · subst hqc
        cases h1.child.symm.trans hqd
        exact ⟨_, h.child, Iff.rfl, fun _ => rfl, fun _ => rfl⟩
      · by_cases hqp : nd.parent = some q
        · obtain ⟨hnone, -⟩ | ⟨p, pd, pd', hp, -, hpd, hpd', -, -, hcase⟩ := h.place
          · rw [hnone] at hqp
            cases hqp
          · obtain rfl : p = q := by simpa [hp] using hqp
            cases hpd.symm.trans hqd
            refine ⟨pd', hpd', ?_⟩
            obtain ⟨hl, hl', hr'⟩ | ⟨hl, hr, hl', -⟩ := hcase
            · rw [hl, hl', hr', h1.pointer, Option.some.injEq, Option.some.injEq]
              exact ⟨iff_of_false (Ne.symm hmc) (Ne.symm hmn), fun hnm => absurd hnm (Ne.symm hmn), fun _ => rfl⟩
            · rw [hl']
              refine ⟨Iff.rfl, fun _ => rfl, fun hlm => ?_⟩
              -- a child that is not the left one is the right one, which is taken out
              obtain ⟨qd, hqd, hc⟩ := hs.parent hmq
              cases hpd.symm.trans hqd
              have hrm := hc.resolve_left hlm
              rw [hr, Option.some.injEq] at hrm
              exact absurd hrm.symm hmn
        · exact ⟨qd, (h.other q hqn hqc hqp).trans hqd, Iff.rfl, fun _ => rfl, fun _ => rfl⟩

theorem Good.spliced (h : Good t f owned) (h1 : OneChild t n c nd cd link) (hspl : Spliced t t' n c nd cd link) :
    Good t' f owned := by
  have hs := h.shape
  obtain ⟨hcn, hnc⟩ := h1.parentOf hs
  have hfn : ∀ s, f s ≠ some n := by
    intro s hsn
    obtain ⟨nd', hn', hst⟩ := h.nodes s n hsn
    cases h1.node.symm.trans hn'
    rw [h1.state] at hst
    cases hst
  have hnn : t.parentOf n ≠ some n := by
    intro hpar
    have := (hs.child (hs.parent hpar)).2
    omega
  -- an old node that is left, with the same parent unless it is the child
  have hback : ∀ {m md}, t'.heap m = some md → m ≠ n ∧ ∃ md₀, t.heap m = some md₀ := by
    intro m md hmd
    obtain ⟨hmn, ⟨rfl, -⟩ | ⟨-, hmp⟩ | ⟨-, -, hmd'⟩⟩ := hspl.heap hmd
    · exact ⟨hmn, cd, h1.child⟩
    · obtain ⟨pd, -, hpd, -⟩ := hspl.parent hmp hmd
      exact ⟨hmn, pd, hpd⟩
    · exact ⟨hmn, md, hmd'⟩
  refine ⟨hs.spliced h1 hspl, ?_, ?_⟩
  · intro s m hsm
    obtain ⟨md, hmd, hst⟩ := h.nodes s m hsm
    have hmn : m ≠ n := by
      rintro rfl
      exact hfn s hsm
    by_cases hmc : m = c
    · subst hmc
      cases h1.child.symm.trans hmd
      exact ⟨_, hspl.child, hst⟩
    · by_cases hmp : nd.parent = some m
      · obtain ⟨hnone, -⟩ | ⟨p, pd, pd', hp, -, hpd, hpd', -, hst', -⟩ := hspl.place
        · rw [hnone] at hmp
          cases hmp
        · obtain rfl : p = m := by simpa [hp] using hmp
          cases hpd.symm.trans hmd
          exact ⟨pd', hpd', hst'.trans hst⟩
      · exact ⟨md, (hspl.other m hmn hmc hmp).trans hmd, hst⟩
  · intro i m md hmd
    obtain ⟨hmn, md₀, hmd₀⟩ := hback hmd
    have hbelow : OwnedBelow t' f (owned i) m ↔ OwnedBelow t f (owned i) m := by
      have hup : ∀ s a, f s = some a → (Up t'.parentOf a m ↔ Up t.parentOf a m) := by
        intro s a ha
        have han : a ≠ n := by
          rintro rfl
          exact hfn s ha
        refine up_contract hcn (fun x hx => h1.eq_child hs hx) hnn ?_ ?_ han hmn
        · rw [hspl.parentOf_child, parentOf_eq h1.node]
        · intro x hxc hxn
          exact hspl.parentOf_other hxn hxc
      constructor
      · rintro ⟨s, hs', a, ha, hu⟩
        exact ⟨s, hs', a, ha, (hup s a ha).mp hu⟩
      · rintro ⟨s, hs', a, ha, hu⟩
        exact ⟨s, hs', a, ha, (hup s a ha).mpr hu⟩
    rw [hspl.tagOf hs h1 hmd hmd₀, hbelow]
    exact h.exact i m md₀ hmd₀

theorem Inner.spliced (hinner : Inner t) (hs : Shape t) (h1 : OneChild t n c nd cd link)
    (h : Spliced t t' n c nd cd link) : Inner t' := by
  intro m md hmd hst
  obtain ⟨-, ⟨rfl, rfl⟩ | ⟨-, hmp⟩ | ⟨-, -, hmd'⟩⟩ := h.heap hmd
  · have hchild := hinner m cd h1.child hst
    exact hchild
  · obtain ⟨md', hmd', hc⟩ := (h.hasChild hs h1).mpr (.inl ⟨rfl, hmp⟩)
    cases hmd.symm.trans hmd'
    exact hc.imp (fun hc => by simp [hc]) (fun hc => by simp [hc])
  · exact hinner m md hmd' hst

end Splice

theorem Good.compress (h : Good t f owned) (hinner : Inner t) {n : Nat} {nd : PTreeNode} (hn : t.heap n = some nd)
    (hst : nd.state = none)
    (hone : nd.left.pointer = none ∧ nd.right.pointer ≠ none ∨ nd.left.pointer ≠ none ∧ nd.right.pointer = none) :
    ∃ t', t.compress n = some t' ∧ Good t' f owned ∧ Inner t' ∧ t'.ptreeNode = t.ptreeNode ∧
      t'.registeredIds = t.registeredIds := by
  have hs := h.shape
  -- the link to the child
  obtain ⟨link, c, hlink, hc, honly⟩ : ∃ link c, (if nd.left.pointer.isSome then nd.left else nd.right) = link ∧
      link.pointer = some c ∧ (nd.left = link ∧ nd.right.pointer = none ∨ nd.left.pointer = none ∧ nd.right = link) := by
    obtain ⟨hl, hr⟩ | ⟨hl, hr⟩ := hone
    · obtain ⟨c, hc⟩ := Option.ne_none_iff_exists'.mp hr
      exact ⟨nd.right, c, by simp [hl], hc, .inr ⟨hl, rfl⟩⟩
    · obtain ⟨c, hc⟩ := Option.ne_none_iff_exists'.mp hl
      exact ⟨nd.left, c, by simp [hc], hc, .inl ⟨rfl, hr⟩⟩
  have hchild : HasChild t n c := by
    obtain ⟨hl, -⟩ | ⟨-, hr⟩ := honly
    · exact ⟨nd, hn, .inl (by rw [hl, hc])⟩
    · exact ⟨nd, hn, .inr (by rw [hr, hc])⟩
  obtain ⟨hpar, hnc⟩ := hs.child hchild
  obtain ⟨cd, hcd, -⟩ := heap_of_parentOf hpar
  have h1 : OneChild t n c nd cd link := ⟨hn, hst, hcd, hc, honly⟩
  have hfinish : ∀ t', t.compress n = some t' → Spliced t t' n c nd cd link → t'.ptreeNode = t.ptreeNode →
      t'.registeredIds = t.registeredIds → ∃ t', t.compress n = some t' ∧ Good t' f owned ∧ Inner t' ∧
        t'.ptreeNode = t.ptreeNode ∧ t'.registeredIds = t.registeredIds :=
    fun t' hrun hspl hnode hids => ⟨t', hrun, h.spliced h1 hspl, hinner.spliced hs h1 hspl, hnode, hids⟩
  have hnc' : n ≠ c := by omega
  cases hp : nd.parent with
  | none =>
    refine hfinish (((t.setNode c { cd with parent := none }).set .root link).deleteNode n) ?_ ?_ rfl rfl
    · simp [PTree.compress, hn, hlink, hc, hcd, hp]
    · refine ⟨deleteNode_heap_self _ n, ?_, ?_, rfl, .inl ⟨hp, rfl⟩⟩
      · rw [deleteNode_heap_ne hnc'.symm, hp]
        exact setNode_heap_self t c _
      · intro m hmn hmc _
        rw [deleteNode_heap_ne hmn]
        exact setNode_heap_ne _ hmc
  | some p =>
    have hpar' := (parentOf_eq hn).trans hp
    obtain ⟨pd, hpd, hcp⟩ := hs.parent hpar'
    have hpn : p < n := (hs.child (hs.parent hpar')).2
    have hpc : p ≠ c := by omega
    have hpd₁ : (t.setNode c { cd with parent := some p }).heap p = some pd := (setNode_heap_ne _ hpc).trans hpd
    -- the parent with the link to the child in place of the link to the node
    have hplace : ∀ pd', pd'.parent = pd.parent → pd'.state = pd.state →
        (pd.left.pointer = some n ∧ pd'.left = link ∧ pd'.right = pd.right ∨
          pd.left.pointer ≠ some n ∧ pd.right.pointer = some n ∧ pd'.left = pd.left ∧ pd'.right = link) →
        Spliced t (((t.setNode c { cd with parent := some p }).setNode p pd').deleteNode n) n c nd cd link := by
      intro pd' hpar'' hst'' hcase
      refine ⟨deleteNode_heap_self _ n, ?_, ?_, rfl, .inr ⟨p, pd, pd', hp, rfl, hpd, ?_, hpar'', hst'', hcase⟩⟩
      · rw [deleteNode_heap_ne hnc'.symm, setNode_heap_ne _ hpc.symm, hp]
        exact setNode_heap_self t c _
      · intro m hmn hmc hmp
        have hmp' : m ≠ p := by
          rintro rfl
          exact hmp hp
        rw [deleteNode_heap_ne hmn, setNode_heap_ne _ hmp', setNode_heap_ne _ hmc]
      · rw [deleteNode_heap_ne hpn.ne, setNode_heap_self]
    by_cases hl : pd.left.pointer = some n
    · refine hfinish _ ?_ (hplace { pd with left := link } rfl rfl (.inl ⟨hl, rfl, rfl⟩)) rfl rfl
      simp [PTree.compress, hn, hlink, hc, hcd, hp, hpd₁, hl, PTree.set]
    · have hr := hcp.resolve_left hl
      refine hfinish _ ?_ (hplace { pd with right := link } rfl rfl (.inr ⟨hl, hr, rfl, rfl⟩)) rfl rfl
      simp [PTree.compress, hn, hlink, hc, hcd, hp, hpd₁, hl, hr, PTree.set]

theorem Good.remove (h : Good t f owned) (hinner : Inner t) (compressProcessTree : Bool) {n : Nat} {nd : PTreeNode}
    (hn : t.heap n = some nd) (hst : nd.state ≠ none) (hf : ∀ s, f s ≠ some n) :
    ∃ t', t.remove compressProcessTree n = some t' ∧ Good t' f owned ∧ Inner t' ∧ t'.ptreeNode = t.ptreeNode ∧
      t'.registeredIds = t.registeredIds := by
  obtain ⟨hnl, hnr⟩ := h.shape.leaf hn hst
  obtain ⟨t₁, stop, hprune, hgood, hinner₁, hnode, hids, hstop⟩ :=
    h.prune hn hnl hnr hf (fun m md _ => hinner m md) (Nat.lt_succ_self n)
  have hrun : t.remove compressProcessTree n =
      match stop with
      | none => some t₁
      | some p => if compressProcessTree then t₁.compress p else some t₁ := by
    simp only [PTree.remove, hn, Option.bind_eq_bind, Option.bind_some, hnl, hnr, Option.isSome_none, Bool.false_eq_true,
      or_self, if_false, hprune]
    cases stop <;> rfl
  cases stop with
  | none => exact ⟨t₁, hrun, hgood, hinner₁, hnode, hids⟩
  | some p =>
    cases compressProcessTree with
    | false => exact ⟨t₁, hrun, hgood, hinner₁, hnode, hids⟩
    | true =>
      obtain ⟨pd, hpd, hpst, hone⟩ := hstop p rfl
      obtain ⟨t', hcomp, hgood', hinner', hnode', hids'⟩ := hgood.compress hinner₁ hpd hpst hone
      exact ⟨t', hrun.trans hcomp, hgood', hinner', hnode'.trans hnode, hids'.trans hids⟩

end PTree

end CgsKlee
