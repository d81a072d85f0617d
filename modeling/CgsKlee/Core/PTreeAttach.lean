import CgsKlee.Core.RandomPath

/-!
# Attaching a state to the process tree

`PTree::attach` makes a leaf into a node with two leaves and hands the tag of the leaf to the one that keeps its state.
-/

namespace CgsKlee

open Forest

namespace PTree

variable {t : PTree} {f : StateId → Option Nat} {owned : Fin ptrBitCount → Finset StateId}

theorem Shape.lt_next (h : Shape t) {n : Nat} {nd : PTreeNode} (hn : t.heap n = some nd) : n < t.next := by
  by_contra hle
  rw [h.fresh n (by omega)] at hn
  cases hn

theorem Shape.no_child (h : Shape t) {n : Nat} {nd : PTreeNode} (hn : t.heap n = some nd)
    (hl : nd.left.pointer = none) (hr : nd.right.pointer = none) (x : Nat) : t.parentOf x ≠ some n := by
  intro hx
  obtain ⟨nd', hn', hc⟩ := h.parent hx
  cases hn.symm.trans hn'
  simp [hl, hr] at hc

/-! ## `attach` -/

/-- The tree after `attach`: the new nodes are the next two. -/
def attached (t : PTree) (node : Nat) (n : PTreeNode) (leftState rightState : StateId) (tag : Tag) : PTree :=
  { t with
    heap := Function.update (Function.update (Function.update t.heap node (some { n with
        left := { pointer := some t.next }
        right := { pointer := some (t.next + 1), int := tag }
        state := none }))
      t.next (some { parent := some node, state := some leftState }))
      (t.next + 1) (some { parent := some node, state := some rightState })
    next := t.next + 2
    ptreeNode := Function.update (Function.update t.ptreeNode leftState (some t.next)) rightState (some (t.next + 1)) }

section Attach

variable {node : Nat} {n : PTreeNode} {l r : StateId} {tag : Tag}

theorem attached_heap_left : (t.attached node n l r tag).heap t.next = some { parent := some node, state := some l } := by
  simp [attached, Function.update_of_ne]

theorem attached_heap_right :
    (t.attached node n l r tag).heap (t.next + 1) = some { parent := some node, state := some r } := by
  simp [attached]

theorem attached_heap_node (hlt : node < t.next) :
    (t.attached node n l r tag).heap node = some { n with
      left := { pointer := some t.next }
      right := { pointer := some (t.next + 1), int := tag }
      state := none } := by
  have h₁ : node ≠ t.next + 1 := by omega
  have h₂ : node ≠ t.next := by omega
  simp [attached, Function.update_of_ne h₁, Function.update_of_ne h₂]

theorem attached_heap_old {m : Nat} (hm : m ≠ node) (hlt : m < t.next) :
    (t.attached node n l r tag).heap m = t.heap m := by
  have h₁ : m ≠ t.next + 1 := by omega
  have h₂ : m ≠ t.next := by omega
  simp [attached, Function.update_of_ne h₁, Function.update_of_ne h₂, Function.update_of_ne hm]

theorem attach_eq (h : Shape t) (hn : t.heap node = some n) (hl : n.left.pointer = none) (hr : n.right.pointer = none)
    (hright : t.ptreeNode r = some node) (leftState : StateId) :
    t.attach node leftState r = some (t.attached node n leftState r (t.tagOf node)) := by
  have hlt := h.lt_next hn
  have h₁ : node ≠ t.next + 1 := by omega
  have h₂ : node ≠ t.next := by omega
  have hcond : ¬(n.left.pointer.isSome ∨ n.right.pointer.isSome ∨ t.ptreeNode r ≠ some node) := by
    simp [hl, hr, hright]
  -- the link to the node is not touched before its tag is read
  have htag : ∀ t₁ : PTree, t₁.root = t.root → (∀ p, n.parent = some p → t₁.heap p = t.heap p) →
      t₁.currentNodeTag node n.parent = some (t.tagOf node) := by
    intro t₁ hroot hheap
    cases hp : n.parent with
    | none =>
      rw [tagOf_root hn hp, ← hroot]
      rfl
    | some p =>
      obtain ⟨pd, hpd, -⟩ := h.parent ((parentOf_eq hn).trans hp)
      have hpd' := (hheap p hp).trans hpd
      by_cases hc : pd.left.pointer = some node
      · rw [tagOf_left hn hp hpd hc]
        simp [currentNodeTag, childPtr, hpd', hc, get]
      · rw [tagOf_right hn hp hpd hc]
        simp [currentNodeTag, childPtr, hpd', hc, get]
  have hparent : ∀ p, n.parent = some p → p ≠ node ∧ p ≠ t.next := by
    intro p hp
    have := (h.child (h.parent ((parentOf_eq hn).trans hp))).2
    omega
  rw [attach, hn]
  simp only [Option.bind_eq_bind, Option.bind_some, if_neg hcond]
  rw [htag]
  · simp only [newNode, setNode, set, Function.update_self, Function.update_of_ne h₂, Function.update_of_ne h₁,
      Option.bind_some, pure, attached, Option.some.injEq, PTree.mk.injEq, true_and, and_true]
    funext m
    by_cases hm : m = node
    · subst hm
      simp [Function.update_of_ne h₁, Function.update_of_ne h₂]
    · by_cases hm₁ : m = t.next + 1
      · subst hm₁
        simp [Function.update_of_ne hm]
      · by_cases hm₂ : m = t.next <;> simp [hm, hm₁, hm₂, h₂.symm]
  · simp [newNode, setNode, set, Function.update_of_ne h₂]
  · intro p hp
    obtain ⟨hp₁, hp₂⟩ := hparent p hp
    simp [newNode, setNode, set, Function.update_of_ne h₂, Function.update_of_ne hp₁, Function.update_of_ne hp₂]

theorem attached_parentOf (hn : t.heap node = some n) (hlt : node < t.next) {m : Nat} (hm : m < t.next) :
    (t.attached node n l r tag).parentOf m = t.parentOf m := by
  by_cases hmn : m = node
  · subst hmn
    rw [parentOf_eq (attached_heap_node hlt), parentOf_eq hn]
  · rw [parentOf, parentOf, attached_heap_old hmn hm]

theorem attached_cases (h : Shape t) (hlt : node < t.next) {m : Nat} {md : PTreeNode}
    (hm : (t.attached node n l r tag).heap m = some md) :
    m = node ∧ md = { n with
      left := { pointer := some t.next }
      right := { pointer := some (t.next + 1), int := tag }
      state := none } ∨
    m = t.next ∧ md = { parent := some node, state := some l } ∨
    m = t.next + 1 ∧ md = { parent := some node, state := some r } ∨
    m ≠ node ∧ m < t.next ∧ t.heap m = some md := by
  by_cases hmn : m = node
  · rw [hmn, attached_heap_node hlt] at hm
    exact .inl ⟨hmn, (Option.some.inj hm).symm⟩
  · by_cases hm₂ : m = t.next
    · rw [hm₂, attached_heap_left] at hm
      exact .inr (.inl ⟨hm₂, (Option.some.inj hm).symm⟩)
    · by_cases hm₁ : m = t.next + 1
      · rw [hm₁, attached_heap_right] at hm
        exact .inr (.inr (.inl ⟨hm₁, (Option.some.inj hm).symm⟩))
      · have hold : (t.attached node n l r tag).heap m = t.heap m := by
          simp [attached, Function.update_of_ne hmn, Function.update_of_ne hm₁, Function.update_of_ne hm₂]
        rw [hold] at hm
        exact .inr (.inr (.inr ⟨hmn, h.lt_next hm, hm⟩))

theorem Shape.attached (h : Shape t) (hn : t.heap node = some n) (hl : n.left.pointer = none)
    (hr : n.right.pointer = none) : Shape (t.attached node n l r tag) := by
  have hlt := h.lt_next hn
  have hparent : ∀ {m}, m < t.next → (t.attached node n l r tag).parentOf m = t.parentOf m :=
    attached_parentOf hn hlt
  have hleft : (t.attached node n l r tag).parentOf t.next = some node := parentOf_eq attached_heap_left
  have hright : (t.attached node n l r tag).parentOf (t.next + 1) = some node := parentOf_eq attached_heap_right
  refine .of_fits ?_ ?_ ?_ ?_ ?_
  · intro m hm
    have hm : t.next + 2 ≤ m := hm
    have h₁ : m ≠ t.next + 1 := by omega
    have h₂ : m ≠ t.next := by omega
    have h₃ : m ≠ node := by omega
    simp [PTree.attached, Function.update_of_ne h₁, Function.update_of_ne h₂, Function.update_of_ne h₃,
      h.fresh m (by omega)]
  · rintro p c ⟨pd, hpd, hc⟩
    obtain ⟨rfl, rfl⟩ | ⟨rfl, rfl⟩ | ⟨rfl, rfl⟩ | ⟨hpn, hpt, hpd'⟩ := attached_cases h hlt hpd
    · simp only [Option.some.injEq] at hc
      obtain rfl | rfl := hc
      · exact ⟨hleft, hlt⟩
      · exact ⟨hright, by omega⟩
    · simp at hc
    · simp at hc
    · obtain ⟨hpar, hpc⟩ := h.child ⟨pd, hpd', hc⟩
      obtain ⟨cd, hcd, -⟩ := heap_of_parentOf hpar
      exact ⟨by rw [hparent (h.lt_next hcd), hpar], hpc⟩
  · intro m p hp
    obtain ⟨md, hmd, hmp⟩ := heap_of_parentOf hp
    have hnode : HasChild (t.attached node n l r tag) node t.next ∧
        HasChild (t.attached node n l r tag) node (t.next + 1) :=
      ⟨⟨_, attached_heap_node hlt, .inl rfl⟩, ⟨_, attached_heap_node hlt, .inr rfl⟩⟩
    -- an old node has an old parent, which is not the new inner node
    have hold : m < t.next → HasChild (t.attached node n l r tag) p m := by
      intro hm
      rw [hparent hm] at hp
      obtain ⟨pd, hpd, hc⟩ := h.parent hp
      have hpn : p ≠ node := by
        rintro rfl
        exact h.no_child hn hl hr m hp
      exact ⟨pd, (attached_heap_old hpn (h.lt_next hpd)).trans hpd, hc⟩
    obtain ⟨rfl, -⟩ | ⟨rfl, -⟩ | ⟨rfl, -⟩ | ⟨-, hmt, -⟩ := attached_cases h hlt hmd
    · exact hold hlt
    · rw [hleft, Option.some.injEq] at hp
      exact hp ▸ hnode.1
    · rw [hright, Option.some.injEq] at hp
      exact hp ▸ hnode.2
    · exact hold hmt
  · obtain ⟨x, hx, hxt, hpar, htag⟩ := h.root
    refine ⟨x, hx, by show x < t.next + 2; omega, by rw [hparent hxt, hpar], ?_⟩
    intro hnone
    by_cases hxn : x = node
    · rw [hxn, attached_heap_node hlt] at hnone
      cases hnone
    · exact htag ((attached_heap_old hxn hxt).symm.trans hnone)
  · intro m md hmd
    obtain ⟨rfl, rfl⟩ | ⟨rfl, rfl⟩ | ⟨rfl, rfl⟩ | ⟨-, -, hmd'⟩ := attached_cases h hlt hmd
    · exact ⟨fun hc => by simp [← hc], fun hp => h.top hn hp, fun hst => absurd rfl hst, by simp⟩
    · exact ⟨by simp, by simp, fun _ => ⟨rfl, rfl⟩, by simp⟩
    · exact ⟨by simp, by simp, fun _ => ⟨rfl, rfl⟩, by simp⟩
    · exact h.fits hmd'

theorem Inner.attached (h : Shape t) (hinner : Inner t) (hn : t.heap node = some n) :
    Inner (t.attached node n l r tag) := by
  intro m md hmd hst
  obtain ⟨rfl, rfl⟩ | ⟨rfl, rfl⟩ | ⟨rfl, rfl⟩ | ⟨-, -, hmd'⟩ := attached_cases h (h.lt_next hn) hmd
  · simp
  · cases hst
  · cases hst
  · exact hinner m md hmd' hst

theorem attached_tagOf (h : Shape t) (hn : t.heap node = some n) (hl : n.left.pointer = none)
    (hr : n.right.pointer = none) {m : Nat} {md : PTreeNode} (hm : t.heap m = some md) :
    (t.attached node n l r tag).tagOf m = t.tagOf m := by
  have hlt := h.lt_next hn
  obtain ⟨md', hmd', hpar⟩ : ∃ md', (t.attached node n l r tag).heap m = some md' ∧ md'.parent = md.parent := by
    by_cases hmn : m = node
    · subst hmn
      rw [hn, Option.some.injEq] at hm
      exact ⟨_, attached_heap_node hlt, hm ▸ rfl⟩
    · exact ⟨md, (attached_heap_old hmn (h.lt_next hm)).trans hm, rfl⟩
  refine h.tagOf_frame hm hmd' hpar (fun _ => rfl) ?_
  intro q qd hq hqd
  have hqn : q ≠ node := by
    rintro rfl
    exact h.no_child hn hl hr m ((parentOf_eq hm).trans hq)
  exact ⟨qd, (attached_heap_old hqn (h.lt_next hqd)).trans hqd, Iff.rfl, fun _ => rfl, fun _ => rfl⟩

theorem attached_up (h : Shape t) (hn : t.heap node = some n) {m q : Nat} {md : PTreeNode} (hm : t.heap m = some md) :
    Up (t.attached node n l r tag).parentOf m q ↔ Up t.parentOf m q := by
  apply up_congr
  intro x hx
  obtain ⟨xd, hxd⟩ := h.heap_of_up hm hx
  exact attached_parentOf hn (h.lt_next hn) (h.lt_next hxd)

theorem Good.attach (h : Good t t.ptreeNode owned) (hinner : Inner t)
    (hlive : ∀ i, ∀ s ∈ owned i, (t.ptreeNode s).isSome) (hright : t.ptreeNode r = some node)
    (hleft : t.ptreeNode l = none) :
    ∃ t', t.attach node l r = some t' ∧ Good t' t'.ptreeNode owned ∧ Inner t' ∧
      t'.registeredIds = t.registeredIds ∧
      ∀ s, (t'.ptreeNode s).isSome ↔ (t.ptreeNode s).isSome ∨ s = l := by
  obtain ⟨n, hn, hst⟩ := h.nodes r node hright
  obtain ⟨hnl, hnr⟩ := h.shape.leaf hn (by simp [hst])
  have hlr : l ≠ r := by
    rintro rfl
    rw [hleft] at hright
    cases hright
  have hlt := h.shape.lt_next hn
  have hshape : Shape (t.attached node n l r (t.tagOf node)) := h.shape.attached hn hnl hnr
  -- the nodes of the states
  have hnodeL : (t.attached node n l r (t.tagOf node)).ptreeNode l = some t.next := by
    simp [attached, Function.update_of_ne hlr]
  have hnodeR : (t.attached node n l r (t.tagOf node)).ptreeNode r = some (t.next + 1) := by simp [attached]
  have hnodeS : ∀ s, s ≠ l → s ≠ r → (t.attached node n l r (t.tagOf node)).ptreeNode s = t.ptreeNode s := by
    intro s hsl hsr
    simp [attached, Function.update_of_ne hsl, Function.update_of_ne hsr]
  refine ⟨_, attach_eq h.shape hn hnl hnr hright l, ⟨hshape, ?_, ?_⟩, hinner.attached h.shape hn, rfl, ?_⟩
  · intro s m hs
    by_cases hsr : s = r
    · subst hsr
      cases hnodeR.symm.trans hs
      exact ⟨_, attached_heap_right, rfl⟩
    · by_cases hsl : s = l
      · subst hsl
        cases hnodeL.symm.trans hs
        exact ⟨_, attached_heap_left, rfl⟩
      · rw [hnodeS s hsl hsr] at hs
        obtain ⟨md, hmd, hms⟩ := h.nodes s m hs
        have hmn : m ≠ node := by
          rintro rfl
          cases hn.symm.trans hmd
          rw [hst, Option.some.injEq] at hms
          exact hsr hms.symm
        exact ⟨md, (attached_heap_old hmn (h.shape.lt_next hmd)).trans hmd, hms⟩
  · -- states that searchers have are below old nodes as before, and none is at the new left node
    intro i m md hmd
    have hnotL : ∀ s ∈ owned i, s ≠ l := by
      rintro s hs rfl
      have := hlive i s hs
      simp [hleft] at this
    have hparR : (t.attached node n l r (t.tagOf node)).parentOf (t.next + 1) = some node :=
      parentOf_eq attached_heap_right
    have hold : ∀ m md, t.heap m = some md →
        (OwnedBelow (t.attached node n l r (t.tagOf node)) (t.attached node n l r (t.tagOf node)).ptreeNode (owned i) m ↔
          OwnedBelow t t.ptreeNode (owned i) m) := by
      intro m md hmd
      have hm := h.shape.lt_next hmd
      constructor
      · rintro ⟨s, hs, m', hm', hup⟩
        by_cases hsr : s = r
        · subst hsr
          cases hnodeR.symm.trans hm'
          obtain heq | ⟨b, hb, hup⟩ := up_iff_head.mp hup
          · omega
          · cases hparR.symm.trans hb
            exact ⟨s, hs, node, hright, (attached_up h.shape hn hn).mp hup⟩
        · rw [hnodeS s (hnotL s hs) hsr] at hm'
          obtain ⟨md', hmd', -⟩ := h.nodes s m' hm'
          exact ⟨s, hs, m', hm', (attached_up h.shape hn hmd').mp hup⟩
      · rintro ⟨s, hs, m', hm', hup⟩
        by_cases hsr : s = r
        · subst hsr
          cases hright.symm.trans hm'
          exact ⟨s, hs, t.next + 1, hnodeR, (up_parent hparR).trans ((attached_up h.shape hn hn).mpr hup)⟩
        · obtain ⟨md', hmd', -⟩ := h.nodes s m' hm'
          exact ⟨s, hs, m', (hnodeS s (hnotL s hs) hsr).trans hm', (attached_up h.shape hn hmd').mpr hup⟩
    have hnew : ∀ x s₀, (t.attached node n l r (t.tagOf node)).heap x = some { parent := some node, state := some s₀ } →
        (OwnedBelow (t.attached node n l r (t.tagOf node)) (t.attached node n l r (t.tagOf node)).ptreeNode (owned i) x ↔
          ∃ s ∈ owned i, (t.attached node n l r (t.tagOf node)).ptreeNode s = some x) := by
      intro x s₀ hx
      rw [ownedBelow_iff]
      constructor
      · rintro (hs | ⟨c, hc, -⟩)
        · exact hs
        · exact absurd hc (hshape.no_child hx rfl rfl c)
      · exact .inl
    obtain ⟨rfl, -⟩ | ⟨rfl, -⟩ | ⟨rfl, -⟩ | ⟨-, -, hmd'⟩ := attached_cases h.shape hlt hmd
    · rw [hold _ n hn, attached_tagOf h.shape hn hnl hnr hn]
      exact h.exact i _ n hn
    · rw [hnew _ l attached_heap_left,
        tagOf_left attached_heap_left rfl (attached_heap_node hlt) rfl, bit_zero]
      refine iff_of_false Bool.false_ne_true ?_
      rintro ⟨s, hs, hsn⟩
      by_cases hsr : s = r
      · rw [hsr, hnodeR, Option.some.injEq] at hsn
        omega
      · rw [hnodeS s (hnotL s hs) hsr] at hsn
        obtain ⟨md', hmd', -⟩ := h.nodes s _ hsn
        have := h.shape.lt_next hmd'
        omega
    · rw [hnew _ r attached_heap_right,
        tagOf_right attached_heap_right rfl (attached_heap_node hlt) (by simp), h.exact i node n hn, ownedBelow_iff]
      constructor
      · rintro (⟨s, hs, hsn⟩ | ⟨c, hc, -⟩)
        · obtain ⟨n', hn', hst'⟩ := h.nodes s node hsn
          cases hn.symm.trans hn'
          rw [hst, Option.some.injEq] at hst'
          exact ⟨r, hst' ▸ hs, hnodeR⟩
        · exact absurd hc (h.shape.no_child hn hnl hnr c)
      · rintro ⟨s, hs, hsn⟩
        by_cases hsr : s = r
        · exact .inl ⟨s, hs, hsr ▸ hright⟩
        · rw [hnodeS s (hnotL s hs) hsr] at hsn
          obtain ⟨md', hmd', -⟩ := h.nodes s _ hsn
          have := h.shape.lt_next hmd'
          omega
    · rw [hold m md hmd', attached_tagOf h.shape hn hnl hnr hmd']
      exact h.exact i m md hmd'
  · intro s
    by_cases hsr : s = r
    · subst hsr
      simp [hnodeR, hright]
    · by_cases hsl : s = l
      · subst hsl
        simp [hnodeL]
      · simp [hnodeS s hsl hsr, hsl]

end Attach

end PTree

end CgsKlee
