import CgsKlee.Core.PTreeShape

/-!
# What the tags of the process tree mean

The bit of a searcher is in the tag of a link iff a state of the searcher is below the link.  Two facts carry the
loops of `RandomPathSearcher::update`.  The bits are closed upwards, so the loop that marks the links to an added
state may stop at the first link that is marked.  And a node that has no state itself has a state of the searcher
below it iff one of its two children has, so the loop that unmarks the links to a removed state may stop at the first
node with a marked child.
-/

namespace CgsKlee

open Forest

namespace PTree

/-! ## Bits -/

theorem bit_test (tag : Tag) (i : Fin ptrBitCount) : (tag &&& Process.mask i != 0) = tag.getLsbD i := by
  revert tag i
  unfold Process.mask Tag ptrBitCount
  decide

theorem bit_set (tag : Tag) (i j : Fin ptrBitCount) :
    (tag ||| Process.mask i).getLsbD j = (tag.getLsbD j || decide (j = i)) := by
  revert tag i j
  unfold Process.mask Tag ptrBitCount
  decide

theorem bit_clear (tag : Tag) (i j : Fin ptrBitCount) :
    (tag &&& ~~~Process.mask i).getLsbD j = (tag.getLsbD j && decide (j ≠ i)) := by
  revert tag i j
  unfold Process.mask Tag ptrBitCount
  decide

theorem bit_zero (i : Fin ptrBitCount) : (0 : Tag).getLsbD i = false := by
  revert i
  unfold Tag ptrBitCount
  decide

theorem bit_ext {tag : Tag} (h : ∀ i : Fin ptrBitCount, tag.getLsbD i = false) : tag = 0 := by
  revert tag
  unfold Tag ptrBitCount
  decide

theorem isOurNodeValid_eq (i : Fin ptrBitCount) (link : PTreeNodePtr) :
    isOurNodeValid (Process.mask i) link = (link.pointer.isSome && link.int.getLsbD i) := by
  rw [isOurNodeValid, bit_test]

/-! ## States below a node -/

def Nodes (t : PTree) (f : StateId → Option Nat) : Prop :=
  ∀ s n, f s = some n → ∃ nd, t.heap n = some nd ∧ nd.state = some s

def OwnedBelow (t : PTree) (f : StateId → Option Nat) (own : Finset StateId) (n : Nat) : Prop :=
  ∃ s ∈ own, ∃ m, f s = some m ∧ Up t.parentOf m n

/-- A tree whose tags say which searchers have states below a node.  `f` gives the nodes of the states. -/
structure Good (t : PTree) (f : StateId → Option Nat) (owned : Fin ptrBitCount → Finset StateId) : Prop where
  shape : Shape t
  nodes : Nodes t f
  exact : ∀ (i : Fin ptrBitCount) n nd, t.heap n = some nd → ((t.tagOf n).getLsbD i = true ↔ OwnedBelow t f (owned i) n)

variable {t : PTree} {f : StateId → Option Nat} {owned : Fin ptrBitCount → Finset StateId} {own : Finset StateId}
  {i : Fin ptrBitCount}

variable {n : Nat} {t' : PTree} {nd : PTreeNode}

theorem OwnedBelow.up {p : Nat} (h : OwnedBelow t f own n) (hp : Up t.parentOf n p) : OwnedBelow t f own p := by
  obtain ⟨s, hs, m, hm, hup⟩ := h
  exact ⟨s, hs, m, hm, hup.trans hp⟩

theorem ownedBelow_iff :
    OwnedBelow t f own n ↔ (∃ s ∈ own, f s = some n) ∨ ∃ c, t.parentOf c = some n ∧ OwnedBelow t f own c := by
  constructor
  · rintro ⟨s, hs, m, hm, hup⟩
    obtain rfl | ⟨c, hup, hc⟩ := up_iff_tail.mp hup
    · exact .inl ⟨s, hs, hm⟩
    · exact .inr ⟨c, hc, s, hs, m, hm, hup⟩
  · rintro (⟨s, hs, hm⟩ | ⟨c, hc, hbelow⟩)
    · exact ⟨s, hs, n, hm, up_refl _ _⟩
    · exact hbelow.up (up_parent hc)

theorem ownedBelow_congr (h : t'.parentOf = t.parentOf) :
    OwnedBelow t' f own n ↔ OwnedBelow t f own n := by
  rw [OwnedBelow, OwnedBelow, h]

theorem ownedBelow_insert {s : StateId} {m : Nat} (hm : f s = some m) :
    OwnedBelow t f (insert s own) n ↔ OwnedBelow t f own n ∨ Up t.parentOf m n := by
  constructor
  · rintro ⟨s', hs', m', hm', hup⟩
    obtain rfl | hs' := Finset.mem_insert.mp hs'
    · rw [hm, Option.some.injEq] at hm'
      exact .inr (hm' ▸ hup)
    · exact .inl ⟨s', hs', m', hm', hup⟩
  · rintro (⟨s', hs', m', hm', hup⟩ | hup)
    · exact ⟨s', Finset.mem_insert_of_mem hs', m', hm', hup⟩
    · exact ⟨s, Finset.mem_insert_self s own, m, hm, hup⟩

theorem Shape.le_of_up (h : Shape t) {p : Nat} (hup : Up t.parentOf n p) : p ≤ n := by
  induction hup with
  | refl => exact le_rfl
  | tail _ hstep ih =>
    have := (h.child (h.parent hstep)).2
    omega

theorem Shape.heap_of_up (h : Shape t) {p : Nat} (hn : t.heap n = some nd)
    (hup : Up t.parentOf n p) : ∃ pd, t.heap p = some pd := by
  obtain rfl | ⟨c, -, hc⟩ := up_iff_tail.mp hup
  · exact ⟨nd, hn⟩
  · obtain ⟨pd, hp, -⟩ := h.parent hc
    exact ⟨pd, hp⟩

theorem SameShape.heap_back (h : SameShape t t') {nd' : PTreeNode} (hn : t'.heap n = some nd') :
    ∃ nd, t.heap n = some nd := by
  cases ht : t.heap n with
  | none =>
    rw [(h.absent n).mp ht] at hn
    cases hn
  | some nd => exact ⟨nd, rfl⟩

theorem Nodes.of_sameShape (h : Nodes t f) (hsame : SameShape t t') : Nodes t' f := by
  intro s n hs
  obtain ⟨nd, hn, hst⟩ := h s n hs
  obtain ⟨nd', hn', -, -, -, hst'⟩ := hsame.present hn
  exact ⟨nd', hn', hst'.trans hst⟩

theorem Inner.of_sameShape (h : Inner t) (hsame : SameShape t t') : Inner t' := by
  intro n nd' hn hst
  obtain ⟨nd, hnd⟩ := hsame.heap_back hn
  obtain ⟨nd'', hn', -, hl, hr, hst'⟩ := hsame.present hnd
  cases hn.symm.trans hn'
  rw [hl, hr]
  exact h n nd hnd (hst' ▸ hst)

theorem Good.congr (h : Good t f owned) (hheap : t'.heap = t.heap) (hroot : t'.root = t.root)
    (hnext : t'.next = t.next) : Good t' f owned := by
  obtain ⟨ids, root, heap, next, ptreeNode⟩ := t
  obtain ⟨ids', root', heap', next', ptreeNode'⟩ := t'
  subst hheap
  subst hroot
  subst hnext
  obtain ⟨hs, hn, he⟩ := h
  exact ⟨⟨hs.fresh, hs.child, hs.parent, hs.sides, hs.top, hs.root, hs.leaf, hs.null⟩, hn, he⟩

/-! ## Marking the links to an added state -/

theorem insertUp_spec (h : Shape t) {fuel pnode : Nat} (hn : t.heap pnode = some nd)
    (hfuel : pnode < fuel)
    (hclosed : ∀ n p, Up t.parentOf pnode n → Up t.parentOf n p → (t.tagOf n).getLsbD i = true →
      (t.tagOf p).getLsbD i = true) :
    ∃ t', insertUp (Process.mask i) fuel t pnode = some t' ∧ SameShape t t' ∧ Shape t' ∧
      ∀ n md, t.heap n = some md → ∀ j : Fin ptrBitCount, (t'.tagOf n).getLsbD j = true ↔
        (t.tagOf n).getLsbD j = true ∨ j = i ∧ Up t.parentOf pnode n := by
  induction fuel generalizing t pnode nd with
  | zero => omega
  | succ fuel ih =>
    obtain ⟨slot, link, hslot, hlink, hptr, hint⟩ := h.slot hn
    cases hour : (t.tagOf pnode).getLsbD i with
    | true =>
      refine ⟨t, ?_, .refl t, h, ?_⟩
      · simp [insertUp, hn, hslot, hlink, isOurNodeValid_eq, hptr, hint, hour]
      · intro n md hmd j
        constructor
        · exact .inl
        · rintro (hj | ⟨rfl, hup⟩)
          · exact hj
          · exact hclosed pnode n (up_refl _ _) hup hour
    | false =>
      obtain ⟨hsame, hshape, htag, hother⟩ := h.setTag hn hslot hlink (link.int ||| Process.mask i)
      have hstep : insertUp (Process.mask i) (fuel + 1) t pnode =
          nd.parent.elim (some (t.set slot { link with int := link.int ||| Process.mask i }))
            (insertUp (Process.mask i) fuel (t.set slot { link with int := link.int ||| Process.mask i })) := by
        simp only [insertUp, hn, hslot, hlink, Option.bind_eq_bind, Option.bind_some, isOurNodeValid_eq, hptr, hint, hour,
          Option.isSome_some, Bool.and_false, Bool.false_eq_true, if_false]
        cases nd.parent <;> rfl
      -- the tag of the node itself, and of the others
      have hself : ∀ j : Fin ptrBitCount, ((t.set slot { link with int := link.int ||| Process.mask i }).tagOf pnode).getLsbD j
          = true ↔ (t.tagOf pnode).getLsbD j = true ∨ j = i := by
        intro j
        rw [htag, hint, bit_set]
        simp
      generalize t.set slot { link with int := link.int ||| Process.mask i } = t₁ at *
      cases hp : nd.parent with
      | none =>
        refine ⟨t₁, by rw [hstep, hp, Option.elim_none], hsame, hshape, ?_⟩
        intro n md hmd j
        have hroot : Up t.parentOf pnode n ↔ pnode = n := up_root ((parentOf_eq hn).trans hp)
        rw [hroot]
        by_cases hnp : n = pnode
        · subst hnp
          rw [hself]
          simp
        · rw [hother n md hnp hmd]
          simp [Ne.symm hnp]
      | some p =>
        have hpar : t.parentOf pnode = some p := (parentOf_eq hn).trans hp
        have hlt : p < pnode := (h.child (h.parent hpar)).2
        obtain ⟨pd, hpd, -⟩ := h.parent hpar
        obtain ⟨pd', hpd', -⟩ := hsame.present hpd
        have hupp : ∀ n, Up t.parentOf p n → n ≠ pnode := by
          intro n hup
          have := h.le_of_up hup
          omega
        -- the links above are as before, so the hypothesis on them is still there
        have hclosed' : ∀ n q, Up t₁.parentOf p n → Up t₁.parentOf n q → (t₁.tagOf n).getLsbD i = true →
            (t₁.tagOf q).getLsbD i = true := by
          intro n q hpn hnq hbit
          rw [hsame.parentOf] at hpn hnq
          obtain ⟨nd', hnd'⟩ := h.heap_of_up hpd hpn
          obtain ⟨qd', hqd'⟩ := h.heap_of_up hpd (hpn.trans hnq)
          rw [hother n nd' (hupp n hpn) hnd'] at hbit
          rw [hother q qd' (hupp q (hpn.trans hnq)) hqd']
          exact hclosed n q ((up_parent hpar).trans hpn) hnq hbit
        obtain ⟨t', hrun, hsame', hshape', htags⟩ := ih hshape hpd' (by omega) hclosed'
        refine ⟨t', by rw [hstep, hp]; exact hrun, hsame.trans hsame', hshape', ?_⟩
        intro n md hmd j
        obtain ⟨md', hmd', -⟩ := hsame.present hmd
        rw [htags n md' hmd' j, hsame.parentOf]
        have hhead : Up t.parentOf pnode n ↔ pnode = n ∨ Up t.parentOf p n := by
          rw [up_iff_head]
          simp [hpar]
        rw [hhead]
        by_cases hnp : n = pnode
        · subst hnp
          have hnot : ¬Up t.parentOf p n := fun hup => hupp n hup rfl
          rw [hself]
          simp [hnot]
        · rw [hother n md hnp hmd]
          simp [Ne.symm hnp]

theorem Good.insertState (h : Good t t.ptreeNode owned) {es : StateId} (hlive : (t.ptreeNode es).isSome) :
    ∃ t', insertState (Process.mask i) t es = some t' ∧ SameShape t t' ∧
      Good t' t'.ptreeNode (Function.update owned i (insert es (owned i))) := by
  obtain ⟨pnode, hpnode⟩ := Option.isSome_iff_exists.mp hlive
  obtain ⟨nd, hn, hstate⟩ := h.nodes es pnode hpnode
  have hclosed : ∀ n p, Up t.parentOf pnode n → Up t.parentOf n p → (t.tagOf n).getLsbD i = true →
      (t.tagOf p).getLsbD i = true := by
    intro n p hpn hnp hbit
    obtain ⟨nd', hnd'⟩ := h.shape.heap_of_up hn hpn
    obtain ⟨pd, hpd⟩ := h.shape.heap_of_up hnd' hnp
    exact (h.exact i p pd hpd).mpr (((h.exact i n nd' hnd').mp hbit).up hnp)
  obtain ⟨t', hrun, hsame, hshape, htags⟩ := insertUp_spec h.shape hn (Nat.lt_succ_self pnode) hclosed
  refine ⟨t', by simp [PTree.insertState, hpnode, hrun], hsame, hshape, ?_, ?_⟩
  · rw [hsame.ptreeNode]
    exact h.nodes.of_sameShape hsame
  · intro j n nd' hn'
    obtain ⟨nd₀, hn₀⟩ := hsame.heap_back hn'
    rw [htags n nd₀ hn₀ j, ownedBelow_congr hsame.parentOf, hsame.ptreeNode, h.exact j n nd₀ hn₀]
    by_cases hji : j = i
    · subst hji
      rw [Function.update_self, ownedBelow_insert hpnode]
      simp
    · rw [Function.update_of_ne hji]
      simp [hji]

/-! ## Unmarking the links to a removed state -/

theorem children_iff (h : Shape t) (hn : t.heap n = some nd)
    (hexact : ∀ c cd, t.heap c = some cd → t.parentOf c = some n →
      ((t.tagOf c).getLsbD i = true ↔ OwnedBelow t f own c)) :
    (isOurNodeValid (Process.mask i) nd.left = true ∨ isOurNodeValid (Process.mask i) nd.right = true) ↔
      ∃ c, t.parentOf c = some n ∧ OwnedBelow t f own c := by
  simp only [isOurNodeValid_eq, Bool.and_eq_true]
  constructor
  · rintro (⟨hptr, hbit⟩ | ⟨hptr, hbit⟩)
    · obtain ⟨c, hc⟩ := Option.isSome_iff_exists.mp hptr
      have hpar := (h.child ⟨nd, hn, .inl hc⟩).1
      obtain ⟨cd, hcd, hcp⟩ := heap_of_parentOf hpar
      refine ⟨c, hpar, (hexact c cd hcd hpar).mp ?_⟩
      rw [tagOf_left hcd hcp hn hc, hbit]
    · obtain ⟨c, hc⟩ := Option.isSome_iff_exists.mp hptr
      have hpar := (h.child ⟨nd, hn, .inr hc⟩).1
      obtain ⟨cd, hcd, hcp⟩ := heap_of_parentOf hpar
      refine ⟨c, hpar, (hexact c cd hcd hpar).mp ?_⟩
      rw [tagOf_right hcd hcp hn (fun hl => h.sides hn hl hc), hbit]
  · rintro ⟨c, hpar, hbelow⟩
    obtain ⟨cd, hcd, hcp⟩ := heap_of_parentOf hpar
    have hbit := (hexact c cd hcd hpar).mpr hbelow
    obtain ⟨nd', hn', hc⟩ := h.parent hpar
    cases hn.symm.trans hn'
    by_cases hl : nd.left.pointer = some c
    · rw [tagOf_left hcd hcp hn hl] at hbit
      exact .inl ⟨by rw [hl]; rfl, hbit⟩
    · rw [tagOf_right hcd hcp hn hl] at hbit
      exact .inr ⟨by rw [hc.resolve_left hl]; rfl, hbit⟩

/-- The loop, from a node on up to which the bits are too many: they are set although no state need be below. -/
theorem removeUp_spec (h : Shape t) {fuel pnode : Nat} (hn : t.heap pnode = some nd)
    (hfuel : pnode < fuel) (hstate : ∀ n, Up t.parentOf pnode n → ∀ s ∈ own, f s ≠ some n)
    (hbits : ∀ n md, t.heap n = some md →
      ((t.tagOf n).getLsbD i = true ↔ OwnedBelow t f own n ∨ Up t.parentOf pnode n)) :
    ∃ t', removeUp (Process.mask i) fuel t pnode = some t' ∧ SameShape t t' ∧ Shape t' ∧
      ∀ n md, t.heap n = some md → ((t'.tagOf n).getLsbD i = true ↔ OwnedBelow t f own n) ∧
        ∀ j : Fin ptrBitCount, j ≠ i → (t'.tagOf n).getLsbD j = (t.tagOf n).getLsbD j := by
  induction fuel generalizing t pnode nd with
  | zero => omega
  | succ fuel ih =>
    have hkids : ∀ c cd, t.heap c = some cd → t.parentOf c = some pnode →
        ((t.tagOf c).getLsbD i = true ↔ OwnedBelow t f own c) := by
      intro c cd hcd hpar
      rw [hbits c cd hcd]
      have hlt := (h.child (h.parent hpar)).2
      have hnot : ¬Up t.parentOf pnode c := fun hup => by
        have := h.le_of_up hup
        omega
      simp [hnot]
    have hiff := children_iff h hn hkids
    by_cases hour : isOurNodeValid (Process.mask i) nd.left = true ∨ isOurNodeValid (Process.mask i) nd.right = true
    · -- a state is below a child, hence below every ancestor, and no bit is too many
      refine ⟨t, by simp [removeUp, hn, if_pos hour], .refl t, h, ?_⟩
      intro n md hmd
      refine ⟨?_, fun _ _ => rfl⟩
      rw [hbits n md hmd]
      constructor
      · rintro (hbelow | hup)
        · exact hbelow
        · obtain ⟨c, hpar, hbelow⟩ := hiff.mp hour
          exact hbelow.up ((up_parent hpar).trans hup)
      · exact .inl
    · have hnone : ¬OwnedBelow t f own pnode := by
        rw [ownedBelow_iff]
        rintro (⟨s, hs, hfs⟩ | hchild)
        · exact hstate pnode (up_refl _ _) s hs hfs
        · exact hour (hiff.mpr hchild)
      have hset : (t.tagOf pnode).getLsbD i = true := (hbits pnode nd hn).mpr (.inr (up_refl _ _))
      obtain ⟨slot, link, hslot, hlink, hptr, hint⟩ := h.slot hn
      obtain ⟨hsame, hshape, htag, hother⟩ := h.setTag hn hslot hlink (link.int &&& ~~~Process.mask i)
      have hstep : removeUp (Process.mask i) (fuel + 1) t pnode =
          nd.parent.elim (some (t.set slot { link with int := link.int &&& ~~~Process.mask i }))
            (removeUp (Process.mask i) fuel (t.set slot { link with int := link.int &&& ~~~Process.mask i })) := by
        have hvalid : isOurNodeValid (Process.mask i) link = true := by
          rw [isOurNodeValid_eq, hptr, hint, hset]
          rfl
        simp only [removeUp, hn, hslot, hlink, Option.bind_eq_bind, Option.bind_some, if_neg hour, hvalid, Bool.not_true,
          Bool.false_eq_true, if_false]
        cases nd.parent <;> rfl
      have hself : ∀ j : Fin ptrBitCount,
          ((t.set slot { link with int := link.int &&& ~~~Process.mask i }).tagOf pnode).getLsbD j =
            ((t.tagOf pnode).getLsbD j && decide (j ≠ i)) := by
        intro j
        rw [htag, hint, bit_clear]
      generalize t.set slot { link with int := link.int &&& ~~~Process.mask i } = t₁ at *
      cases hp : nd.parent with
      | none =>
        refine ⟨t₁, by rw [hstep, hp, Option.elim_none], hsame, hshape, ?_⟩
        intro n md hmd
        have hroot : Up t.parentOf pnode n ↔ pnode = n := up_root ((parentOf_eq hn).trans hp)
        by_cases hnp : n = pnode
        · subst hnp
          exact ⟨by rw [hself]; simp [hnone], fun j hj => by rw [hself]; simp [hj]⟩
        · rw [hother n md hnp hmd]
          refine ⟨?_, fun _ _ => rfl⟩
          rw [hbits n md hmd, hroot]
          simp [Ne.symm hnp]
      | some p =>
        have hpar : t.parentOf pnode = some p := (parentOf_eq hn).trans hp
        have hlt : p < pnode := (h.child (h.parent hpar)).2
        obtain ⟨pd, hpd, -⟩ := h.parent hpar
        obtain ⟨pd', hpd', -⟩ := hsame.present hpd
        have hnotUp : ¬Up t.parentOf p pnode := fun hup => by
          have := h.le_of_up hup
          omega
        have hstate' : ∀ n, Up t₁.parentOf p n → ∀ s ∈ own, f s ≠ some n := by
          intro n hup
          rw [hsame.parentOf] at hup
          exact hstate n ((up_parent hpar).trans hup)
        have hbits' : ∀ n md, t₁.heap n = some md →
            ((t₁.tagOf n).getLsbD i = true ↔ OwnedBelow t₁ f own n ∨ Up t₁.parentOf p n) := by
          intro n md hmd
          obtain ⟨md₀, hmd₀⟩ := hsame.heap_back hmd
          rw [ownedBelow_congr hsame.parentOf, hsame.parentOf]
          by_cases hnp : n = pnode
          · subst hnp
            rw [hself]
            simp [hnone, hnotUp]
          · rw [hother n md₀ hnp hmd₀, hbits n md₀ hmd₀, up_iff_head]
            simp [hpar, Ne.symm hnp]
        obtain ⟨t', hrun, hsame', hshape', htags⟩ := ih hshape hpd' (by omega) hstate' hbits'
        refine ⟨t', by rw [hstep, hp]; exact hrun, hsame.trans hsame', hshape', ?_⟩
        intro n md hmd
        obtain ⟨md', hmd', -⟩ := hsame.present hmd
        obtain ⟨hi, hj⟩ := htags n md' hmd'
        rw [ownedBelow_congr hsame.parentOf] at hi
        refine ⟨hi, ?_⟩
        intro j hji
        rw [hj j hji]
        by_cases hnp : n = pnode
        · subst hnp
          rw [hself]
          simp [hji]
        · rw [hother n md hnp hmd]

theorem Good.removeState (h : Good t t.ptreeNode owned) {es : StateId} (hown : es ∈ owned i)
    (hlive : (t.ptreeNode es).isSome) :
    ∃ t', removeState (Process.mask i) t es = some t' ∧ SameShape t t' ∧
      Good t' t'.ptreeNode (Function.update owned i ((owned i).erase es)) := by
  obtain ⟨pnode, hpnode⟩ := Option.isSome_iff_exists.mp hlive
  obtain ⟨nd, hn, hst⟩ := h.nodes es pnode hpnode
  have herase : ∀ n, OwnedBelow t t.ptreeNode (owned i) n ↔
      OwnedBelow t t.ptreeNode ((owned i).erase es) n ∨ Up t.parentOf pnode n := by
    intro n
    rw [← ownedBelow_insert hpnode, Finset.insert_erase hown]
  have hstate : ∀ n, Up t.parentOf pnode n → ∀ s ∈ (owned i).erase es, t.ptreeNode s ≠ some n := by
    intro n hup s hs hsn
    obtain ⟨nd', hn', hst'⟩ := h.nodes s n hsn
    -- the node of a state has no child, so the only such node above is the state's own
    have hleaf : ∀ x, t.parentOf x ≠ some n := by
      intro x hx
      obtain ⟨nd'', hn'', hc⟩ := h.shape.parent hx
      cases hn'.symm.trans hn''
      obtain ⟨hl, hr⟩ := h.shape.leaf hn' (by simp [hst'])
      simp [hl, hr] at hc
    obtain rfl := (up_of_leaf hleaf).mp hup
    cases hn.symm.trans hn'
    rw [hst, Option.some.injEq] at hst'
    exact (Finset.ne_of_mem_erase hs) hst'.symm
  have hbits : ∀ n md, t.heap n = some md → ((t.tagOf n).getLsbD i = true ↔
      OwnedBelow t t.ptreeNode ((owned i).erase es) n ∨ Up t.parentOf pnode n) := by
    intro n md hmd
    rw [h.exact i n md hmd, herase]
  obtain ⟨t', hrun, hsame, hshape, htags⟩ := removeUp_spec h.shape hn (Nat.lt_succ_self pnode) hstate hbits
  refine ⟨t', by simp [PTree.removeState, hpnode, hrun], hsame, hshape, ?_, ?_⟩
  · rw [hsame.ptreeNode]
    exact h.nodes.of_sameShape hsame
  · intro j n nd' hn'
    obtain ⟨nd₀, hn₀⟩ := hsame.heap_back hn'
    rw [ownedBelow_congr hsame.parentOf, hsame.ptreeNode]
    obtain ⟨hi, hj⟩ := htags n nd₀ hn₀
    by_cases hji : j = i
    · subst hji
      rw [Function.update_self, hi]
    · rw [Function.update_of_ne hji, hj j hji, h.exact j n nd₀ hn₀]

end PTree

end CgsKlee
