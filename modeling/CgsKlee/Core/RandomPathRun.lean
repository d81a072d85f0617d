import CgsKlee.Core.PTreeRemove
import Mathlib.Data.Finset.Lattice.Lemmas

/-!
# Random path searchers over a run

In every process tree that the executor's calls lead to, the tags are exact: the bit of a searcher is on a link iff one
of its states is below.  So the walk of `selectState` ends at a state of the searcher, and what the searcher can reach
along its links is what it has.
-/

namespace CgsKlee

open Forest PTree

namespace Process

structure Sound (s : Process) : Prop where
  good : Good s.tree s.tree.ptreeNode s.owned
  inner : Inner s.tree
  live : ∀ i, ∀ es ∈ s.owned i, s.Live es

variable {s s' : Process} {i : Fin ptrBitCount}

theorem sound_init (initialState : StateId) : (init initialState).Sound := by
  have hheap : ∀ {n nd}, (PTree.init initialState).heap n = some nd →
      n = 0 ∧ nd = { parent := none, state := some initialState } := by
    intro n nd hn
    by_cases h0 : n = 0
    · subst h0
      simp only [PTree.init, Function.update_self, Option.some.injEq] at hn
      exact ⟨rfl, hn.symm⟩
    · simp [PTree.init, Function.update_of_ne h0] at hn
  refine ⟨⟨.of_fits ?_ ?_ ?_ ?_ ?_, ?_, ?_⟩, ?_, ?_⟩
  · intro n hn
    have h0 : n ≠ 0 := by
      have : 1 ≤ n := hn
      omega
    simp [init, PTree.init, Function.update_of_ne h0]
  · rintro p c ⟨nd, hnd, hc⟩
    obtain ⟨-, rfl⟩ := hheap hnd
    simp at hc
  · intro n p hp
    obtain ⟨nd, hnd, hnp⟩ := heap_of_parentOf hp
    obtain ⟨-, rfl⟩ := hheap hnd
    cases hnp
  · exact ⟨0, rfl, Nat.one_pos, rfl, fun _ => rfl⟩
  · intro n nd hnd
    obtain ⟨rfl, rfl⟩ := hheap hnd
    exact ⟨by simp, fun _ => rfl, fun _ => ⟨rfl, rfl⟩, ⟨fun _ => rfl, fun _ => rfl⟩⟩
  · intro es n hes
    have hes : Function.update (fun _ => none) initialState (some 0) es = some n := hes
    by_cases heq : es = initialState
    · subst heq
      rw [Function.update_self, Option.some.injEq] at hes
      subst hes
      exact ⟨_, rfl, rfl⟩
    · rw [Function.update_of_ne heq] at hes
      cases hes
  · intro i n nd hnd
    obtain ⟨rfl, rfl⟩ := hheap hnd
    have htag : (init initialState).tree.tagOf 0 = 0 := rfl
    rw [htag, bit_zero]
    refine iff_of_false Bool.false_ne_true ?_
    rintro ⟨es, hes, -⟩
    simp [init] at hes
  · intro n nd hnd hst
    obtain ⟨-, rfl⟩ := hheap hnd
    cases hst
  · intro i es hes
    simp [init] at hes

/-! ## The calls -/

theorem Sound.newSearcher (h : s.Sound) (hok : s.Allowed .newSearcher) (c : Bool) :
    ∃ s', s.step c .newSearcher = some s' ∧ s'.Sound ∧ s'.owned = s.owned := by
  have hlt : ¬ptrBitCount < s.tree.registeredIds + 1 := by
    have : s.tree.registeredIds < ptrBitCount := hok
    omega
  refine ⟨⟨{ s.tree with registeredIds := s.tree.registeredIds + 1 }, s.owned⟩, by simp [step, getNextId, hlt], ?_, rfl⟩
  exact ⟨h.good.congr rfl rfl rfl, h.inner, h.live⟩

theorem Sound.attach (h : s.Sound) {current added : StateId} (hok : s.Allowed (.attach current added)) (c : Bool) :
    ∃ s', s.step c (.attach current added) = some s' ∧ s'.Sound ∧ s'.owned = s.owned := by
  obtain ⟨hcur, hadd⟩ := hok
  obtain ⟨node, hnode⟩ := Option.isSome_iff_exists.mp hcur
  have hnone : s.tree.ptreeNode added = none := by simpa [Live] using hadd
  obtain ⟨t', hrun, hgood, hinner, -, hlive⟩ := h.good.attach h.inner h.live hnode hnone
  refine ⟨⟨t', s.owned⟩, by simp [step, hnode, hrun], ⟨hgood, hinner, ?_⟩, rfl⟩
  intro i es hes
  exact (hlive es).mpr (.inl (h.live i es hes))

theorem insertStates {t : PTree} {owned : Fin ptrBitCount → Finset StateId} (h : Good t t.ptreeNode owned)
    (added : List StateId) (hlive : ∀ es ∈ added, (t.ptreeNode es).isSome) :
    ∃ t', added.foldlM (insertState (mask i)) t = some t' ∧ SameShape t t' ∧
      Good t' t'.ptreeNode (Function.update owned i (owned i ∪ added.toFinset)) := by
  induction added generalizing t owned with
  | nil =>
    refine ⟨t, rfl, .refl t, ?_⟩
    rw [List.toFinset_nil, Finset.union_empty, Function.update_eq_self]
    exact h
  | cons es added ih =>
    obtain ⟨t₁, hrun, hsame, hgood⟩ := h.insertState (i := i) (hlive es (by simp))
    obtain ⟨t₂, hrun', hsame', hgood'⟩ := ih hgood fun e he => by
      rw [hsame.ptreeNode]
      exact hlive e (by simp [he])
    refine ⟨t₂, by simp [List.foldlM_cons, hrun, hrun'], hsame.trans hsame', ?_⟩
    have heq : insert es (owned i) ∪ added.toFinset = owned i ∪ (es :: added).toFinset := by
      ext x
      simp only [Finset.mem_union, Finset.mem_insert, List.mem_toFinset, List.mem_cons]
      tauto
    rw [Function.update_self, Function.update_idem, heq] at hgood'
    exact hgood'

theorem removeStates {t : PTree} {owned : Fin ptrBitCount → Finset StateId} (h : Good t t.ptreeNode owned)
    (removed : List StateId) (hnodup : removed.Nodup) (hown : ∀ es ∈ removed, es ∈ owned i)
    (hlive : ∀ es ∈ removed, (t.ptreeNode es).isSome) :
    ∃ t', removed.foldlM (removeState (mask i)) t = some t' ∧ SameShape t t' ∧
      Good t' t'.ptreeNode (Function.update owned i (owned i \ removed.toFinset)) := by
  induction removed generalizing t owned with
  | nil =>
    refine ⟨t, rfl, .refl t, ?_⟩
    rw [List.toFinset_nil, Finset.sdiff_empty, Function.update_eq_self]
    exact h
  | cons es removed ih =>
    obtain ⟨hnot, hnodup⟩ := List.nodup_cons.mp hnodup
    obtain ⟨t₁, hrun, hsame, hgood⟩ := h.removeState (hown es (by simp)) (hlive es (by simp))
    obtain ⟨t₂, hrun', hsame', hgood'⟩ := ih hgood hnodup (fun e he => by
        rw [Function.update_self, Finset.mem_erase]
        exact ⟨fun heq => hnot (heq ▸ he), hown e (by simp [he])⟩) fun e he => by
      rw [hsame.ptreeNode]
      exact hlive e (by simp [he])
    refine ⟨t₂, by simp [List.foldlM_cons, hrun, hrun'], hsame.trans hsame', ?_⟩
    have heq : (owned i).erase es \ removed.toFinset = owned i \ (es :: removed).toFinset := by
      ext x
      simp only [Finset.mem_sdiff, Finset.mem_erase, List.mem_toFinset, List.mem_cons]
      tauto
    rw [Function.update_self, Function.update_idem, heq] at hgood'
    exact hgood'

theorem Sound.update (h : s.Sound) {added removed : List StateId} (hok : s.Allowed (.update i added removed)) (c : Bool) :
    ∃ s', s.step c (.update i added removed) = some s' ∧ s'.Sound ∧
      s'.owned = Function.update s.owned i ((s.owned i ∪ added.toFinset) \ removed.toFinset) := by
  obtain ⟨-, hadd, hnodup, hrem⟩ := hok
  have hlive : ∀ es ∈ s.owned i ∪ added.toFinset, (s.tree.ptreeNode es).isSome := by
    intro es hes
    obtain hes | hes := Finset.mem_union.mp hes
    · exact h.live i es hes
    · exact hadd es (List.mem_toFinset.mp hes)
  obtain ⟨t₁, hrun, hsame, hgood⟩ := insertStates (i := i) h.good added hadd
  obtain ⟨t₂, hrun', hsame', hgood'⟩ := removeStates hgood removed hnodup
    (fun es hes => by rw [Function.update_self]; exact hrem es hes)
    (fun es hes => by rw [hsame.ptreeNode]; exact hlive es (hrem es hes))
  rw [Function.update_self, Function.update_idem] at hgood'
  refine ⟨⟨t₂, Function.update s.owned i ((s.owned i ∪ added.toFinset) \ removed.toFinset)⟩,
    by simp [step, PTree.update, hrun, hrun'], ⟨hgood', ?_, ?_⟩, rfl⟩
  · exact (h.inner.of_sameShape hsame).of_sameShape hsame'
  · intro j es hes
    show (t₂.ptreeNode es).isSome
    rw [hsame'.ptreeNode, hsame.ptreeNode]
    by_cases hji : j = i
    · subst hji
      simp only [Function.update_self, Finset.mem_sdiff] at hes
      exact hlive es hes.1
    · simp only [Function.update_of_ne hji] at hes
      exact h.live j es hes

theorem Sound.terminate (h : s.Sound) {state : StateId} (hok : s.Allowed (.terminate state)) (c : Bool) :
    ∃ s', s.step c (.terminate state) = some s' ∧ s'.Sound ∧ s'.owned = s.owned := by
  obtain ⟨hlive, hnot⟩ := hok
  obtain ⟨node, hnode⟩ := Option.isSome_iff_exists.mp hlive
  obtain ⟨nd, hnd, hst⟩ := h.good.nodes state node hnode
  -- the tree with the nodes of the other states
  have hne : ∀ {es n}, Function.update s.tree.ptreeNode state none es = some n → es ≠ state ∧ s.tree.ptreeNode es = some n := by
    intro es n hes
    have hes' : es ≠ state := by
      rintro rfl
      simp at hes
    exact ⟨hes', (Function.update_of_ne hes' ..).symm.trans hes⟩
  have hgood : Good s.tree (Function.update s.tree.ptreeNode state none) s.owned := by
    refine ⟨h.good.shape, fun es n hes => h.good.nodes es n (hne hes).2, ?_⟩
    intro i n nd hnd
    rw [h.good.exact i n nd hnd]
    constructor
    · rintro ⟨es, hes, m, hm, hup⟩
      have hes' : es ≠ state := by
        rintro rfl
        exact hnot i hes
      exact ⟨es, hes, m, (Function.update_of_ne hes' ..).trans hm, hup⟩
    · rintro ⟨es, hes, m, hm, hup⟩
      exact ⟨es, hes, m, (hne hm).2, hup⟩
  have hnobody : ∀ es, Function.update s.tree.ptreeNode state none es ≠ some node := by
    intro es hes
    obtain ⟨hes', hnode'⟩ := hne hes
    obtain ⟨nd', hnd', hst'⟩ := h.good.nodes es node hnode'
    cases hnd.symm.trans hnd'
    rw [hst, Option.some.injEq] at hst'
    exact hes' hst'.symm
  obtain ⟨t', hrun, hgood', hinner, hptree, -⟩ := hgood.remove h.inner c hnd (by simp [hst]) hnobody
  refine ⟨⟨{ t' with ptreeNode := Function.update t'.ptreeNode state none }, s.owned⟩, by simp [step, hnode, hrun],
    ⟨?_, hinner, ?_⟩, rfl⟩
  · rw [← hptree] at hgood'
    exact hgood'.congr rfl rfl rfl
  · intro i es hes
    have hes' : es ≠ state := by
      rintro rfl
      exact hnot i hes
    show (Function.update t'.ptreeNode state none es).isSome
    rw [Function.update_of_ne hes', hptree]
    exact h.live i es hes

theorem Sound.step (h : s.Sound) (c : Bool) {e : Event} (hok : s.Allowed e) :
    ∃ s', s.step c e = some s' ∧ s'.Sound ∧
      ∀ j, (∀ added removed, e ≠ .update j added removed) → s'.owned j = s.owned j := by
  cases e with
  | newSearcher =>
    obtain ⟨s', hrun, hsound, howned⟩ := h.newSearcher hok c
    exact ⟨s', hrun, hsound, fun j _ => by rw [howned]⟩
  | attach current added =>
    obtain ⟨s', hrun, hsound, howned⟩ := h.attach hok c
    exact ⟨s', hrun, hsound, fun j _ => by rw [howned]⟩
  | update i added removed =>
    obtain ⟨s', hrun, hsound, howned⟩ := h.update hok c
    refine ⟨s', hrun, hsound, fun j hj => ?_⟩
    have hji : j ≠ i := by
      rintro rfl
      exact hj added removed rfl
    rw [howned, Function.update_of_ne hji]
  | terminate state =>
    obtain ⟨s', hrun, hsound, howned⟩ := h.terminate hok c
    exact ⟨s', hrun, hsound, fun j _ => by rw [howned]⟩

theorem Reachable.sound {c : Bool} {initialState : StateId} (h : Reachable c initialState s) : s.Sound := by
  induction h with
  | start => exact sound_init initialState
  | step _ hok hstep ih =>
    obtain ⟨s', hrun, hsound, -⟩ := ih.step c hok
    rw [hstep, Option.some.injEq] at hrun
    exact hrun ▸ hsound

/-! ## What the links say -/

def Below (s : Process) (i : Fin ptrBitCount) (n : Nat) : Prop :=
  ∃ es ∈ s.owned i, ∃ m, s.tree.ptreeNode es = some m ∧ Up s.tree.parentOf m n

variable {n : Nat} {nd : PTreeNode}

theorem Sound.link_iff (h : s.Sound) (i : Fin ptrBitCount) {slot : Slot} {link : PTreeNodePtr}
    (hlink : s.tree.get slot = some link) (hn : link.pointer = some n) : link.int.getLsbD i = true ↔ s.Below i n := by
  have hs := h.good.shape
  have hheap : ∀ p, HasChild s.tree p n → ∃ nd, s.tree.heap n = some nd ∧ nd.parent = some p :=
    fun p hc => heap_of_parentOf (hs.child hc).1
  cases slot with
  | root =>
    obtain rfl : s.tree.root = link := by simpa [PTree.get] using hlink
    obtain ⟨r, hr, -, hpar, htag⟩ := hs.root
    obtain rfl : r = n := by simpa [hr] using hn
    cases hheap : s.tree.heap r with
    | none =>
      -- the whole tree is gone
      rw [htag hheap, bit_zero]
      refine iff_of_false Bool.false_ne_true ?_
      rintro ⟨es, -, m, hm, hup⟩
      obtain ⟨md, hmd, -⟩ := h.good.nodes es m hm
      obtain ⟨rd, hrd⟩ := hs.heap_of_up hmd hup
      rw [hheap] at hrd
      cases hrd
    | some rd =>
      rw [← tagOf_root hheap ((parentOf_eq hheap).symm.trans hpar)]
      exact h.good.exact i r rd hheap
  | left p =>
    obtain ⟨pd, hpd, rfl⟩ : ∃ pd, s.tree.heap p = some pd ∧ pd.left = link := by simpa [PTree.get] using hlink
    obtain ⟨nd, hnd, hnp⟩ := hheap p ⟨pd, hpd, .inl hn⟩
    rw [← tagOf_left hnd hnp hpd hn]
    exact h.good.exact i n nd hnd
  | right p =>
    obtain ⟨pd, hpd, rfl⟩ : ∃ pd, s.tree.heap p = some pd ∧ pd.right = link := by simpa [PTree.get] using hlink
    obtain ⟨nd, hnd, hnp⟩ := hheap p ⟨pd, hpd, .inr hn⟩
    rw [← tagOf_right hnd hnp hpd (fun hl => hs.sides hpd hl hn)]
    exact h.good.exact i n nd hnd

theorem Sound.valid_iff (h : s.Sound) (i : Fin ptrBitCount) {slot : Slot} {link : PTreeNodePtr}
    (hlink : s.tree.get slot = some link) :
    isOurNodeValid (mask i) link = true ↔ ∃ n, link.pointer = some n ∧ s.Below i n := by
  rw [isOurNodeValid_eq]
  cases hptr : link.pointer with
  | none => simp
  | some n =>
    have hsome : (some n).isSome = true := rfl
    rw [hsome, Bool.true_and, h.link_iff i hlink hptr]
    constructor
    · intro hbelow
      exact ⟨n, rfl, hbelow⟩
    · rintro ⟨m, hm, hbelow⟩
      rw [Option.some.injEq] at hm
      exact hm ▸ hbelow

theorem Sound.valid_root_iff (h : s.Sound) (i : Fin ptrBitCount) :
    isOurNodeValid (mask i) s.tree.root = true ↔ ∃ n, s.tree.root.pointer = some n ∧ s.Below i n := by
  have hget : s.tree.get .root = some s.tree.root := rfl
  exact h.valid_iff i hget

theorem get_left {t : PTree} (hn : t.heap n = some nd) : t.get (.left n) = some nd.left := by simp [PTree.get, hn]

theorem get_right {t : PTree} (hn : t.heap n = some nd) : t.get (.right n) = some nd.right := by simp [PTree.get, hn]

theorem Sound.root_above (h : s.Sound) (hn : s.tree.heap n = some nd) :
    ∃ r, s.tree.root.pointer = some r ∧ Up s.tree.parentOf n r := by
  induction n using Nat.strong_induction_on generalizing nd with
  | _ n ih =>
    cases hp : nd.parent with
    | none => exact ⟨n, h.good.shape.top hn hp, up_refl _ _⟩
    | some p =>
      have hpar := (parentOf_eq hn).trans hp
      obtain ⟨pd, hpd, -⟩ := h.good.shape.parent hpar
      obtain ⟨r, hr, hup⟩ := ih p (h.good.shape.child (h.good.shape.parent hpar)).2 hpd
      exact ⟨r, hr, (up_parent hpar).trans hup⟩

theorem Sound.below_root (h : s.Sound) {r : Nat} (hr : s.tree.root.pointer = some r) :
    s.Below i r ↔ (s.owned i).Nonempty := by
  constructor
  · rintro ⟨es, hes, -⟩
    exact ⟨es, hes⟩
  · rintro ⟨es, hes⟩
    obtain ⟨m, hm⟩ := Option.isSome_iff_exists.mp (h.live i es hes)
    obtain ⟨md, hmd, -⟩ := h.good.nodes es m hm
    obtain ⟨r', hr', hup⟩ := h.root_above hmd
    obtain rfl : r' = r := by simpa [hr'] using hr
    exact ⟨es, hes, m, hm, hup⟩

theorem Sound.empty_iff (h : s.Sound) (i : Fin ptrBitCount) : PTree.empty (mask i) s.tree = true ↔ s.owned i = ∅ := by
  have hvalid := h.valid_root_iff i
  obtain ⟨r, hr, -⟩ := h.good.shape.root
  rw [PTree.empty, Bool.not_eq_true', ← Bool.not_eq_true, hvalid, ← Finset.not_nonempty_iff_eq_empty]
  simp [hr, h.below_root hr]

/-! ## What a searcher can reach -/

inductive Walk (t : PTree) (idBitMask : Tag) : Nat → StateId → Prop
  | here {n : Nat} {nd : PTreeNode} {es : StateId} (hn : t.heap n = some nd) (hst : nd.state = some es) :
      Walk t idBitMask n es
  | left {n m : Nat} {nd : PTreeNode} {es : StateId} (hn : t.heap n = some nd)
      (hvalid : isOurNodeValid idBitMask nd.left = true) (hm : nd.left.pointer = some m)
      (h : Walk t idBitMask m es) : Walk t idBitMask n es
  | right {n m : Nat} {nd : PTreeNode} {es : StateId} (hn : t.heap n = some nd)
      (hvalid : isOurNodeValid idBitMask nd.right = true) (hm : nd.right.pointer = some m)
      (h : Walk t idBitMask m es) : Walk t idBitMask n es

/-- A state at the end of a walk from the root. -/
def Reaches (s : Process) (i : Fin ptrBitCount) (es : StateId) : Prop :=
  isOurNodeValid (mask i) s.tree.root = true ∧ ∃ r, s.tree.root.pointer = some r ∧ Walk s.tree (mask i) r es

theorem Sound.owned_of_leaf (h : s.Sound) {es : StateId} (hn : s.tree.heap n = some nd)
    (hst : nd.state = some es) (hbelow : s.Below i n) : es ∈ s.owned i := by
  obtain ⟨es', hes', m, hm, hup⟩ := hbelow
  obtain ⟨hl, hr⟩ := h.good.shape.leaf hn (by simp [hst])
  obtain rfl := (up_of_leaf (h.good.shape.no_child hn hl hr)).mp hup
  obtain ⟨nd', hn', hst'⟩ := h.good.nodes es' m hm
  cases hn.symm.trans hn'
  rw [hst, Option.some.injEq] at hst'
  exact hst' ▸ hes'

theorem Sound.below (h : s.Sound) {slot : Slot} {link : PTreeNodePtr} {m : Nat} (hget : s.tree.get slot = some link)
    (hm : link.pointer = some m) (hvalid : isOurNodeValid (mask i) link = true) : s.Below i m := by
  obtain ⟨m', hm', hbelow⟩ := (h.valid_iff i hget).mp hvalid
  cases hm.symm.trans hm'
  exact hbelow

theorem Sound.owned_of_walk (h : s.Sound) {es : StateId} (hw : Walk s.tree (mask i) n es)
    (hbelow : s.Below i n) : es ∈ s.owned i := by
  induction hw with
  | here hn hst => exact h.owned_of_leaf hn hst hbelow
  | left hn hvalid hm _ ih => exact ih (h.below (get_left hn) hm hvalid)
  | right hn hvalid hm _ ih => exact ih (h.below (get_right hn) hm hvalid)

theorem Sound.walk_of_owned (h : s.Sound) {es : StateId} (hes : es ∈ s.owned i) {m : Nat}
    (hm : s.tree.ptreeNode es = some m) (hup : Up s.tree.parentOf m n) : Walk s.tree (mask i) n es := by
  induction hup with
  | refl =>
    obtain ⟨md, hmd, hst⟩ := h.good.nodes es m hm
    exact .here hmd hst
  | @tail c n hup hpar ih =>
    have hbelow : s.Below i c := ⟨es, hes, m, hm, hup⟩
    obtain ⟨nd, hn, hl | hr⟩ := h.good.shape.parent hpar
    · exact .left hn ((h.valid_iff i (get_left hn)).mpr ⟨c, hl, hbelow⟩) hl ih
    · exact .right hn ((h.valid_iff i (get_right hn)).mpr ⟨c, hr, hbelow⟩) hr ih

theorem Sound.reaches_iff (h : s.Sound) (es : StateId) : s.Reaches i es ↔ es ∈ s.owned i := by
  have hvalid := h.valid_root_iff i
  constructor
  · rintro ⟨hroot, r, hr, hw⟩
    obtain ⟨r', hr', hbelow⟩ := hvalid.mp hroot
    obtain rfl : r' = r := by simpa [hr'] using hr
    exact h.owned_of_walk hw hbelow
  · intro hes
    obtain ⟨m, hm⟩ := Option.isSome_iff_exists.mp (h.live i es hes)
    obtain ⟨md, hmd, -⟩ := h.good.nodes es m hm
    obtain ⟨r, hr, hup⟩ := h.root_above hmd
    exact ⟨hvalid.mpr ⟨r, hr, es, hes, m, hm, hup⟩, r, hr, h.walk_of_owned hes hm hup⟩

/-! ## `selectState` -/

theorem Sound.heap_child (h : s.Sound) {m : Nat} (hc : HasChild s.tree n m) :
    n < m ∧ ∃ md, s.tree.heap m = some md := by
  obtain ⟨hpar, hlt⟩ := h.good.shape.child hc
  obtain ⟨md, hmd, -⟩ := heap_of_parentOf hpar
  exact ⟨hlt, md, hmd⟩

theorem Sound.valid_child (h : s.Sound) (hn : s.tree.heap n = some nd)
    (hst : nd.state = none) (hbelow : s.Below i n) :
    isOurNodeValid (mask i) nd.left = true ∨ isOurNodeValid (mask i) nd.right = true := by
  obtain ⟨es, -, hes⟩ | ⟨c, hc, hbelow⟩ := ownedBelow_iff.mp hbelow
  · obtain ⟨nd', hn', hst'⟩ := h.good.nodes es n hes
    rw [hn, Option.some.injEq] at hn'
    rw [← hn', hst] at hst'
    cases hst'
  · obtain ⟨nd', hn', hc'⟩ := h.good.shape.parent hc
    cases hn.symm.trans hn'
    obtain hl | hr := hc'
    · exact .inl ((h.valid_iff i (get_left hn)).mpr ⟨c, hl, hbelow⟩)
    · exact .inr ((h.valid_iff i (get_right hn)).mpr ⟨c, hr, hbelow⟩)

theorem Sound.selectWalk (h : s.Sound) (rng : Nat → BitVec 32) {fuel : Nat}
    (hn : s.tree.heap n = some nd) (hbelow : s.Below i n) (hfuel : s.tree.next < n + fuel) (flips : BitVec 32)
    (bits drawn : Nat) :
    ∃ es ∈ s.owned i, PTree.selectWalk (mask i) s.tree rng fuel n flips bits drawn = some es := by
  induction fuel generalizing n nd flips bits drawn with
  | zero =>
    have hnone := h.good.shape.fresh n (by omega)
    rw [hn] at hnone
    cases hnone
  | succ fuel ih =>
    cases hst : nd.state with
    | some es =>
      refine ⟨es, h.owned_of_leaf hn hst hbelow, ?_⟩
      simp [PTree.selectWalk, hn, hst]
    | none =>
      -- a step to a child whose link has the bit
      have hstep : ∀ {m : Nat}, HasChild s.tree n m → s.Below i m → ∀ flips bits drawn,
          ∃ es ∈ s.owned i, PTree.selectWalk (mask i) s.tree rng fuel m flips bits drawn = some es := by
        intro m hc hb flips bits drawn
        obtain ⟨hlt, md, hmd⟩ := h.heap_child hc
        exact ih hmd hb (by omega) flips bits drawn
      have hleft : isOurNodeValid (mask i) nd.left = true → ∃ m, nd.left.pointer = some m ∧ ∀ flips bits drawn,
          ∃ es ∈ s.owned i, PTree.selectWalk (mask i) s.tree rng fuel m flips bits drawn = some es := by
        intro hvalid
        obtain ⟨m, hm, hb⟩ := (h.valid_iff i (get_left hn)).mp hvalid
        exact ⟨m, hm, hstep ⟨nd, hn, .inl hm⟩ hb⟩
      have hright : isOurNodeValid (mask i) nd.right = true → ∃ m, nd.right.pointer = some m ∧ ∀ flips bits drawn,
          ∃ es ∈ s.owned i, PTree.selectWalk (mask i) s.tree rng fuel m flips bits drawn = some es := by
        intro hvalid
        obtain ⟨m, hm, hb⟩ := (h.valid_iff i (get_right hn)).mp hvalid
        exact ⟨m, hm, hstep ⟨nd, hn, .inr hm⟩ hb⟩
      have hsome := h.valid_child hn hst hbelow
      by_cases hvl : isOurNodeValid (mask i) nd.left = true
      · obtain ⟨l, hl, hgoL⟩ := hleft hvl
        by_cases hvr : isOurNodeValid (mask i) nd.right = true
        · -- a coin is flipped
          obtain ⟨r, hr, hgoR⟩ := hright hvr
          have hcoin : ∀ (b : Bool) (flips : BitVec 32) (bits drawn : Nat), ∃ es ∈ s.owned i,
              (((if b = true then nd.left else nd.right).pointer).bind fun m =>
                PTree.selectWalk (mask i) s.tree rng fuel m flips bits drawn) = some es := by
            intro b flips bits drawn
            cases b with
            | true =>
              rw [if_pos rfl, hl]
              exact hgoL flips bits drawn
            | false =>
              rw [if_neg Bool.false_ne_true, hr]
              exact hgoR flips bits drawn
          simp only [PTree.selectWalk, hn, hst, hvl, hvr, Option.bind_eq_bind, Option.bind_some, Bool.not_true,
            Bool.false_eq_true, if_false]
          exact hcoin _ _ _ _
        · obtain ⟨es, hes, hrun⟩ := hgoL flips bits drawn
          exact ⟨es, hes, by simp [PTree.selectWalk, hn, hst, hvl, hvr, hl, hrun]⟩
      · have hvr := hsome.resolve_left hvl
        obtain ⟨r, hr, hgoR⟩ := hright hvr
        obtain ⟨es, hes, hrun⟩ := hgoR flips bits drawn
        exact ⟨es, hes, by simp [PTree.selectWalk, hn, hst, hvl, hvr, hr, hrun]⟩

theorem Sound.selectState (h : s.Sound) (hne : (s.owned i).Nonempty) (rng : Nat → BitVec 32) :
    ∃ es ∈ s.owned i, PTree.selectState (mask i) s.tree rng = some es := by
  obtain ⟨r, hr, -, -, hgone⟩ := h.good.shape.root
  have hbelow := (h.below_root hr).mpr hne
  have hvalid := (h.valid_root_iff i).mpr ⟨r, hr, hbelow⟩
  have htag : ¬s.tree.root.int &&& mask i = 0 := by
    intro hzero
    simp [isOurNodeValid, hzero] at hvalid
  obtain ⟨es, hes, m, hm, hup⟩ := hbelow
  obtain ⟨md, hmd, -⟩ := h.good.nodes es m hm
  obtain ⟨rd, hrd⟩ := h.good.shape.heap_of_up hmd hup
  have hfuel : s.tree.next < r + (s.tree.next + 1) := by omega
  obtain ⟨es', hes', hrun⟩ := h.selectWalk rng hrd ⟨es, hes, m, hm, hup⟩ hfuel 0 0 0
  refine ⟨es', hes', ?_⟩
  rw [PTree.selectState, if_neg htag, hr]
  exact hrun

/-! ## Every run -/

/-- In every process that the executor's calls lead to: the bit of a searcher is on a link iff one of its states is
below; a searcher is empty iff it has no state, and selects one of its states otherwise; it can reach the states that
it has and no others.  The next call does not fail, and no searcher but the one that is updated can reach more or fewer
states than before. -/
theorem processTree_exact (compressProcessTree : Bool) (initialState : StateId) (s : Process)
    (h : Reachable compressProcessTree initialState s) :
    (∀ (i : Fin ptrBitCount) slot link n, s.tree.get slot = some link → link.pointer = some n →
      (link.int.getLsbD i = true ↔ s.Below i n)) ∧
    (∀ i, (s.owned i).Nonempty → ∀ rng, ∃ es ∈ s.owned i, PTree.selectState (mask i) s.tree rng = some es) ∧
    (∀ i, PTree.empty (mask i) s.tree = true ↔ s.owned i = ∅) ∧
    (∀ i es, s.Reaches i es ↔ es ∈ s.owned i) ∧
    ∀ e, s.Allowed e → ∃ s', s.step compressProcessTree e = some s' ∧
      ∀ j, (∀ added removed, e ≠ .update j added removed) → ∀ es, s'.Reaches j es ↔ s.Reaches j es := by
  have hsound := h.sound
  refine ⟨?_, ?_, ?_, ?_, ?_⟩
  · intro i slot link n hlink hn
    exact hsound.link_iff i hlink hn
  · intro i hne rng
    exact hsound.selectState hne rng
  · intro i
    exact hsound.empty_iff i
  · intro i es
    exact hsound.reaches_iff es
  · intro e hok
    obtain ⟨s', hstep, hsound', hkeep⟩ := hsound.step compressProcessTree hok
    refine ⟨s', hstep, fun j hj es => ?_⟩
    rw [hsound'.reaches_iff, hsound.reaches_iff, hkeep j hj]

/-- A searcher with a state that forks, and with the new state. -/
theorem processTree_exact_fork : ∃ s, Reachable true 0 s ∧ s.owned (0 : Fin 3) = {0, 1} ∧
    ∀ rng, ∃ es ∈ s.owned (0 : Fin 3), PTree.selectState (mask (0 : Fin 3)) s.tree rng = some es := by
  have hlive : ∀ {s : Process} {es : StateId}, s.Live es → ∀ e ∈ [es], s.Live e := by
    intro s es hes e he
    exact List.mem_singleton.mp he ▸ hes
  have h₀ : Reachable true 0 (init 0) := .start
  have h₁ := h₀.step (e := .newSearcher) (show 0 < 3 by decide) rfl
  have h₂ := h₁.step (e := .update (0 : Fin 3) [0] []) ⟨Nat.one_pos, hlive rfl, .nil, by simp⟩ rfl
  have h₃ := h₂.step (e := .attach 0 1) ⟨rfl, Bool.false_ne_true⟩ rfl
  have h₄ := h₃.step (e := .update (0 : Fin 3) [1] []) ⟨Nat.one_pos, hlive rfl, .nil, by simp⟩ rfl
  refine ⟨_, h₄, by decide, ?_⟩
  exact (processTree_exact true 0 _ h₄).2.1 (0 : Fin 3) ⟨0, by decide⟩

end Process

end CgsKlee
