import CgsKlee.Core.Merging
import CgsKlee.Core.SearcherStackRun

/-!
# What the merge handlers keep

The invariant ties together the three places that hold states: every state of the executor is in the underlying
searcher or paused; a paused state waits at one handler that is alive; and the open states of a handler are the states
that have it on their stacks.  Between the removal of a state and the end of its destructor some references are
already gone: `extra` are the handlers that are still referred to from elsewhere, and `gone` are the states that the
underlying searcher does not have any more.
-/

namespace CgsKlee.Merging

open SearcherStack (eraseFound eraseFound_spec removeStates_spec)

/-! ## Lists -/

theorem swapPop_spec {l rest : List Nat} {x : Nat} (h : l.Perm (x :: rest)) :
    ∃ l', swapPop l x = some l' ∧ l'.Perm rest := by
  have hmem : x ∈ l := h.mem_iff.mpr (by simp)
  obtain ⟨l₁, l₂, rfl, hnot⟩ := List.eq_append_cons_of_mem hmem
  have hidx : (l₁ ++ x :: l₂).idxOf x = l₁.length := by simp [List.idxOf_append, hnot]
  have hrest : (l₁ ++ l₂).Perm rest := (List.perm_middle.symm.trans h).cons_inv
  obtain rfl | ⟨l₃, back, rfl⟩ := List.eq_nil_or_concat l₂
  · refine ⟨l₁, ?_, by simpa using hrest⟩
    rw [swapPop, hidx]
    simp
  · refine ⟨l₁ ++ back :: l₃, ?_, (List.Perm.trans ?_ hrest)⟩
    · rw [swapPop, hidx]
      have hdrop : (back :: (l₃ ++ [back])).dropLast = back :: l₃ := by
        rw [← List.cons_append]
        exact List.dropLast_concat
      simp [List.getLast?_append, List.getLast?_cons, hdrop]
    · rw [List.concat_eq_append]
      exact (List.perm_append_singleton back l₃).symm.append_left l₁

theorem pushReached_perm (mp : InstID) (es : StateId) (r : List (InstID × List StateId)) :
    ((pushReached mp es r).flatMap (·.2)).Perm (es :: r.flatMap (·.2)) := by
  induction r with
  | nil => exact .refl _
  | cons group groups ih =>
    rw [pushReached]
    split
    · simp only [List.flatMap_cons, List.append_assoc, List.singleton_append]
      exact List.perm_middle
    · simp only [List.flatMap_cons]
      exact (ih.append_left group.2).trans List.perm_middle

namespace Machine

variable {m m' : Machine} {h : HandlerId} {es : StateId}

/-! ## The invariant -/

structure Inv (extra : List HandlerId) (gone : List StateId) (m : Machine) : Prop where
  objects : (m.states ++ m.addedStates).Nodup
  split : (m.base ++ m.pausedStates ++ gone).Perm m.states
  closing : m.inCloseMerge.Perm m.pausedStates
  groups : m.mergeGroups.Nodup
  bound : ∀ h ∈ m.mergeGroups, h < m.nextHandler
  alive : ∀ h, h ∈ m.mergeGroups ↔ h ∈ extra ∨ ∃ es ∈ m.states ++ m.addedStates, h ∈ m.openMergeStack es
  sorted : ∀ es ∈ m.states ++ m.addedStates, (m.openMergeStack es).Pairwise (· < ·)
  openNodup : ∀ h ∈ m.mergeGroups, (m.handler h).openStates.Nodup
  openMem : ∀ h ∈ m.mergeGroups, ∀ es, es ∈ (m.handler h).openStates ↔
    es ∈ m.states ++ m.addedStates ∧ h ∈ m.openMergeStack es
  waiting : (m.mergeGroups.flatMap fun h => (m.handler h).waiting).Perm m.pausedStates
  deeper : ∀ h ∈ m.mergeGroups, ∀ es ∈ (m.handler h).waiting, ∀ h' ∈ m.openMergeStack es, h' < h

variable {extra : List HandlerId} {gone : List StateId}

theorem Inv.states_nodup (hi : Inv extra gone m) : m.states.Nodup := (List.nodup_append.mp hi.objects).1

theorem Inv.split_nodup (hi : Inv extra gone m) : (m.base ++ m.pausedStates ++ gone).Nodup :=
  hi.split.nodup_iff.mpr hi.states_nodup

theorem Inv.paused_nodup (hi : Inv extra gone m) : m.pausedStates.Nodup :=
  (List.nodup_append.mp (List.nodup_append.mp hi.split_nodup).1).2.1

theorem Inv.paused_live (hi : Inv extra gone m) {es : StateId} (hes : es ∈ m.pausedStates) : es ∈ m.states :=
  hi.split.mem_iff.mp (List.mem_append_left _ (List.mem_append_right _ hes))

theorem Inv.paused_iff (hi : Inv extra gone m) {es : StateId} :
    es ∈ m.pausedStates ↔ ∃ h ∈ m.mergeGroups, es ∈ (m.handler h).waiting := by
  rw [← hi.waiting.mem_iff, List.mem_flatMap]

/-! ## Releasing states -/

structure Frame (m m' : Machine) : Prop where
  states : m'.states = m.states
  addedStates : m'.addedStates = m.addedStates
  removedStates : m'.removedStates = m.removedStates
  current : m'.current = m.current
  paused : ∀ es ∈ m'.pausedStates, es ∈ m.pausedStates

theorem Frame.refl (m : Machine) : Frame m m := ⟨rfl, rfl, rfl, rfl, fun _ hes => hes⟩

theorem Frame.trans {m'' : Machine} (h : Frame m m') (h' : Frame m' m'') : Frame m m'' :=
  ⟨h'.states.trans h.states, h'.addedStates.trans h.addedStates, h'.removedStates.trans h.removedStates,
    h'.current.trans h.current, fun es hes => h.paused es (h'.paused es hes)⟩

theorem releaseState_spec {paused close : List StateId} (hp : m.pausedStates.Perm (es :: paused))
    (hc : m.inCloseMerge.Perm (es :: close)) :
    ∃ paused' close', m.releaseState es = some { m with
        base := m.base ++ [es], pausedStates := paused', inCloseMerge := close' } ∧
      paused'.Perm paused ∧ close'.Perm close := by
  have hmem : es ∈ m.pausedStates := hp.mem_iff.mpr (by simp)
  refine ⟨m.pausedStates.erase es, m.inCloseMerge.erase es, ?_, ?_, ?_⟩
  · simp [releaseState, continueState, updateBase, hmem]
  · have := hp.erase es
    rwa [List.erase_cons_head] at this
  · have := hc.erase es
    rwa [List.erase_cons_head] at this

theorem releaseLoop_spec {l paused close : List StateId} (hp : m.pausedStates.Perm (l ++ paused))
    (hc : m.inCloseMerge.Perm (l ++ close)) :
    ∃ paused' close', l.foldlM releaseState m = some { m with
        base := m.base ++ l, pausedStates := paused', inCloseMerge := close' } ∧
      paused'.Perm paused ∧ close'.Perm close := by
  induction l generalizing m with
  | nil => exact ⟨m.pausedStates, m.inCloseMerge, by simp, hp, hc⟩
  | cons es l ih =>
    obtain ⟨paused₁, close₁, hrun, hp₁, hc₁⟩ := releaseState_spec hp hc
    obtain ⟨paused₂, close₂, hrun₂, hp₂, hc₂⟩ := ih (m := { m with
      base := m.base ++ [es], pausedStates := paused₁, inCloseMerge := close₁ }) hp₁ hc₁
    refine ⟨paused₂, close₂, ?_, hp₂, hc₂⟩
    rw [List.foldlM_cons, hrun]
    simpa using hrun₂

theorem releaseStates_spec {paused close : List StateId} (hp : m.pausedStates.Perm ((m.handler h).waiting ++ paused))
    (hc : m.inCloseMerge.Perm ((m.handler h).waiting ++ close)) :
    ∃ paused' close', m.releaseStates h = some { m with
        base := m.base ++ (m.handler h).waiting, pausedStates := paused', inCloseMerge := close'
        handler := Function.update m.handler h { m.handler h with reachedCloseMerge := [] } } ∧
      paused'.Perm paused ∧ close'.Perm close := by
  obtain ⟨paused', close', hrun, hp', hc'⟩ := releaseLoop_spec hp hc
  exact ⟨paused', close', by simp [releaseStates, hrun, setHandler], hp', hc'⟩

theorem flatMap_waiting_update {groups : List HandlerId} {handler : HandlerId → MergeHandler} {new : MergeHandler}
    (hnot : h ∉ groups) :
    (groups.flatMap fun h' => (Function.update handler h new h').waiting) =
      groups.flatMap fun h' => (handler h').waiting := by
  refine List.flatMap_congr fun h' hh' => ?_
  have hne : h' ≠ h := by
    rintro rfl
    exact hnot hh'
  rw [Function.update_of_ne hne]

theorem Inv.paused_split (hi : Inv extra gone m) {groups : List HandlerId} (hg : m.mergeGroups.Perm (h :: groups)) :
    m.pausedStates.Perm ((m.handler h).waiting ++ groups.flatMap fun h' => (m.handler h').waiting) := by
  have := hg.flatMap_right fun h' => (m.handler h').waiting
  exact hi.waiting.symm.trans this

def released (m : Machine) (h : HandlerId) (mergeGroups : List HandlerId) (pausedStates inCloseMerge : List StateId) :
    Machine :=
  { m with
    mergeGroups, pausedStates, inCloseMerge
    base := m.base ++ (m.handler h).waiting
    handler := Function.update m.handler h { m.handler h with reachedCloseMerge := [] } }

theorem Inv.released (hi : Inv extra gone m) {groups : List HandlerId} (hg : m.mergeGroups.Perm (h :: groups))
    {extra' mergeGroups : List HandlerId} {pausedStates inCloseMerge : List StateId}
    (hsub : ∀ x ∈ mergeGroups, x ∈ m.mergeGroups) (hnodup : mergeGroups.Nodup)
    (halive : ∀ x, x ∈ mergeGroups ↔ x ∈ extra' ∨ ∃ es ∈ m.states ++ m.addedStates, x ∈ m.openMergeStack es)
    (hgroups : ∀ x, x ∈ mergeGroups → x = h ∨ x ∈ groups) (hall : ∀ x ∈ groups, x ∈ mergeGroups)
    (hp : pausedStates.Perm (groups.flatMap fun h' => (m.handler h').waiting))
    (hc : inCloseMerge.Perm (groups.flatMap fun h' => (m.handler h').waiting)) :
    Inv extra' gone (m.released h mergeGroups pausedStates inCloseMerge) := by
  have hnot : h ∉ groups ∧ groups.Nodup := by
    have := hg.nodup_iff.mp hi.groups
    exact List.nodup_cons.mp this
  have hopen : ∀ x, (Function.update m.handler h { m.handler h with reachedCloseMerge := [] } x).openStates =
      (m.handler x).openStates := by
    intro x
    by_cases hx : x = h
    · subst hx
      rw [Function.update_self]
    · rw [Function.update_of_ne hx]
  have hwait : ∀ x, x ≠ h → Function.update m.handler h { m.handler h with reachedCloseMerge := [] } x =
      m.handler x := fun x hx => Function.update_of_ne hx ..
  have hnone : (Function.update m.handler h { m.handler h with reachedCloseMerge := [] } h).waiting = [] := by
    rw [Function.update_self]
    rfl
  refine ⟨hi.objects, ?_, hc.trans hp.symm, hnodup, fun x hx => hi.bound x (hsub x hx), halive, hi.sorted, ?_, ?_, ?_, ?_⟩
  · show (m.base ++ (m.handler h).waiting ++ pausedStates ++ gone).Perm m.states
    refine List.Perm.trans (List.Perm.append_right gone ?_) hi.split
    rw [List.append_assoc]
    exact List.Perm.append_left m.base ((hp.append_left _).trans (hi.paused_split hg).symm)
  · intro x hx
    show (Function.update m.handler h _ x).openStates.Nodup
    rw [hopen]
    exact hi.openNodup x (hsub x hx)
  · intro x hx es
    show es ∈ (Function.update m.handler h _ x).openStates ↔ _
    rw [hopen]
    exact hi.openMem x (hsub x hx) es
  · show (mergeGroups.flatMap fun x => (Function.update m.handler h _ x).waiting).Perm pausedStates
    refine List.Perm.trans ?_ hp.symm
    by_cases hin : h ∈ mergeGroups
    · have hperm : mergeGroups.Perm (h :: groups) := by
        rw [List.perm_ext_iff_of_nodup hnodup (List.nodup_cons.mpr hnot)]
        intro x
        rw [List.mem_cons]
        constructor
        · exact hgroups x
        · rintro (rfl | hx)
          · exact hin
          · exact hall x hx
      refine (hperm.flatMap_right _).trans ?_
      rw [List.flatMap_cons, hnone, List.nil_append, flatMap_waiting_update hnot.1]
    · have hperm : mergeGroups.Perm groups := by
        rw [List.perm_ext_iff_of_nodup hnodup hnot.2]
        intro x
        constructor
        · intro hx
          refine (hgroups x hx).resolve_left ?_
          rintro rfl
          exact hin hx
        · exact hall x
      refine (hperm.flatMap_right _).trans ?_
      rw [flatMap_waiting_update hnot.1]
  · intro x hx es hes h' hh'
    by_cases hxh : x = h
    · subst hxh
      have hes : es ∈ (Function.update m.handler x { m.handler x with reachedCloseMerge := [] } x).waiting := hes
      rw [hnone] at hes
      cases hes
    · have hes : es ∈ (Function.update m.handler h { m.handler h with reachedCloseMerge := [] } x).waiting := hes
      rw [hwait x hxh] at hes
      exact hi.deeper x (hsub x hx) es hes h' hh'

theorem frame_released {mergeGroups : List HandlerId} {pausedStates inCloseMerge : List StateId}
    (hp : ∀ es ∈ pausedStates, es ∈ m.pausedStates) : Frame m (m.released h mergeGroups pausedStates inCloseMerge) :=
  ⟨rfl, rfl, rfl, rfl, hp⟩

theorem Inv.releaseStates (hi : Inv extra gone m) (hh : h ∈ m.mergeGroups) :
    ∃ paused close, m.releaseStates h = some (m.released h m.mergeGroups paused close) ∧
      Inv extra gone (m.released h m.mergeGroups paused close) ∧
      Frame m (m.released h m.mergeGroups paused close) := by
  have hg := List.perm_cons_erase hh
  have hsplit := hi.paused_split hg
  obtain ⟨paused, close, hrun, hp, hc⟩ := releaseStates_spec hsplit (hi.closing.trans hsplit)
  refine ⟨paused, close, hrun, ?_, ?_⟩
  · refine hi.released hg (fun _ hx => hx) hi.groups hi.alive ?_ (fun x hx => List.mem_of_mem_erase hx) hp hc
    intro x hx
    exact List.mem_cons.mp (hg.mem_iff.mp hx)
  · exact frame_released fun es hes => hsplit.mem_iff.mpr (List.mem_append_right _ (hp.mem_iff.mp hes))

theorem Inv.destroyHandler (hi : Inv (h :: extra) gone m) (hextra : h ∉ extra)
    (hnone : ∀ es ∈ m.states ++ m.addedStates, h ∉ m.openMergeStack es) :
    ∃ m', m.destroyHandler h = some m' ∧ Inv extra gone m' ∧ Frame m m' ∧ m'.openMergeStack = m.openMergeStack := by
  have hh : h ∈ m.mergeGroups := (hi.alive h).mpr (.inl (by simp))
  have hg := List.perm_cons_erase hh
  have hsplit := hi.paused_split hg
  obtain ⟨groups, hswap, hgroups⟩ := swapPop_spec hg
  have hspec : ∃ paused close, Machine.releaseStates { m with mergeGroups := groups } h = some _ ∧ _ ∧ _ :=
    releaseStates_spec hsplit (hi.closing.trans hsplit)
  obtain ⟨paused, close, hrun, hp, hc⟩ := hspec
  have hmem : ∀ x, x ∈ groups ↔ x ≠ h ∧ x ∈ m.mergeGroups := by
    intro x
    rw [hgroups.mem_iff, hi.groups.mem_erase_iff]
  refine ⟨m.released h groups paused close, ?_, ?_, ?_, rfl⟩
  · rw [Machine.destroyHandler, hswap]
    exact hrun
  · refine hi.released hg (fun x hx => ((hmem x).mp hx).2) (hgroups.nodup_iff.mpr (hi.groups.erase h)) ?_ ?_ ?_ hp hc
    · intro x
      rw [hmem, hi.alive, List.mem_cons]
      constructor
      · rintro ⟨hne, (rfl | hx) | hx⟩
        · exact absurd rfl hne
        · exact .inl hx
        · exact .inr hx
      · rintro (hx | ⟨es, hes, hx⟩)
        · refine ⟨?_, .inl (.inr hx)⟩
          rintro rfl
          exact hextra hx
        · refine ⟨?_, .inr ⟨es, hes, hx⟩⟩
          rintro rfl
          exact hnone es hes hx
    · intro x hx
      exact .inr (hgroups.mem_iff.mp hx)
    · intro x hx
      exact hgroups.mem_iff.mpr hx
  · exact frame_released fun es hes => hsplit.mem_iff.mpr (List.mem_append_right _ (hp.mem_iff.mp hes))

theorem Inv.dropRef (hi : Inv (h :: extra) gone m) (hextra : h ∉ extra) :
    ∃ m', m.dropRef h = some m' ∧ Inv extra gone m' ∧ Frame m m' ∧ m'.openMergeStack = m.openMergeStack := by
  rw [Machine.dropRef]
  by_cases hany : ((m.states ++ m.addedStates).any fun es => decide (h ∈ m.openMergeStack es)) = true
  · rw [if_pos hany]
    refine ⟨m, rfl, ?_, .refl m, rfl⟩
    obtain ⟨es, hes, hh⟩ := List.any_eq_true.mp hany
    refine { hi with alive := fun x => ?_ }
    rw [hi.alive, List.mem_cons]
    constructor
    · rintro ((rfl | hx) | hx)
      · exact .inr ⟨es, hes, of_decide_eq_true hh⟩
      · exact .inl hx
      · exact .inr hx
    · rintro (hx | hx)
      · exact .inl (.inr hx)
      · exact .inr hx
  · rw [if_neg hany]
    refine hi.destroyHandler hextra fun es hes hh => hany (List.any_eq_true.mpr ⟨es, hes, ?_⟩)
    exact decide_eq_true hh

theorem Inv.dropRefs {hs : List HandlerId} (hi : Inv hs gone m) (hnodup : hs.Nodup) :
    ∃ m', hs.foldlM Machine.dropRef m = some m' ∧ Inv [] gone m' ∧ Frame m m' ∧
      m'.openMergeStack = m.openMergeStack := by
  induction hs generalizing m with
  | nil => exact ⟨m, rfl, hi, .refl m, rfl⟩
  | cons h hs ih =>
    obtain ⟨hnot, hnodup⟩ := List.nodup_cons.mp hnodup
    obtain ⟨m₁, hrun, hi₁, hf₁, hstack⟩ := hi.dropRef hnot
    obtain ⟨m₂, hrun₂, hi₂, hf₂, hstack₂⟩ := ih hi₁ hnodup
    exact ⟨m₂, by simp [List.foldlM_cons, hrun, hrun₂], hi₂, hf₁.trans hf₂, hstack₂.trans hstack⟩

/-! ## The destructor of a state -/

theorem removeOpenLoop_spec (es : StateId) {hs : List HandlerId} (hnodup : hs.Nodup)
    (hmem : ∀ h ∈ hs, es ∈ (m.handler h).openStates) :
    ∃ handler, hs.foldlM (removeOpenState es) m = some { m with handler } ∧
      (∀ h, (handler h).reachedCloseMerge = (m.handler h).reachedCloseMerge) ∧
      (∀ h ∈ hs, (m.handler h).openStates.Perm (es :: (handler h).openStates)) ∧
      ∀ h, h ∉ hs → handler h = m.handler h := by
  induction hs generalizing m with
  | nil => exact ⟨m.handler, rfl, fun _ => rfl, by simp, fun _ _ => rfl⟩
  | cons h hs ih =>
    obtain ⟨hnot, hnodup⟩ := List.nodup_cons.mp hnodup
    obtain ⟨openStates, hswap, hperm⟩ := swapPop_spec (List.perm_cons_erase (hmem h (by simp)))
    have hrest : ∀ h' ∈ hs, es ∈ ((m.setHandler h { m.handler h with openStates }).handler h').openStates := by
      intro h' hh'
      have hne : h' ≠ h := by
        rintro rfl
        exact hnot hh'
      show es ∈ (Function.update m.handler h _ h').openStates
      rw [Function.update_of_ne hne]
      exact hmem h' (by simp [hh'])
    obtain ⟨handler, hrun, hreached, hopen, hother⟩ := ih hnodup hrest
    have hself : handler h = { m.handler h with openStates } := by
      rw [hother h hnot]
      exact Function.update_self ..
    have hne : ∀ {h'}, h' ≠ h → (m.setHandler h { m.handler h with openStates }).handler h' = m.handler h' :=
      fun hne => Function.update_of_ne hne ..
    refine ⟨handler, ?_, ?_, ?_, ?_⟩
    · rw [List.foldlM_cons, removeOpenState, hswap]
      exact hrun
    · intro h'
      by_cases heq : h' = h
      · rw [heq, hself]
      · rw [hreached, hne heq]
    · intro h' hh'
      by_cases heq : h' = h
      · rw [heq, hself]
        exact (List.perm_cons_erase (hmem h (by simp))).trans (hperm.symm.cons es)
      · have := hopen h' ((List.mem_cons.mp hh').resolve_left heq)
        rwa [hne heq] at this
    · intro h' hh'
      have hne' : h' ≠ h := by
        rintro rfl
        exact hh' (by simp)
      rw [hother h' (fun hin => hh' (by simp [hin])), hne hne']

structure Without (es : StateId) (m m' : Machine) : Prop where
  objects : (m.states ++ m.addedStates).Perm (es :: (m'.states ++ m'.addedStates))
  base : m'.base = m.base
  pausedStates : m'.pausedStates = m.pausedStates
  inCloseMerge : m'.inCloseMerge = m.inCloseMerge
  mergeGroups : m'.mergeGroups = m.mergeGroups
  handler : m'.handler = m.handler
  nextHandler : m'.nextHandler = m.nextHandler
  openMergeStack : m'.openMergeStack = m.openMergeStack

theorem Inv.deleteState (hi : Inv [] gone m) {gone' : List StateId} (hw : Without es m m')
    (hsplit : (m.base ++ m.pausedStates ++ gone').Perm m'.states) (hpaused : es ∉ m.pausedStates) :
    ∃ m'', m'.deleteState es = some m'' ∧ Inv [] gone' m'' ∧ Frame m' m'' := by
  have hes : es ∈ m.states ++ m.addedStates := hw.objects.mem_iff.mpr (by simp)
  have hobj : es ∉ m'.states ++ m'.addedStates ∧ (m'.states ++ m'.addedStates).Nodup :=
    List.nodup_cons.mp (hw.objects.nodup_iff.mp hi.objects)
  have hmem : ∀ x, x ∈ m'.states ++ m'.addedStates ↔ x ∈ m.states ++ m.addedStates ∧ x ≠ es := by
    intro x
    rw [hw.objects.mem_iff, List.mem_cons]
    constructor
    · intro hx
      refine ⟨.inr hx, ?_⟩
      rintro rfl
      exact hobj.1 hx
    · rintro ⟨rfl | hx, hne⟩
      · exact absurd rfl hne
      · exact hx
  have hstack := hi.sorted es hes
  have hnodup : (m'.openMergeStack es).Nodup := by
    rw [hw.openMergeStack]
    exact hstack.imp fun hlt => Nat.ne_of_lt hlt
  have halive : ∀ h ∈ m.openMergeStack es, h ∈ m.mergeGroups := fun h hh => (hi.alive h).mpr (.inr ⟨es, hes, hh⟩)
  obtain ⟨handler, hrun, hreached, hopen, hother⟩ := removeOpenLoop_spec (m := m') es hnodup fun h hh => by
    rw [hw.openMergeStack] at hh
    rw [hw.handler, hi.openMem h (halive h hh) es]
    exact ⟨hes, hh⟩
  rw [hw.handler] at hreached hopen hother
  rw [hw.openMergeStack] at hopen hother
  have hwait : ∀ h, (handler h).waiting = (m.handler h).waiting := fun h => by
    rw [MergeHandler.waiting, hreached, MergeHandler.waiting]
  have hstack_ne : ∀ {x}, x ≠ es → Function.update m'.openMergeStack es [] x = m.openMergeStack x := by
    intro x hne
    rw [Function.update_of_ne hne, hw.openMergeStack]
  -- the references of the deleted state are still to be dropped
  have hi' : Inv (m.openMergeStack es) gone' (Machine.setStack { m' with handler } es []) := by
    refine ⟨hobj.2, ?_, ?_, ?_, ?_, ?_, ?_, ?_, ?_, ?_, ?_⟩
    · show (m'.base ++ m'.pausedStates ++ gone').Perm m'.states
      rw [hw.base, hw.pausedStates]
      exact hsplit
    · show m'.inCloseMerge.Perm m'.pausedStates
      rw [hw.inCloseMerge, hw.pausedStates]
      exact hi.closing
    · show m'.mergeGroups.Nodup
      rw [hw.mergeGroups]
      exact hi.groups
    · show ∀ h ∈ m'.mergeGroups, h < m'.nextHandler
      rw [hw.mergeGroups, hw.nextHandler]
      exact hi.bound
    · intro h
      show h ∈ m'.mergeGroups ↔ _ ∨ ∃ x ∈ m'.states ++ m'.addedStates, h ∈ Function.update m'.openMergeStack es [] x
      rw [hw.mergeGroups, hi.alive]
      constructor
      · rintro (hx | ⟨x, hx, hh⟩)
        · cases hx
        · by_cases hxe : x = es
          · exact .inl (hxe ▸ hh)
          · refine .inr ⟨x, (hmem x).mpr ⟨hx, hxe⟩, ?_⟩
            rw [hstack_ne hxe]
            exact hh
      · rintro (hh | ⟨x, hx, hh⟩)
        · exact .inr ⟨es, hes, hh⟩
        · obtain ⟨hx, hne⟩ := (hmem x).mp hx
          rw [hstack_ne hne] at hh
          exact .inr ⟨x, hx, hh⟩
    · intro x hx
      obtain ⟨hx, hne⟩ := (hmem x).mp hx
      show (Function.update m'.openMergeStack es [] x).Pairwise _
      rw [hstack_ne hne]
      exact hi.sorted x hx
    · intro h hh
      have hh : h ∈ m.mergeGroups := hw.mergeGroups ▸ hh
      show (handler h).openStates.Nodup
      by_cases hin : h ∈ m.openMergeStack es
      · exact (List.nodup_cons.mp ((hopen h hin).nodup_iff.mp (hi.openNodup h hh))).2
      · rw [hother h hin]
        exact hi.openNodup h hh
    · intro h hgroup x
      have hh : h ∈ m.mergeGroups := hw.mergeGroups ▸ hgroup
      show x ∈ (handler h).openStates ↔ x ∈ m'.states ++ m'.addedStates ∧ h ∈ Function.update m'.openMergeStack es [] x
      rw [hmem]
      have hold := hi.openMem h hh x
      by_cases hxe : x = es
      · subst hxe
        refine iff_of_false ?_ (fun hx => hx.1.2 rfl)
        by_cases hin : h ∈ m.openMergeStack x
        · exact (List.nodup_cons.mp ((hopen h hin).nodup_iff.mp (hi.openNodup h hh))).1
        · rw [hother h hin, hold]
          exact fun hx => hin hx.2
      · rw [hstack_ne hxe]
        have hsame : x ∈ (handler h).openStates ↔ x ∈ (m.handler h).openStates := by
          by_cases hin : h ∈ m.openMergeStack es
          · rw [(hopen h hin).mem_iff, List.mem_cons]
            exact (or_iff_right hxe).symm
          · rw [hother h hin]
        rw [hsame, hold]
        simp [hxe]
    · show (m'.mergeGroups.flatMap fun h => (handler h).waiting).Perm m'.pausedStates
      rw [hw.mergeGroups, hw.pausedStates]
      simp only [hwait]
      exact hi.waiting
    · intro h hgroup x hwaits h' hh'
      have hh : h ∈ m.mergeGroups := hw.mergeGroups ▸ hgroup
      have hx : x ∈ (m.handler h).waiting := by
        rw [← hwait]
        exact hwaits
      have hne : x ≠ es := by
        rintro rfl
        exact hpaused (hi.paused_iff.mpr ⟨h, hh, hx⟩)
      have hh' : h' ∈ Function.update m'.openMergeStack es [] x := hh'
      rw [hstack_ne hne] at hh'
      exact hi.deeper h hh x hx h' hh'
  obtain ⟨m'', hrun', hi'', hf, -⟩ := hi'.dropRefs (hw.openMergeStack ▸ hnodup)
  refine ⟨m'', ?_, hi'', ?_⟩
  · rw [Machine.deleteState, hrun]
    rw [← hw.openMergeStack] at hrun'
    exact hrun'
  · exact ⟨hf.states, hf.addedStates, hf.removedStates, hf.current, hf.paused⟩

end Machine

end CgsKlee.Merging
