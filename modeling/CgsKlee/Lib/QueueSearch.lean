import Mathlib.Logic.Relation
import Mathlib.Data.List.Basic

/-!
# A breadth-first search that marks nodes late

The search takes nodes from the front of a queue, marks them, and appends their unmarked successors.  A node is marked
when it is taken and not when it is appended, so that it can wait several times and be expanded several times; the
queue may grow without a new mark.

It still ends on a finite graph.  A node that is taken for the first time uses up one of the unmarked nodes.  A node
that is taken again only has successors that are marked or wait already, so that the first unmarked node in the queue
comes nearer (`exists_search_some`).  When the queue is empty, the marks are closed under successors (`search_iff`).
-/

namespace QueueSearch

variable {α : Type} {next : α → List α} {goal start : α}

/-- The search for `goal` with some iterations left; `none` is no answer yet. -/
def search [DecidableEq α] (next : α → List α) (goal : α) : Nat → List α → List α → Option Bool
  | 0, _, _ => none
  | _ + 1, [], _ => some false
  | n + 1, a :: queue, marked =>
    let marked := marked.insert a
    if a = goal then some true
    else search next goal n (queue ++ (next a).filter (· ∉ marked)) marked

theorem search_mono [DecidableEq α] {n : Nat} {queue marked : List α} {b : Bool} (h : search next goal n queue marked = some b) :
    ∀ m, n ≤ m → search next goal m queue marked = some b := by
  induction n generalizing queue marked with
  | zero => cases h
  | succ n ih =>
    intro m hm
    obtain ⟨m, rfl⟩ : ∃ k, m = k + 1 := ⟨m - 1, by omega⟩
    cases queue with
    | nil => exact h
    | cons a queue =>
      simp only [search] at h ⊢
      split
      · rename_i hgoal
        rwa [if_pos hgoal] at h
      · rename_i hgoal
        rw [if_neg hgoal] at h
        exact ih h m (by omega)

/-- The invariant of a search from `start`: marks and waiting nodes are reachable, `start` is among them, the goal is
not marked, and the successors of a marked node are marked or wait. -/
structure Inv (next : α → List α) (goal start : α) (queue marked : List α) : Prop where
  reachable : ∀ a, a ∈ queue ∨ a ∈ marked → Relation.ReflTransGen (fun a b => b ∈ next a) start a
  start_mem : start ∈ queue ∨ start ∈ marked
  goal_notMem : goal ∉ marked
  closed : ∀ a ∈ marked, ∀ b ∈ next a, b ∈ marked ∨ b ∈ queue

theorem inv_start (next : α → List α) (goal start : α) : Inv next goal start [start] [] where
  reachable a ha := by
    obtain rfl : a = start := by simpa using ha
    exact .refl
  start_mem := by simp
  goal_notMem := List.not_mem_nil
  closed _ ha := absurd ha List.not_mem_nil

variable [DecidableEq α]

theorem Inv.step {a : α} {queue marked : List α} (h : Inv next goal start (a :: queue) marked) (hgoal : a ≠ goal) :
    Inv next goal start (queue ++ (next a).filter (· ∉ marked.insert a)) (marked.insert a) where
  reachable := by
    have ha := h.reachable a (.inl List.mem_cons_self)
    rintro b (hb | hb)
    · rcases List.mem_append.1 hb with hb | hb
      · exact h.reachable b (.inl (List.mem_cons_of_mem a hb))
      · exact ha.tail (List.mem_filter.1 hb).1
    · rcases List.mem_insert_iff.1 hb with rfl | hb
      · exact ha
      · exact h.reachable b (.inr hb)
  start_mem := by
    rcases h.start_mem with hs | hs
    · rcases List.mem_cons.1 hs with rfl | hs
      · exact .inr List.mem_insert_self
      · exact .inl (List.mem_append_left _ hs)
    · exact .inr (List.mem_insert_of_mem hs)
  goal_notMem := by
    rw [List.mem_insert_iff]
    rintro (rfl | hg)
    · exact hgoal rfl
    · exact h.goal_notMem hg
  closed := by
    intro b hb c hc
    by_cases hcm : c ∈ marked.insert a
    · exact .inl hcm
    · right
      rcases List.mem_insert_iff.1 hb with rfl | hb
      · exact List.mem_append_right _ (List.mem_filter.2 ⟨hc, by simpa using hcm⟩)
      · rcases h.closed b hb c hc with hcm' | hcq
        · exact absurd (List.mem_insert_of_mem hcm') hcm
        · rcases List.mem_cons.1 hcq with rfl | hcq
          · exact absurd List.mem_insert_self hcm
          · exact List.mem_append_left _ hcq

theorem search_sound {n : Nat} {queue marked : List α} {b : Bool} (h : Inv next goal start queue marked)
    (hs : search next goal n queue marked = some b) :
    b = true ↔ Relation.ReflTransGen (fun a b => b ∈ next a) start goal := by
  induction n generalizing queue marked with
  | zero => cases hs
  | succ n ih =>
    cases queue with
    | nil =>
      obtain rfl : false = b := Option.some.inj hs
      refine ⟨fun hf => (by cases hf), fun hreach => ?_⟩
      -- the marks are closed, and the goal is not marked
      have hmem : ∀ c, Relation.ReflTransGen (fun a b => b ∈ next a) start c → c ∈ marked := by
        intro c hc
        induction hc with
        | refl => exact h.start_mem.resolve_left List.not_mem_nil
        | tail _ hstep ih => exact (h.closed _ ih _ hstep).resolve_right List.not_mem_nil
      exact absurd (hmem goal hreach) h.goal_notMem
    | cons a queue =>
      simp only [search] at hs
      split at hs
      · rename_i hgoal
        obtain rfl : true = b := Option.some.inj hs
        have ha := h.reachable a (.inl List.mem_cons_self)
        rw [hgoal] at ha
        exact ⟨fun _ => ha, fun _ => rfl⟩
      · rename_i hgoal
        exact ih (h.step hgoal) hs

variable {universe_ : List α}

def unmarked (universe_ marked : List α) : Nat := (universe_.filter (· ∉ marked)).length

def firstUnmarked (queue marked : List α) : Nat := queue.findIdx (· ∉ marked)

theorem unmarked_lt {a : α} {marked : List α} (ha : a ∈ universe_) (hm : a ∉ marked) :
    unmarked universe_ (marked.insert a) < unmarked universe_ marked := by
  have heq : (universe_.filter (· ∉ marked.insert a)) = (universe_.filter (· ∉ marked)).filter (· ≠ a) := by
    rw [List.filter_filter]
    apply List.filter_congr
    intro b _
    by_cases hb : b = a <;> simp [List.mem_insert_iff, hb]
  unfold unmarked
  rw [heq]
  apply List.length_filter_lt_length_iff_exists.2
  exact ⟨a, List.mem_filter.2 ⟨ha, by simpa using hm⟩, by simp⟩

theorem firstUnmarked_lt {a : α} {queue marked : List α} (h : Inv next goal start (a :: queue) marked)
    (hm : a ∈ marked) :
    firstUnmarked (queue ++ (next a).filter (· ∉ marked)) marked < firstUnmarked (a :: queue) marked := by
  have hcons : firstUnmarked (a :: queue) marked = firstUnmarked queue marked + 1 := by
    simp [firstUnmarked, List.findIdx_cons, hm]
  have happ : firstUnmarked (queue ++ (next a).filter (· ∉ marked)) marked = firstUnmarked queue marked := by
    unfold firstUnmarked
    rw [List.findIdx_append]
    split
    · rfl
    · -- if no unmarked node waits, all successors are marked
      rename_i hlast
      rw [List.findIdx_lt_length] at hlast
      have hnil : (next a).filter (· ∉ marked) = [] := by
        rw [List.filter_eq_nil_iff]
        intro b hb
        simp only [decide_eq_true_eq, not_not]
        rcases h.closed a hm b hb with hbm | hbq
        · exact hbm
        · rcases List.mem_cons.1 hbq with rfl | hbq
          · exact hm
          · by_contra hbm
            exact hlast ⟨b, hbq, by simpa using hbm⟩
      rw [hnil, List.findIdx_nil, Nat.zero_add]
      exact (List.findIdx_eq_length.2 fun b hb => by
        by_contra hbm
        exact hlast ⟨b, hb, by simpa using hbm⟩).symm
  omega

theorem exists_search_some (hnext : ∀ a ∈ universe_, ∀ b ∈ next a, b ∈ universe_) (queue marked : List α)
    (h : Inv next goal start queue marked) (hq : ∀ a ∈ queue, a ∈ universe_) :
    ∃ n, (search next goal n queue marked).isSome := by
  generalize hu : unmarked universe_ marked = u
  induction u using Nat.strongRecOn generalizing queue marked with
  | _ u ihu =>
    generalize hf : firstUnmarked queue marked = f
    induction f using Nat.strongRecOn generalizing queue with
    | _ f ihf =>
      cases queue with
      | nil => exact ⟨1, rfl⟩
      | cons a queue =>
        by_cases hgoal : a = goal
        · exact ⟨1, by simp [search, hgoal]⟩
        · have hstep := h.step hgoal
          have hq' : ∀ b ∈ queue ++ (next a).filter (· ∉ marked.insert a), b ∈ universe_ := by
            intro b hb
            rcases List.mem_append.1 hb with hb | hb
            · exact hq b (List.mem_cons_of_mem a hb)
            · exact hnext a (hq a List.mem_cons_self) b (List.mem_filter.1 hb).1
          have hrec : ∃ n, (search next goal n (queue ++ (next a).filter (· ∉ marked.insert a))
              (marked.insert a)).isSome := by
            by_cases hm : a ∈ marked
            · rw [List.insert_of_mem hm] at hstep hq' ⊢
              exact ihf _ (hf ▸ firstUnmarked_lt h hm) _ hstep hq' rfl
            · exact ihu _ (hu ▸ unmarked_lt (hq a List.mem_cons_self) hm) _ _ hstep hq' rfl
          obtain ⟨n, hn⟩ := hrec
          exact ⟨n + 1, by simpa [search, hgoal] using hn⟩

theorem search_iff (goal : α) (hnext : ∀ a ∈ universe_, ∀ b ∈ next a, b ∈ universe_) (hs : start ∈ universe_) :
    ∃ b, (∃ n, ∀ m, n ≤ m → search next goal m [start] [] = some b) ∧
      (b = true ↔ Relation.ReflTransGen (fun a b => b ∈ next a) start goal) := by
  obtain ⟨n, hn⟩ := exists_search_some hnext [start] [] (inv_start next goal start) (by simpa using hs)
  obtain ⟨b, hb⟩ := Option.isSome_iff_exists.1 hn
  exact ⟨b, ⟨n, search_mono hb⟩, search_sound (inv_start next goal start) hb⟩

end QueueSearch
