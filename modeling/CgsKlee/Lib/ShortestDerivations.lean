import Mathlib.Data.ENat.Lattice
import Mathlib.Data.List.Basic
import Mathlib.Order.WellFoundedSet

/-!
# Shortest derivations

Nodes are derived by rules from other nodes, and a derivation has a length.  In a table of lengths zero stands for
"none".  A table that holds lengths of derivations (`Sound`) and that no rule improves (`Closed`) holds the least
lengths (`isShortest_of_sound_of_closed`).

A table that is improved step by step holds only lengths of derivations in which no node occurs below itself
(`Course`): an entry that were derived from itself would not be an improvement (`Supported.improve`).
-/

namespace Derivations

inductive Rule (α : Type)
  | leaf (weight : Nat)
  | one (weight : Nat) (a : α)
  | two (weight : Nat) (a b : α)

variable {α : Type}

def Rule.weight : Rule α → Nat
  | .leaf w | .one w _ | .two w _ _ => w

/-- The length by way of the rule, if the nodes it starts from have the lengths of a table. -/
def Rule.value (t : α → Nat) : Rule α → Nat
  | .leaf w => w
  | .one w a => if t a = 0 then 0 else w + t a
  | .two w a b => if t a = 0 ∨ t b = 0 then 0 else w + t a + t b

inductive Derives (rules : α → Set (Rule α)) : α → Nat → Prop
  | leaf {a : α} {w : Nat} : .leaf w ∈ rules a → Derives rules a w
  | one {a b : α} {w n : Nat} : .one w b ∈ rules a → Derives rules b n → Derives rules a (w + n)
  | two {a b c : α} {w m n : Nat} :
    .two w b c ∈ rules a → Derives rules b m → Derives rules c n → Derives rules a (w + m + n)

def IsShortest (rules : α → Set (Rule α)) (a : α) (n : Nat) : Prop :=
  (n = 0 ↔ ∀ k, ¬Derives rules a k) ∧ ∀ k, Derives rules a k → n ≤ k ∧ Derives rules a n

def Sound (rules : α → Set (Rule α)) (t : α → Nat) : Prop := ∀ a, t a ≠ 0 → Derives rules a (t a)

def Closed (rules : α → Set (Rule α)) (t : α → Nat) : Prop :=
  ∀ a, ∀ r ∈ rules a, r.value t ≠ 0 → t a ≠ 0 ∧ t a ≤ r.value t

def Positive (rules : α → Set (Rule α)) : Prop := ∀ a, ∀ r ∈ rules a, 0 < r.weight

variable {rules rules' : α → Set (Rule α)} {t : α → Nat} {a : α} {m n : Nat}

theorem Derives.mono (hsub : ∀ a, rules a ⊆ rules' a) (h : Derives rules a n) : Derives rules' a n := by
  induction h with
  | leaf hr => exact .leaf (hsub _ hr)
  | one hr _ ih => exact .one (hsub _ hr) ih
  | two hr _ _ ih ih' => exact .two (hsub _ hr) ih ih'

theorem Derives.pos (hpos : Positive rules) (h : Derives rules a n) : 0 < n := by
  cases h with
  | leaf hr => exact hpos _ _ hr
  | one hr _ => exact Nat.add_pos_left (hpos _ _ hr) _
  | two hr _ _ => exact Nat.add_pos_left (Nat.add_pos_left (hpos _ _ hr) _) _

theorem Derives.leaf_of_one (hpos : Positive rules) (h : Derives rules a 1) : .leaf 1 ∈ rules a := by
  generalize hn : 1 = n at h
  cases h with
  | leaf hr => exact hn ▸ hr
  | @one _ b w n hr hb =>
    have hw : 0 < w := hpos _ _ hr
    have := hb.pos hpos
    omega
  | @two _ b c w m n hr hb hc =>
    have hw : 0 < w := hpos _ _ hr
    have := hb.pos hpos
    omega

theorem Closed.le (hc : Closed rules t) (hpos : Positive rules) (h : Derives rules a n) : t a ≠ 0 ∧ t a ≤ n := by
  induction h with
  | leaf hr => exact hc _ _ hr (hpos _ _ hr).ne'
  | @one a b w n hr _ ih =>
    have hvalue : (Rule.one w b).value t = w + t b := if_neg ih.1
    obtain ⟨hne, hle⟩ := hc _ _ hr (by rw [hvalue]; omega)
    exact ⟨hne, by omega⟩
  | @two a b c w m n hr _ _ ih ih' =>
    have hvalue : (Rule.two w b c).value t = w + t b + t c := if_neg (not_or.mpr ⟨ih.1, ih'.1⟩)
    obtain ⟨hne, hle⟩ := hc _ _ hr (by rw [hvalue]; omega)
    exact ⟨hne, by omega⟩

theorem isShortest_of_sound_of_closed (hs : Sound rules t) (hc : Closed rules t) (hpos : Positive rules) (a : α) :
    IsShortest rules a (t a) := by
  refine ⟨⟨fun h k hk => (hc.le hpos hk).1 h, fun hnone => ?_⟩, fun k hk => ?_⟩
  · by_contra hne
    exact hnone _ (hs a hne)
  · obtain ⟨hne, hle⟩ := hc.le hpos hk
    exact ⟨hle, hs a hne⟩

theorem IsShortest.derives (h : IsShortest rules a n) (hn : n ≠ 0) : Derives rules a n := by
  obtain ⟨k, hk⟩ : ∃ k, Derives rules a k := by
    by_contra hnone
    exact hn (h.1.mpr fun k hk => hnone ⟨k, hk⟩)
  exact (h.2 k hk).2

theorem IsShortest.ne_zero (h : IsShortest rules a n) {k : Nat} (hk : Derives rules a k) : n ≠ 0 :=
  fun hn => h.1.mp hn k hk

theorem IsShortest.unique (h : IsShortest rules a m) (h' : IsShortest rules a n) : m = n := by
  by_cases hm : m = 0
  · rw [hm, eq_comm, h'.1]
    exact h.1.mp hm
  · have hd := h.derives hm
    exact Nat.le_antisymm (h.2 n (h'.2 m hd).2).1 (h'.2 m hd).1

theorem exists_rule (h : ∀ a, IsShortest rules a (t a)) (hne : t a ≠ 0) : ∃ r ∈ rules a, r.value t = t a := by
  have hd := (h a).derives hne
  have hle : ∀ r ∈ rules a, ∀ k, Derives rules a k → k = r.value t → t a ≤ r.value t :=
    fun r _ k hk heq => heq ▸ ((h a).2 k hk).1
  generalize hn : t a = n at hd
  cases hd with
  | leaf hr => exact ⟨_, hr, rfl⟩
  | @one _ b w n hr hb =>
    have hb' := (h b).ne_zero hb
    have hvalue : (Rule.one w b).value t = w + t b := if_neg hb'
    have := hle _ hr _ (.one hr ((h b).derives hb')) hvalue.symm
    have := ((h b).2 n hb).1
    exact ⟨_, hr, by omega⟩
  | @two _ b c w m n hr hb hc =>
    have hb' := (h b).ne_zero hb
    have hc' := (h c).ne_zero hc
    have hvalue : (Rule.two w b c).value t = w + t b + t c := if_neg (not_or.mpr ⟨hb', hc'⟩)
    have := hle _ hr _ (.two hr ((h b).derives hb') ((h c).derives hc')) hvalue.symm
    have := ((h b).2 m hb).1
    have := ((h c).2 n hc).1
    exact ⟨_, hr, by omega⟩

theorem closed_of_isShortest (h : ∀ a, IsShortest rules a (t a)) : Closed rules t := by
  intro a r hr hvalue
  have hd : Derives rules a (r.value t) := by
    cases r with
    | leaf w => exact .leaf hr
    | one w b =>
      have hb : t b ≠ 0 := fun hb => hvalue (if_pos hb)
      rw [Rule.value, if_neg hb]
      exact .one hr ((h b).derives hb)
    | two w b c =>
      have hbc : ¬(t b = 0 ∨ t c = 0) := fun hbc => hvalue (if_pos hbc)
      rw [Rule.value, if_neg hbc]
      rw [not_or] at hbc
      exact .two hr ((h b).derives hbc.1) ((h c).derives hbc.2)
  exact ⟨(h a).ne_zero hd, ((h a).2 _ hd).1⟩

theorem eq_of_way (h : ∀ a, IsShortest rules a (t a)) {b : α} {w : Nat}
    (hway : w ≠ 0 → t b ≠ 0 → ∃ r ∈ rules a, r.value t = w + t b)
    (hrules : ∀ r ∈ rules a, r.value t ≠ 0 → w ≠ 0 ∧ t b ≠ 0 ∧ w + t b ≤ r.value t) :
    t a = if w = 0 ∨ t b = 0 then 0 else w + t b := by
  have hoffer : t a ≠ 0 → w ≠ 0 ∧ t b ≠ 0 ∧ w + t b ≤ t a := by
    intro hne
    obtain ⟨r, hr, hvalue⟩ := exists_rule h hne
    exact hvalue ▸ hrules r hr (hvalue ▸ hne)
  split
  · rename_i hzero
    by_contra hne
    have := hoffer hne
    omega
  · rename_i hboth
    rw [not_or] at hboth
    obtain ⟨r, hr, hvalue⟩ := hway hboth.1 hboth.2
    obtain ⟨hne, hle⟩ := closed_of_isShortest h _ r hr (by omega)
    have := hoffer hne
    omega

theorem forall_isShortest_iff (hsub : ∀ a, rules a ⊆ rules' a) (h : ∀ a, IsShortest rules a (t a)) :
    (∀ a, IsShortest rules' a (t a)) ↔ ∀ a k, Derives rules' a k → ∃ k' ≤ k, Derives rules a k' := by
  constructor
  · intro h' a k hk
    exact ⟨t a, ((h' a).2 k hk).1, (h a).derives ((h' a).ne_zero hk)⟩
  · intro hshort a
    refine ⟨⟨fun hzero k hk => ?_, fun hnone => ?_⟩, fun k hk => ?_⟩
    · obtain ⟨k', -, hk'⟩ := hshort a k hk
      exact (h a).1.mp hzero k' hk'
    · exact (h a).1.mpr fun k hk => hnone k (hk.mono hsub)
    · obtain ⟨k', hle, hk'⟩ := hshort a k hk
      obtain ⟨hle', hd⟩ := (h a).2 k' hk'
      exact ⟨hle'.trans hle, hd.mono hsub⟩

/-- The derivations in which no node occurs below itself, with the nodes and their lengths. -/
inductive Course (rules : α → Set (Rule α)) : α → Nat → List (α × Nat) → Prop
  | leaf {a : α} {w : Nat} : .leaf w ∈ rules a → Course rules a w [(a, w)]
  | one {a b : α} {w n : Nat} {nodes : List (α × Nat)} : .one w b ∈ rules a → Course rules b n nodes →
    (∀ x ∈ nodes, x.1 ≠ a) → Course rules a (w + n) ((a, w + n) :: nodes)
  | two {a b c : α} {w m n : Nat} {nodes nodes' : List (α × Nat)} : .two w b c ∈ rules a → Course rules b m nodes →
    Course rules c n nodes' → (∀ x ∈ nodes ++ nodes', x.1 ≠ a) →
    Course rules a (w + m + n) ((a, w + m + n) :: (nodes ++ nodes'))

variable {nodes : List (α × Nat)}

theorem Course.derives (h : Course rules a n nodes) : Derives rules a n := by
  induction h with
  | leaf hr => exact .leaf hr
  | one hr _ _ ih => exact .one hr ih
  | two hr _ _ _ ih ih' => exact .two hr ih ih'

theorem Course.le (h : Course rules a n nodes) : ∀ x ∈ nodes, x.2 ≤ n := by
  induction h with
  | leaf => exact List.forall_mem_singleton.mpr le_rfl
  | one _ _ _ ih =>
    refine List.forall_mem_cons.mpr ⟨le_rfl, fun x hx => ?_⟩
    have := ih x hx
    omega
  | two _ _ _ _ ih ih' =>
    refine List.forall_mem_cons.mpr ⟨le_rfl, fun x hx => ?_⟩
    rcases List.mem_append.mp hx with hx | hx
    · have := ih x hx
      omega
    · have := ih' x hx
      omega

def Below (t : α → Nat) (nodes : List (α × Nat)) : Prop := ∀ x ∈ nodes, t x.1 ≠ 0 ∧ t x.1 ≤ x.2

/-- Every entry of the table is the length of a course whose nodes have no greater entries. -/
def Supported (rules : α → Set (Rule α)) (t : α → Nat) : Prop :=
  ∀ a, t a ≠ 0 → ∃ nodes, Course rules a (t a) nodes ∧ Below t nodes

theorem Supported.sound (h : Supported rules t) : Sound rules t := by
  intro a ha
  obtain ⟨nodes, hcourse, -⟩ := h a ha
  exact hcourse.derives

theorem Below.not_mem (h : Below t nodes) (hle : ∀ x ∈ nodes, x.2 ≤ m) (hm : m < n) (hnew : t a = 0 ∨ n < t a) :
    ∀ x ∈ nodes, x.1 ≠ a := by
  rintro x hx rfl
  have := h x hx
  have := hle x hx
  omega

theorem Supported.course (h : Supported rules t) (hpos : Positive rules) {r : Rule α} (hr : r ∈ rules a)
    (hvalue : r.value t ≠ 0) (hnew : t a = 0 ∨ r.value t < t a) :
    ∃ nodes, Course rules a (r.value t) ((a, r.value t) :: nodes) ∧ Below t nodes := by
  have hw := hpos a r hr
  cases r with
  | leaf w => exact ⟨[], .leaf hr, nofun⟩
  | one w b =>
    have hb : t b ≠ 0 := fun hb => hvalue (if_pos hb)
    obtain ⟨nodes, hcourse, hbelow⟩ := h b hb
    rw [Rule.value, if_neg hb] at hnew ⊢
    refine ⟨nodes, .one hr hcourse ?_, hbelow⟩
    exact hbelow.not_mem hcourse.le (Nat.lt_add_of_pos_left hw) hnew
  | two w b c =>
    have hbc : ¬(t b = 0 ∨ t c = 0) := fun hbc => hvalue (if_pos hbc)
    rw [Rule.value, if_neg hbc] at hnew ⊢
    rw [not_or] at hbc
    obtain ⟨nodes, hcourse, hbelow⟩ := h b hbc.1
    obtain ⟨nodes', hcourse', hbelow'⟩ := h c hbc.2
    have hall : Below t (nodes ++ nodes') := List.forall_mem_append.mpr ⟨hbelow, hbelow'⟩
    refine ⟨nodes ++ nodes', .two hr hcourse hcourse' ?_, hall⟩
    have hle : ∀ x ∈ nodes ++ nodes', x.2 ≤ t b + t c := by
      intro x hx
      rcases List.mem_append.mp hx with hx | hx
      · exact (hcourse.le x hx).trans (Nat.le_add_right _ _)
      · exact (hcourse'.le x hx).trans (Nat.le_add_left _ _)
    refine hall.not_mem hle ?_ hnew
    have : 0 < w := hw
    omega

variable [DecidableEq α]

theorem Supported.improve (h : Supported rules t) (hpos : Positive rules) {r : Rule α} (hr : r ∈ rules a)
    (hvalue : r.value t ≠ 0) (hnew : t a = 0 ∨ r.value t < t a) :
    Supported rules (Function.update t a (r.value t)) := by
  -- the entries of the new table are no greater
  have hbelow : ∀ nodes, Below t nodes → Below (Function.update t a (r.value t)) nodes := by
    intro nodes hnodes x hx
    obtain ⟨hne, hle⟩ := hnodes x hx
    by_cases hxa : x.1 = a
    · rw [hxa] at hne hle ⊢
      rw [Function.update_self]
      omega
    · rw [Function.update_of_ne hxa]
      exact ⟨hne, hle⟩
  intro b hb
  by_cases hba : b = a
  · subst hba
    obtain ⟨nodes, hcourse, hnodes⟩ := h.course hpos hr hvalue hnew
    rw [Function.update_self]
    refine ⟨_, hcourse, List.forall_mem_cons.mpr ⟨?_, hbelow nodes hnodes⟩⟩
    rw [Function.update_self]
    exact ⟨hvalue, le_rfl⟩
  · rw [Function.update_of_ne hba] at hb ⊢
    obtain ⟨nodes, hcourse, hnodes⟩ := h b hb
    exact ⟨nodes, hcourse, hbelow nodes hnodes⟩

theorem Sound.improve (h : Sound rules t) (hn : Derives rules a n) : Sound rules (Function.update t a n) := by
  intro b hb
  by_cases hba : b = a
  · subst hba
    rw [Function.update_self]
    exact hn
  · rw [Function.update_of_ne hba] at hb ⊢
    exact h b hb

/-- An entry as a length: zero is infinite. -/
def length (n : Nat) : ℕ∞ := if n = 0 then ⊤ else n

omit [DecidableEq α] in
theorem length_lt (hn : n ≠ 0) (hnew : m = 0 ∨ n < m) : length n < length m := by
  unfold length
  rw [if_neg hn]
  split
  · exact ENat.natCast_lt_top n
  · rename_i hm
    exact Nat.cast_lt.mpr (hnew.resolve_left hm)

/-- The offers of a loop: the least of `best` and the sums of `weight` and the lengths that are not zero. -/
def relax (weight : Nat) (best dist : Nat) : Nat :=
  if dist = 0 then best else if best = 0 ∨ weight + dist < best then weight + dist else best

section Relax

variable {β : Type} {w best : Nat} {d : β → Nat} {xs : List β}

omit [DecidableEq α] in
theorem foldl_relax_cases (w best : Nat) (d : β → Nat) (xs : List β) :
    xs.foldl (fun best x => relax w best (d x)) best = best ∨
      ∃ x ∈ xs, d x ≠ 0 ∧ xs.foldl (fun best x => relax w best (d x)) best = w + d x := by
  induction xs generalizing best with
  | nil => exact Or.inl rfl
  | cons x xs ih =>
    rw [List.foldl_cons]
    rcases ih (relax w best (d x)) with h | ⟨y, hy, hne, h⟩
    · rw [h]
      unfold relax
      split
      · exact Or.inl rfl
      · rename_i hx
        split
        · exact Or.inr ⟨x, .head _, hx, rfl⟩
        · exact Or.inl rfl
    · exact Or.inr ⟨y, .tail _ hy, hne, h⟩

omit [DecidableEq α] in
theorem foldl_relax_le_best (h : best ≠ 0) : xs.foldl (fun best x => relax w best (d x)) best ≠ 0 ∧
    xs.foldl (fun best x => relax w best (d x)) best ≤ best := by
  induction xs generalizing best with
  | nil => exact ⟨h, le_rfl⟩
  | cons x xs ih =>
    rw [List.foldl_cons]
    have hstep : relax w best (d x) ≠ 0 ∧ relax w best (d x) ≤ best := by
      unfold relax
      split
      · exact ⟨h, le_rfl⟩
      · split <;> omega
    exact ⟨(ih hstep.1).1, (ih hstep.1).2.trans hstep.2⟩

omit [DecidableEq α] in
theorem foldl_relax_le {x : β} (hx : x ∈ xs) (hd : d x ≠ 0) :
    xs.foldl (fun best x => relax w best (d x)) best ≠ 0 ∧
      xs.foldl (fun best x => relax w best (d x)) best ≤ w + d x := by
  induction xs generalizing best with
  | nil => cases hx
  | cons y xs ih =>
    rw [List.foldl_cons]
    rcases List.mem_cons.mp hx with rfl | hx
    · have hstep : relax w best (d x) ≠ 0 ∧ relax w best (d x) ≤ w + d x := by
        unfold relax
        rw [if_neg hd]
        split <;> omega
      obtain ⟨hne, hle⟩ : xs.foldl (fun best x => relax w best (d x)) (relax w best (d x)) ≠ 0 ∧ _ :=
        foldl_relax_le_best hstep.1
      exact ⟨hne, hle.trans hstep.2⟩
    · exact ih hx

end Relax

end Derivations
