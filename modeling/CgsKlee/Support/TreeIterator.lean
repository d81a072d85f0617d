import CgsKlee.Support.ImmutableTree

/-!
# Iterators of immutable trees

An iterator holds the nodes on the way from the root to its place, on a stack with room for as many as the tree is
high.  `++` and `--` are one walk in two directions.  `ahead` are the entries from the place of an iterator on; a step
leaves all but the first of them, and the bounds start where the entries beyond the key do.
-/

namespace CgsKlee

namespace ImmutableTree

open Node

variable {V K : Type}

/-- `iterator`, with the back of its stack first. -/
structure Iterator (V : Type) where
  root : Node V
  stack : List (Node V)

/-- The child that a walk comes to before the node. -/
def Node.near (forward : Bool) (n : Node V) : Node V := if forward then n.left else n.right

/-- The child that it comes to afterwards. -/
def Node.far (forward : Bool) (n : Node V) : Node V := if forward then n.right else n.left

/-- The loop down from a node.  There is room for `max` nodes. -/
def descend (forward : Bool) (max : Nat) : Node V → List (Node V) → Option (List (Node V))
  | terminator, stack => some stack
  | node left right value height, stack =>
    if stack.length < max then
      if forward then descend forward max left (node left right value height :: stack)
      else descend forward max right (node left right value height :: stack)
    else none

/-- The loop up from `prev`.  No two nodes of a tree that holds any entry once are equal, so that they are compared as
the pointers are. -/
def climb [DecidableEq V] (forward : Bool) (prev : Node V) : List (Node V) → List (Node V)
  | [] => []
  | n :: stack => if prev = n.near forward then n :: stack else climb forward n stack

namespace Iterator

/-- `++` and `--`.  Only `--` may leave the end. -/
def step [DecidableEq V] (forward : Bool) (it : Iterator V) : Option (Iterator V) :=
  match it.stack with
  | [] => if forward then none else (descend false it.root.height it.root []).map fun stack => { it with stack }
  | n :: stack =>
    if (n.far forward).isTerminator then some { it with stack := climb forward n stack }
    else (descend forward it.root.height (n.far forward) (n :: stack)).map fun stack => { it with stack }

/-- `for (; it != end; ++it)`, in fewer than `turns` turns: the entries that the loop comes to. -/
def forwards [Inhabited V] [DecidableEq V] : Nat → Iterator V → Option (List V)
  | 0, _ => none
  | turns + 1, it =>
    match it.stack with
    | [] => some []
    | n :: _ => do
      let it ← it.step true
      let rest ← it.forwards turns
      some (n.value :: rest)

/-- `while (it != begin) --it` in the same way. -/
def backwards [Inhabited V] [DecidableEq V] : Nat → Iterator V → Iterator V → Option (List V)
  | 0, _, _ => none
  | turns + 1, it, begin =>
    if it.stack = begin.stack then some []
    else do
      let it ← it.step false
      let n ← it.stack.head?
      let rest ← it.backwards turns begin
      some (n.value :: rest)

/-- The place among `length` entries to which an iterator goes.  The end is the place `length`, and has no next one. -/
def moved (length : Nat) (forward : Bool) (place : Nat) : Option Nat :=
  if forward then if place < length then some (place + 1) else none
  else some (if place = 0 then length else place - 1)

end Iterator

def begin (root : Node V) : Option (Iterator V) := (descend true root.height root []).map fun stack => ⟨root, stack⟩

section Bounds

variable [Inhabited V] [DecidableEq V] [LinearOrder K] (key : V → K) (k : K)

/-- The loop of `lower_bound`. -/
def seek (max : Nat) : Node V → List (Node V) → Option (List (Node V))
  | terminator, stack => some stack
  | node left right value height, stack =>
    if stack.length < max then
      if k < key value then seek max left (node left right value height :: stack)
      else if key value < k then seek max right (node left right value height :: stack)
      else some (node left right value height :: stack)
    else none

def lowerBound (root : Node V) : Option (Iterator V) := do
  let stack ← seek key k root.height root []
  match stack with
  | [] => some ⟨root, []⟩
  | last :: rest =>
    if key last.value < k then Iterator.step true ⟨root, last :: rest⟩
    else some ⟨root, last :: rest⟩

def upperBound (root : Node V) : Option (Iterator V) := do
  let it ← lowerBound key k root
  match it.stack with
  | [] => some it
  | n :: _ => if k < key n.value then some it else it.step true

end Bounds

section Ahead

variable [DecidableEq V] (forward : Bool)

/-- The entries of a tree in the order of the walk. -/
def listed (n : Node V) : List V := if forward then n.toList else n.toList.reverse

variable [Inhabited V]

/-- What the walk comes to after the nodes below `prev`. -/
def beyond (prev : Node V) : List (Node V) → List V
  | [] => []
  | n :: stack =>
    if prev = n.near forward then n.value :: (listed forward (n.far forward) ++ beyond n stack) else beyond n stack

/-- The entries from the place of the iterator on. -/
def ahead : List (Node V) → List V
  | [] => []
  | n :: stack => n.value :: (listed forward (n.far forward) ++ beyond forward n stack)

end Ahead

/-- A way from the root down to a node. -/
inductive Path (root : Node V) : List (Node V) → Prop
  | root (h : root.isTerminator = false) : Path root [root]
  | child (forward : Bool) {n : Node V} {stack : List (Node V)} (h : Path root (n :: stack))
      (hchild : (n.near forward).isTerminator = false) : Path root (n.near forward :: n :: stack)

variable [LinearOrder K] {key : V → K} {k : K} {root n c : Node V} {stack : List (Node V)} {forward : Bool}

@[simp]
theorem near_node (left right : Node V) (value : V) (height : Nat) :
    (node left right value height).near forward = if forward then left else right := by cases forward <;> rfl

@[simp]
theorem far_node (left right : Node V) (value : V) (height : Nat) :
    (node left right value height).far forward = if forward then right else left := by cases forward <;> rfl

theorem near_not (forward : Bool) (n : Node V) : n.near (!forward) = n.far forward := by cases forward <;> rfl

theorem listed_terminator [DecidableEq V] (h : n.isTerminator = true) : listed forward n = [] := by
  cases n with
  | terminator => cases forward <;> rfl
  | node left right value height => cases h

theorem listed_eq [DecidableEq V] [Inhabited V] (h : n.isTerminator = false) :
    listed forward n = listed forward (n.near forward) ++ n.value :: listed forward (n.far forward) := by
  cases n with
  | terminator => cases h
  | node left right value height => cases forward <;> simp [listed, toList, Node.value]

/-- The nodes on the way are balanced search trees, and leave room for what is below them. -/
theorem Path.spec (hb : root.Balanced) (ha : Ascending key root.toList) {s : List (Node V)} (h : Path root s) :
    ∀ {n : Node V} {stack : List (Node V)}, s = n :: stack →
      n.isTerminator = false ∧ n.Balanced ∧ Ascending key n.toList ∧ n.height + stack.length ≤ root.height := by
  induction h with
  | root h =>
    rintro n stack hs
    obtain ⟨rfl, rfl⟩ := List.cons.inj hs
    exact ⟨h, hb, ha, Nat.le_refl _⟩
  | @child forward p stack' h hchild ih =>
    rintro n stack hs
    obtain ⟨rfl, rfl⟩ := List.cons.inj hs
    obtain ⟨hp, hbp, hap, hheight⟩ := ih rfl
    cases p with
    | terminator => cases hp
    | node left right value height =>
      obtain ⟨hl, hr, hh, -, -⟩ := hbp
      rw [toList, ascending_append] at hap
      rw [height_node] at hheight
      rw [List.length_cons]
      cases forward with
      | false => exact ⟨hchild, hr, hap.2.1, by simp; omega⟩
      | true => exact ⟨hchild, hl, hap.1.1, by simp; omega⟩

/-- There is room for what is below the last node on the way. -/
theorem Path.last (hb : root.Balanced) (ha : Ascending key root.toList) (h : Path root (n :: stack)) :
    n.isTerminator = false ∧ Ascending key n.toList ∧ stack.length < root.height := by
  obtain ⟨hn, hbn, hasc, hheight⟩ := h.spec hb ha rfl
  cases n with
  | terminator => cases hn
  | node left right value height =>
    have hpos := hbn.height_pos
    exact ⟨hn, hasc, by omega⟩

/-- The two children of a search tree hold different entries. -/
theorem far_ne_near (forward : Bool) (ha : Ascending key n.toList) (h : (n.near forward).isTerminator = false) :
    n.near forward ≠ n.far forward := by
  intro heq
  cases n with
  | terminator => cases forward <;> cases h
  | node left right value height =>
    obtain ⟨rfl, hleft⟩ : left = right ∧ left.isTerminator = false := by cases forward <;> simp_all
    rw [toList, ascending_append] at ha
    cases left with
    | terminator => cases hleft
    | node ll lr lv lh =>
      have hmem : lv ∈ (node ll lr lv lh).toList := by simp [toList]
      exact absurd (ha.1.2 lv hmem) (ha.2.2 lv hmem).asymm

theorem filter_split {before after : List V} {x : V} {p : V → Bool} (hbefore : ∀ y ∈ before, p y = false)
    (hafter : ∀ y ∈ after, p y = true) (hx : p x = true) : (before ++ x :: after).filter p = x :: after := by
  rw [List.filter_append, List.filter_eq_nil_iff.mpr fun y hy => by simp [hbefore y hy], List.nil_append,
    List.filter_cons_of_pos hx, List.filter_eq_self.mpr hafter]

/-- The stack of an iterator: a way, or nothing at the end. -/
def OnWay (root : Node V) (stack : List (Node V)) : Prop := stack = [] ∨ Path root stack

theorem OnWay.path {s : List (Node V)} (h : OnWay root s) (hs : s = n :: stack) : Path root s :=
  h.resolve_left (hs ▸ List.cons_ne_nil _ _)

section Walk

variable [DecidableEq V] [Inhabited V] (hb : root.Balanced) (ha : Ascending key root.toList)
include hb ha

theorem descend_spec (forward : Bool) (h : Path root (c :: stack)) :
    ∃ m s, descend forward root.height c stack = some (m :: s) ∧ Path root (m :: s) ∧
      ahead forward (m :: s) = listed forward c ++ beyond forward c stack := by
  induction c generalizing stack with
  | terminator => cases (h.last hb ha).1
  | node left right value height ihl ihr =>
    obtain ⟨hc, -, hroom⟩ := h.last hb ha
    have hdown : descend forward root.height (node left right value height) stack =
        descend forward root.height ((node left right value height).near forward)
          (node left right value height :: stack) := by
      rw [descend, if_pos hroom, near_node]
      cases forward <;> rfl
    rw [hdown, listed_eq hc]
    cases hchild : ((node left right value height).near forward).isTerminator with
    | true =>
      refine ⟨_, stack, ?_, h, ?_⟩
      · cases hnear : (node left right value height).near forward with
        | terminator => rfl
        | node _ _ _ _ => rw [hnear] at hchild; cases hchild
      · rw [listed_terminator hchild]
        rfl
    | false =>
      have hpath := Path.child forward h hchild
      have hrec : ∃ m s, descend forward root.height ((node left right value height).near forward)
          (node left right value height :: stack) = some (m :: s) ∧ Path root (m :: s) ∧
            ahead forward (m :: s) = listed forward ((node left right value height).near forward) ++
              beyond forward ((node left right value height).near forward) (node left right value height :: stack) := by
        cases forward with
        | false => exact ihr hpath
        | true => exact ihl hpath
      obtain ⟨m, s, hs, hm, hahead⟩ := hrec
      refine ⟨m, s, hs, hm, ?_⟩
      rw [hahead, beyond, if_pos rfl]
      simp

omit ha hb [LinearOrder K] in
theorem climb_spec (forward : Bool) : ∀ {stack : List (Node V)} {prev : Node V}, Path root (prev :: stack) →
    OnWay root (climb forward prev stack) ∧ ahead forward (climb forward prev stack) = beyond forward prev stack
  | [], _, _ => ⟨.inl rfl, rfl⟩
  | n :: stack, prev, h => by
    have hn : Path root (n :: stack) := by cases h; assumption
    unfold climb beyond
    split
    · exact ⟨.inr hn, rfl⟩
    · exact climb_spec forward hn

/-- A step leaves what is behind the place of the iterator. -/
theorem step_spec (forward : Bool) (it : Iterator V) (hroot : it.root = root) (h : Path root it.stack) :
    ∃ it', it.step forward = some it' ∧ it'.root = root ∧ OnWay root it'.stack ∧
      ahead forward it'.stack = (ahead forward it.stack).tail := by
  obtain ⟨_, stack⟩ := it
  subst hroot
  cases stack with
  | nil => cases h
  | cons n stack =>
    dsimp only at h ⊢
    obtain ⟨hn, hasc, -⟩ := h.last hb ha
    unfold Iterator.step
    rw [ahead, List.tail_cons]
    cases hfar : (n.far forward).isTerminator with
    | true =>
      obtain ⟨hway, hahead⟩ := climb_spec forward h
      exact ⟨_, if_pos hfar, rfl, hway, by rw [hahead, listed_terminator hfar, List.nil_append]⟩
    | false =>
      have hchild : (n.near (!forward)).isTerminator = false := near_not forward n ▸ hfar
      have hne : n.far forward ≠ n.near forward := by
        have := far_ne_near _ hasc hchild
        rwa [near_not, ← near_not (!forward), Bool.not_not] at this
      obtain ⟨m, s, hs, hm, hahead⟩ := descend_spec hb ha forward (near_not forward n ▸ h.child _ hchild)
      refine ⟨_, (if_neg (by simp [hfar])).trans (congrArg _ hs), rfl, .inr hm, ?_⟩
      rw [hahead, beyond, if_neg hne]

/-- The end is behind the last entry. -/
theorem step_end {it : Iterator V} (hroot : it.root = root) (hend : it.stack = []) :
    ∃ it', it.step false = some it' ∧ it'.root = root ∧ OnWay root it'.stack ∧
      ahead false it'.stack = root.toList.reverse := by
  obtain ⟨root, _⟩ := it
  subst hroot hend
  cases root with
  | terminator => exact ⟨_, rfl, rfl, .inl rfl, rfl⟩
  | node left right value height =>
    obtain ⟨m, s, hs, hm, hahead⟩ := descend_spec hb ha false (.root rfl)
    refine ⟨⟨_, m :: s⟩, ?_, rfl, .inr hm, hahead.trans (List.append_nil _)⟩
    exact congrArg (Option.map fun stack => Iterator.mk (node left right value height) stack) hs

/-- The entries before a node, those below it, and those after it. -/
theorem beyond_split {s : List (Node V)} (h : Path root s) : ∀ {n : Node V} {stack : List (Node V)}, s = n :: stack →
    (beyond false n stack).reverse ++ n.toList ++ beyond true n stack = root.toList := by
  induction h with
  | root _ =>
    rintro n stack hs
    obtain ⟨rfl, rfl⟩ := List.cons.inj hs
    exact List.append_nil _
  | @child forward p stack' h hchild ih =>
    rintro n stack hs
    obtain ⟨rfl, rfl⟩ := List.cons.inj hs
    obtain ⟨hp, hasc, -⟩ := h.last hb ha
    have hne := far_ne_near _ hasc hchild
    rw [← ih rfl]
    cases p with
    | terminator => cases hp
    | node left right value height =>
      cases forward with
      | false =>
        have hne' : right ≠ left := by simpa using hne
        simp [beyond, hne', toList, listed, Node.value]
      | true =>
        have hne' : left ≠ right := by simpa using hne
        simp [beyond, hne', toList, listed, Node.value]

/-- The entries before the place of an iterator, and those from it on. -/
theorem ahead_split (h : Path root (n :: stack)) :
    (ahead false (n :: stack)).tail.reverse ++ n.value :: (ahead true (n :: stack)).tail = root.toList := by
  obtain ⟨hn, -⟩ := h.last hb ha
  rw [← beyond_split hb ha h rfl]
  cases n with
  | terminator => cases hn
  | node left right value height => simp [ahead, toList, listed, Node.value]

/-- What `lower_bound` has found: everything on one side of the node is on the same side of the key. -/
def Bounds (key : V → K) (k : K) (n : Node V) (stack : List (Node V)) : Prop :=
  (k < key n.value → ∀ x ∈ (ahead false (n :: stack)).tail, key x < k) ∧
    (key n.value < k → ∀ x ∈ (ahead true (n :: stack)).tail, k < key x)

theorem seek_spec (h : Path root (c :: stack)) (hlow : ∀ x ∈ beyond false c stack, key x < k)
    (hhigh : ∀ x ∈ beyond true c stack, k < key x) :
    ∃ m s, seek key k root.height c stack = some (m :: s) ∧ Path root (m :: s) ∧ Bounds key k m s := by
  induction c generalizing stack with
  | terminator => cases (h.last hb ha).1
  | node left right value height ihl ihr =>
    obtain ⟨hc, hasc, hroom⟩ := h.last hb ha
    have hne := fun forward => far_ne_near forward hasc
    rw [toList, ascending_append] at hasc
    obtain ⟨⟨-, hlx⟩, -, hx⟩ := hasc
    rw [seek, if_pos hroom]
    split
    · rename_i hlt
      cases hleft : left.isTerminator with
      | true =>
        refine ⟨_, stack, ?_, h, fun _ => ?_, fun hgt => absurd hlt hgt.asymm⟩
        · cases left with
          | terminator => rfl
          | node _ _ _ _ => cases hleft
        · simpa [ahead, listed_terminator hleft] using hlow
      | false =>
        have hne' : left ≠ right := by simpa using hne true hleft
        refine ihl (h.child true hleft) ?_ ?_
        · simpa [beyond, hne'] using hlow
        · simp only [beyond, near_node, far_node, if_true, Node.value, listed]
          intro x hmem
          rcases List.mem_cons.mp hmem with rfl | hmem
          · exact hlt
          · rcases List.mem_append.mp hmem with hmem | hmem
            · exact hlt.trans (hx x hmem)
            · exact hhigh x hmem
    · split
      · rename_i hlt
        cases hright : right.isTerminator with
        | true =>
          refine ⟨_, stack, ?_, h, fun hgt => absurd hlt hgt.asymm, fun _ => ?_⟩
          · cases right with
            | terminator => rfl
            | node _ _ _ _ => cases hright
          · simpa [ahead, listed_terminator hright] using hhigh
        | false =>
          have hne' : right ≠ left := by simpa using hne false hright
          refine ihr (h.child false hright) ?_ ?_
          · simp only [beyond, near_node, far_node, if_true, Node.value, listed, Bool.false_eq_true, if_false]
            intro x hmem
            rcases List.mem_cons.mp hmem with rfl | hmem
            · exact hlt
            · rcases List.mem_append.mp hmem with hmem | hmem
              · exact (hlx x (List.mem_reverse.mp hmem)).trans hlt
              · exact hlow x hmem
          · simpa [beyond, hne'] using hhigh
      · rename_i hge hle
        exact ⟨_, stack, rfl, h, fun hgt => absurd hgt hge, fun hlt => absurd hlt hle⟩

/-- The iterator is at the first of some last entries of the tree. -/
def At (root : Node V) (entries : List V) (it : Iterator V) : Prop :=
  it.root = root ∧ OnWay root it.stack ∧ ahead true it.stack = entries

variable {place : Nat} {it : Iterator V}

theorem At.behind (h : At root (root.toList.drop place) it) (hstack : it.stack = n :: stack) :
    (ahead false (n :: stack)).tail = (root.toList.take place).reverse := by
  obtain ⟨-, hway, hentries⟩ := h
  rw [hstack] at hway hentries
  have hsplit := ahead_split hb ha (hway.path rfl)
  rw [← List.take_append_drop place root.toList, ← hentries] at hsplit
  rw [← List.append_cancel_right hsplit, List.reverse_reverse]

/-- `++` goes to the next place, if there is one, and `--` to the one before, or from the first one to the end. -/
theorem At.step (forward : Bool) (h : At root (root.toList.drop place) it) (hplace : place ≤ root.toList.length) :
    Option.Rel (fun it' place' => At root (root.toList.drop place') it' ∧ place' ≤ root.toList.length)
      (it.step forward) (Iterator.moved root.toList.length forward place) := by
  have hbehind := fun n s (hstack : it.stack = n :: s) => h.behind hb ha hstack
  obtain ⟨hroot, hway, hentries⟩ := h
  cases forward with
  | true =>
    unfold Iterator.moved
    rw [if_pos rfl]
    cases hstack : it.stack with
    | nil =>
      rw [hstack] at hentries
      have hend : ¬place < root.toList.length := Nat.not_lt.mpr (List.drop_eq_nil_iff.mp hentries.symm)
      have hstep : it.step true = none := by simp [Iterator.step, hstack]
      rw [hstep, if_neg hend]
      exact .none
    | cons n s =>
      have hpath := hway.path hstack
      obtain ⟨it', hit, hroot', hway', hahead⟩ := step_spec hb ha true it hroot hpath
      rw [hentries, List.tail_drop] at hahead
      have hlt : place < root.toList.length := by
        by_contra hge
        rw [List.drop_eq_nil_of_le (Nat.not_lt.mp hge), hstack] at hentries
        cases hentries
      rw [hit, if_pos hlt]
      exact .some ⟨⟨hroot', hway', hahead⟩, hlt⟩
  | false =>
    obtain ⟨it', hit, hroot', hway', hahead⟩ : ∃ it', it.step false = some it' ∧ it'.root = root ∧
        OnWay root it'.stack ∧ ahead false it'.stack = (root.toList.take place).reverse := by
      cases hstack : it.stack with
      | nil =>
        rw [hstack] at hentries
        rw [List.take_of_length_le (List.drop_eq_nil_iff.mp hentries.symm)]
        exact step_end hb ha hroot hstack
      | cons n s =>
        rw [← hbehind n s hstack, ← hstack]
        exact step_spec hb ha false it hroot (hway.path hstack)
    rw [hit]
    cases place with
    | zero =>
      refine .some ⟨⟨hroot', hway', ?_⟩, Nat.le_refl _⟩
      rw [if_pos rfl, List.drop_length]
      cases hstack : it'.stack with
      | nil => rfl
      | cons m s =>
        rw [hstack] at hahead
        cases hahead
    | succ place =>
      refine .some ⟨⟨hroot', hway', ?_⟩, Nat.le_of_succ_le hplace⟩
      rw [List.take_succ_eq_append_getElem hplace, List.reverse_append] at hahead
      cases hstack : it'.stack with
      | nil =>
        rw [hstack] at hahead
        cases hahead
      | cons m s =>
        rw [hstack] at hahead hway'
        have hsplit := ahead_split hb ha (hway'.path rfl)
        rw [hahead, List.reverse_singleton, List.singleton_append, List.tail_cons, List.reverse_reverse] at hsplit
        exact List.append_cancel_left (hsplit.trans (List.take_append_drop place root.toList).symm)

theorem At.moves (h : At root (root.toList.drop place) it) (hplace : place ≤ root.toList.length) (moves : List Bool) :
    Option.Rel (fun it place => it.stack.head?.map Node.value = root.toList[place]?)
      (moves.foldlM (fun it forward => it.step forward) it)
      (moves.foldlM (fun place forward => Iterator.moved root.toList.length forward place) place) := by
  induction moves generalizing place it with
  | nil =>
    refine .some ?_
    rw [← List.head?_drop, ← h.2.2]
    cases it.stack <;> rfl
  | cons forward moves ih =>
    have hstep := h.step hb ha forward hplace
    rw [List.foldlM_cons, List.foldlM_cons]
    cases hit : it.step forward <;> cases hmoved : Iterator.moved root.toList.length forward place <;>
      rw [hit, hmoved] at hstep <;> cases hstep
    · exact .none
    · rename_i h'
      exact ih h'.1 h'.2

/-- The way to the first entry is that of `begin`. -/
theorem descend_path {s : List (Node V)} (h : Path root s) : ∀ {n : Node V} {stack : List (Node V)}, s = n :: stack →
    beyond false n stack = [] → descend true root.height root [] = descend true root.height n stack := by
  induction h with
  | root _ =>
    rintro n stack hs -
    obtain ⟨rfl, rfl⟩ := List.cons.inj hs
    rfl
  | @child forward p stack' h hchild ih =>
    rintro n stack hs hbeyond
    obtain ⟨rfl, rfl⟩ := List.cons.inj hs
    obtain ⟨hp, hasc, hroom⟩ := h.last hb ha
    have hne := far_ne_near _ hasc hchild
    cases p with
    | terminator => cases hp
    | node left right value height =>
      cases forward with
      | false => simp [beyond] at hbeyond
      | true =>
        have hne' : left ≠ right := by simpa using hne
        rw [ih rfl (by simpa [beyond, hne'] using hbeyond), descend, if_pos hroom, if_pos rfl]
        rfl

theorem lowerBound_spec : ∃ it, lowerBound key k root = some it ∧ At root (root.toList.filter (k ≤ key ·)) it := by
  cases hterm : root.isTerminator with
  | true =>
    cases root with
    | terminator => exact ⟨_, rfl, rfl, .inl rfl, rfl⟩
    | node _ _ _ _ => cases hterm
  | false =>
    obtain ⟨m, s, hs, hm, hbelow, habove⟩ := seek_spec (k := k) hb ha (.root hterm)
      (fun _ h => by cases h) fun _ h => by cases h
    have hsplit := ahead_split hb ha hm
    have hasc := ha
    rw [← hsplit, ascending_append] at hasc
    obtain ⟨⟨-, hlow⟩, -, hhigh⟩ := hasc
    unfold lowerBound
    rw [hs, ← hsplit]
    dsimp only [Option.bind_eq_bind, Option.bind_some]
    split
    · rename_i hlt
      obtain ⟨it, hit, hroot, hway, hahead⟩ := step_spec hb ha true ⟨root, m :: s⟩ rfl hm
      refine ⟨it, hit, hroot, hway, hahead.trans ?_⟩
      rw [List.filter_append, List.filter_cons_of_neg (by simpa using hlt)]
      rw [List.filter_eq_nil_iff.mpr fun y hy => by simpa using (hlow y hy).trans hlt, List.nil_append]
      exact (List.filter_eq_self.mpr fun y hy => by simpa using (habove hlt y hy).le).symm
    · rename_i hge
      refine ⟨_, rfl, rfl, .inr hm, ?_⟩
      rw [filter_split (fun y hy => ?_) (fun y hy => ?_) (by simpa using hge)]
      · rfl
      · rcases (not_lt.mp hge).lt_or_eq with hlt | heq
        · simpa using hbelow hlt y (List.mem_reverse.mp hy)
        · simpa [heq] using hlow y hy
      · simpa using (not_lt.mp hge).trans (hhigh y hy).le

theorem upperBound_spec : ∃ it, upperBound key k root = some it ∧ At root (root.toList.filter (k < key ·)) it := by
  obtain ⟨⟨r, stack⟩, hit, hroot, hway, hahead⟩ := lowerBound_spec (k := k) hb ha
  obtain rfl : r = root := hroot
  unfold upperBound
  rw [hit]
  dsimp only [Option.bind_eq_bind, Option.bind_some] at hahead hway ⊢
  have hfilter : r.toList.filter (k < key ·) = (r.toList.filter (k ≤ key ·)).filter (k < key ·) := by
    rw [List.filter_filter]
    refine List.filter_congr fun x _ => ?_
    by_cases hx : k < key x <;> simp [hx, le_of_lt]
  rw [hfilter, ← hahead]
  cases stack with
  | nil => exact ⟨_, rfl, rfl, hway, rfl⟩
  | cons n stack =>
    rcases hway with hnil | hpath
    · cases hnil
    have hasc : Ascending key (ahead true (n :: stack)) := hahead ▸ ha.filter _
    have hhigh := (List.pairwise_cons.mp hasc).1
    have hle : k ≤ key n.value := by
      have hmem : n.value ∈ r.toList.filter (k ≤ key ·) := hahead ▸ List.mem_cons_self
      simpa using (List.mem_filter.mp hmem).2
    have htail : ((ahead true (n :: stack)).tail).filter (k < key ·) = (ahead true (n :: stack)).tail :=
      List.filter_eq_self.mpr fun y hy => by simpa using hle.trans_lt (hhigh y hy)
    dsimp only
    split
    · rename_i hlt
      refine ⟨_, rfl, rfl, .inr hpath, ?_⟩
      exact (List.filter_cons_of_pos (by simpa using hlt)).trans (congrArg _ htail) |>.symm
    · rename_i hge
      obtain ⟨it, hit, hroot, hway, hstep⟩ := step_spec hb ha true ⟨r, n :: stack⟩ rfl hpath
      refine ⟨it, hit, hroot, hway, hstep.trans ?_⟩
      exact ((List.filter_cons_of_neg (by simpa using hge)).trans htail).symm

theorem begin_spec : ∃ it, begin root = some it ∧ At root root.toList it := by
  cases root with
  | terminator => exact ⟨_, rfl, rfl, .inl rfl, rfl⟩
  | node left right value height =>
    obtain ⟨m, s, hs, hm, hahead⟩ := descend_spec hb ha true (.root rfl)
    refine ⟨⟨_, m :: s⟩, ?_, rfl, .inr hm, hahead.trans (List.append_nil _)⟩
    exact congrArg (Option.map fun stack => Iterator.mk (node left right value height) stack) hs

theorem At.eq_begin {first : Iterator V} (h : At root root.toList it) (hfirst : begin root = some first) :
    it.stack = first.stack := by
  obtain ⟨stack, hdescend, rfl⟩ := Option.map_eq_some_iff.mp hfirst
  have h' : At root (root.toList.drop 0) it := h
  have hbehind := fun n s (hstack : it.stack = n :: s) => h'.behind hb ha hstack
  obtain ⟨-, hway, hentries⟩ := h
  cases hstack : it.stack with
  | nil =>
    rw [hstack] at hentries
    cases root with
    | terminator => exact Option.some.inj hdescend
    | node left right value height => simp [ahead, toList] at hentries
  | cons n s =>
    rw [hstack] at hway
    have hpath := hway.path rfl
    obtain ⟨hn, -, hroom⟩ := hpath.last hb ha
    obtain ⟨hlisted, hbeyond⟩ := List.append_eq_nil_iff.mp (hbehind n s hstack)
    rw [descend_path hb ha hpath rfl hbeyond] at hdescend
    cases n with
    | terminator => cases hn
    | node left right value height =>
      cases left with
      | terminator => exact Option.some.inj (((if_pos hroom).trans (if_pos rfl)).symm.trans hdescend)
      | node _ _ _ _ => simp [listed, toList] at hlisted

theorem forwards_eq {turns : Nat} (hroot : it.root = root) (hway : OnWay root it.stack)
    (hturns : (ahead true it.stack).length < turns) : it.forwards turns = some (ahead true it.stack) := by
  induction turns generalizing it with
  | zero => cases hturns
  | succ turns ih =>
    unfold Iterator.forwards
    cases hstack : it.stack with
    | nil => rfl
    | cons n s =>
      have hpath := hway.path hstack
      obtain ⟨it', hit, hroot', hway', hahead⟩ := step_spec hb ha true it hroot hpath
      rw [hstack, ahead, List.tail_cons] at hahead
      rw [hstack, ahead, List.length_cons] at hturns
      dsimp only
      rw [hit, Option.bind_eq_bind, Option.bind_some, ih hroot' hway' (by rw [hahead]; omega), hahead]
      rfl

theorem backwards_eq {turns : Nat} {first : Iterator V} (hfirst : begin root = some first)
    (h : At root (root.toList.drop place) it) (hplace : place ≤ root.toList.length) (hturns : place < turns) :
    it.backwards turns first = some (root.toList.take place).reverse := by
  induction turns generalizing place it with
  | zero => cases hturns
  | succ turns ih =>
    unfold Iterator.backwards
    cases place with
    | zero => exact if_pos (h.eq_begin hb ha hfirst)
    | succ place =>
      have hne : it.stack ≠ first.stack := by
        intro heq
        obtain ⟨_, hat, -, -, hbegin⟩ := begin_spec hb ha
        rw [hfirst] at hat
        cases hat
        have hlength := congrArg List.length (h.2.2.symm.trans (heq ▸ hbegin))
        rw [List.length_drop] at hlength
        omega
      have hstep := h.step hb ha false hplace
      rw [if_neg hne]
      cases hit : it.step false with
      | none =>
        rw [hit] at hstep
        cases hstep
      | some it' =>
        rw [hit] at hstep
        obtain ⟨h', hplace'⟩ : At root (root.toList.drop place) it' ∧ place ≤ root.toList.length := by
          cases hstep
          assumption
        have hentries := h'.2.2
        rw [List.drop_eq_getElem_cons hplace] at hentries
        cases hstack : it'.stack with
        | nil =>
          rw [hstack] at hentries
          cases hentries
        | cons n s =>
          rw [hstack, ahead] at hentries
          simp only [Option.bind_eq_bind, Option.bind_some, hstack, List.head?_cons,
            ih h' hplace' (Nat.lt_of_succ_lt_succ hturns)]
          rw [List.take_succ_eq_append_getElem hplace, List.reverse_append, (List.cons.inj hentries).1]
          rfl

end Walk

/-- A sorted list begins with the entries that are on this side of a bound. -/
theorem filter_append_filter_not {l : List V} {p : V → Bool} (h : l.Pairwise fun x y => p y = true → p x = true) :
    l.filter p ++ l.filter (!p ·) = l := by
  induction l with
  | nil => rfl
  | cons x l ih =>
    obtain ⟨hx, hl⟩ := List.pairwise_cons.mp h
    cases hp : p x with
    | true => rw [List.filter_cons_of_pos hp, List.filter_cons_of_neg (by simp [hp]), List.cons_append, ih hl]
    | false =>
      have hall : ∀ y ∈ l, p y = false := fun y hy => by
        by_contra hne
        exact absurd (hx y hy (by simpa using hne)) (by simp [hp])
      rw [List.filter_cons_of_neg (by simp [hp]), List.filter_cons_of_pos (by simp [hp]),
        List.filter_eq_nil_iff.mpr fun y hy => by simp [hall y hy], List.nil_append,
        List.filter_eq_self.mpr fun y hy => by simp [hall y hy]]

theorem filter_le_append_filter_lt {l : List V} (h : Ascending key l) :
    l.filter (key · ≤ k) ++ l.filter (k < key ·) = l := by
  have hsplit := filter_append_filter_not (p := (key · ≤ k)) (h.imp fun hxy => by simpa using hxy.le.trans)
  simpa only [← decide_not, not_le] using hsplit

theorem filter_lt_append_filter_le {l : List V} (h : Ascending key l) :
    l.filter (key · < k) ++ l.filter (k ≤ key ·) = l := by
  have hsplit := filter_append_filter_not (p := (key · < k)) (h.imp fun hxy => by simpa using hxy.trans)
  simpa only [← decide_not, not_lt] using hsplit

/-- The iterator at the end of a first part of the entries. -/
theorem At.of_split {before after : List V} {it : Iterator V} [DecidableEq V] [Inhabited V] (h : At root after it)
    (hsplit : before ++ after = root.toList) :
    At root (root.toList.drop before.length) it ∧ before.length ≤ root.toList.length := by
  rw [← hsplit, List.drop_left, List.length_append]
  exact ⟨h, Nat.le_add_right _ _⟩

/-- The two loops from `upper_bound` on. -/
theorem upperBound_loops [DecidableEq V] [Inhabited V] (hb : root.Balanced) (ha : Ascending key root.toList) (k : K)
    {turns : Nat} (hturns : root.toList.length < turns) :
    ∃ start first, upperBound key k root = some start ∧ begin root = some first ∧
      start.backwards turns first = some (root.toList.filter (key · ≤ k)).reverse ∧
        start.forwards turns = some (root.toList.filter (k < key ·)) := by
  obtain ⟨start, hstart, hat⟩ := upperBound_spec (k := k) hb ha
  obtain ⟨first, hfirst, -⟩ := begin_spec hb ha
  have hsplit := filter_le_append_filter_lt (k := k) ha
  obtain ⟨hat', hplace⟩ := hat.of_split hsplit
  refine ⟨start, first, hstart, hfirst, ?_, ?_⟩
  · rw [backwards_eq hb ha hfirst hat' hplace (Nat.lt_of_le_of_lt hplace hturns)]
    nth_rewrite 2 [← hsplit]
    rw [List.take_left]
  · rw [← hat.2.2]
    refine forwards_eq hb ha hat.1 hat.2.1 ?_
    rw [hat.2.2]
    exact Nat.lt_of_le_of_lt (List.length_filter_le _ _) hturns

/-- Whatever operations have made the tree, its iterators are places in the sorted list of its entries: from the
beginning, the end and the bounds, any run of `++` and `--` goes from place to place. -/
theorem iterators_refine [DecidableEq V] [Inhabited V] (key : V → K) (ops : List (Op V K)) (k : K) :
    let t := ops.foldl (fun t op => op.apply key t) terminator
    let entries := ops.foldl (fun l op => op.onEntries key l) []
    ∀ start ∈ [(begin t, 0), (some ⟨t, []⟩, entries.length), (lowerBound key k t, (entries.filter (key · < k)).length),
        (upperBound key k t, (entries.filter (key · ≤ k)).length)], ∃ it, start.1 = some it ∧ ∀ moves : List Bool,
      Option.Rel (fun it place => it.stack.head?.map Node.value = entries[place]?)
        (moves.foldlM (fun it forward => it.step forward) it)
        (moves.foldlM (fun place forward => Iterator.moved entries.length forward place) start.2) := by
  intro t entries
  have hnil : Ascending key (terminator : Node V).toList := List.Pairwise.nil
  obtain ⟨hb, hentries, ha⟩ := run_spec ops (t := terminator) trivial hnil
  rw [show entries = t.toList from hentries.symm]
  have hmoves : ∀ {before after : List V} {it}, At t after it → before ++ after = t.toList → _ :=
    fun hat hsplit => (hat.of_split hsplit).1.moves hb ha (hat.of_split hsplit).2
  obtain ⟨first, hfirst, hat⟩ := begin_spec hb ha
  obtain ⟨lower, hlower, hat'⟩ := lowerBound_spec (k := k) hb ha
  obtain ⟨upper, hupper, hat''⟩ := upperBound_spec (k := k) hb ha
  simp only [List.forall_mem_cons]
  refine ⟨⟨first, hfirst, hmoves hat (List.nil_append _)⟩, ⟨_, rfl, hmoves ⟨rfl, .inl rfl, rfl⟩ (List.append_nil _)⟩,
    ⟨lower, hlower, hmoves hat' (filter_lt_append_filter_le ha)⟩,
    ⟨upper, hupper, hmoves hat'' (filter_le_append_filter_lt ha)⟩, fun _ h => by cases h⟩

end ImmutableTree

end CgsKlee
