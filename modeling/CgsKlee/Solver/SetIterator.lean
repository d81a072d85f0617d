import CgsKlee.Solver.SetSearches
import Mathlib.Data.List.Sort
import Mathlib.Logic.Function.Basic

/-!
# Iteration over a map of sets, and its runs

An iterator keeps the way from the root to its entry as a stack of places among the children of nodes.  A step goes
down to the next entry below, or up to the next child that is left, and down from there.  Over all runs of `insert`
and `clear` the tree is a map from sets: this is the main result about `MapOfSets`.
-/

namespace CgsKlee

variable {K V : Type}

/-- A place among the children of a node: the child, and the children after it. -/
structure SetCursor (K V : Type) where
  key : K
  node : SetNode K V
  rest : SetChildren K V

/-- `MapOfSets::iterator`, the last place first in its stack. -/
structure SetIterator (K V : Type) where
  onEntry : Bool
  stack : List (SetCursor K V)

def SetIterator.top (root : SetNode K V) : List (SetCursor K V) → SetNode K V
  | [] => root
  | cur :: _ => cur.node

def SetNode.isEndOfSet : SetNode K V → Bool
  | .mk value _ => value.isSome

/-- The first loop of `step`: down to an entry, or to a node without children. -/
def SetNode.descend (stack : List (SetCursor K V)) : SetNode K V → Bool × List (SetCursor K V)
  | .mk _ .nil => (false, stack)
  | .mk _ (.cons key node rest) =>
    if node.isEndOfSet then (true, ⟨key, node, rest⟩ :: stack) else node.descend (⟨key, node, rest⟩ :: stack)

/-- The inner loop of `step`: down to an entry, which its assertion expects. -/
def SetNode.toEntry (stack : List (SetCursor K V)) : SetNode K V → Option (SetIterator K V)
  | .mk (some _) _ => some ⟨true, stack⟩
  | .mk none .nil => none
  | .mk none (.cons key node rest) => node.toEntry (⟨key, node, rest⟩ :: stack)

/-- The second loop of `step`: up to a node with a child left. -/
def SetIterator.advance : List (SetCursor K V) → Option (SetIterator K V)
  | [] => some ⟨false, []⟩
  | ⟨_, _, .nil⟩ :: stack => SetIterator.advance stack
  | ⟨_, _, .cons key node rest⟩ :: stack => node.toEntry (⟨key, node, rest⟩ :: stack)

def SetIterator.step (root : SetNode K V) (it : SetIterator K V) : Option (SetIterator K V) :=
  if it.onEntry then
    match (SetIterator.top root it.stack).descend it.stack with
    | (true, stack) => some ⟨true, stack⟩
    | (false, stack) => SetIterator.advance stack
  else SetIterator.advance it.stack

def SetNode.begin (root : SetNode K V) : Option (SetIterator K V) :=
  if root.isEndOfSet then some ⟨true, []⟩ else SetIterator.step root ⟨true, []⟩

def SetIterator.isEnd (it : SetIterator K V) : Bool := !it.onEntry && it.stack.isEmpty

section Order

variable [LinearOrder K]

/-- `iterator::operator*`.  A node without a value holds the default one, which no entry is. -/
def SetIterator.deref (root : SetNode K V) (it : SetIterator K V) : Option (List K × V) :=
  if it.onEntry || !it.stack.isEmpty then
    match SetIterator.top root it.stack with
    | .mk value _ => value.map fun v => (it.stack.foldr (fun cur s => setInsert cur.key s) [], v)
  else none

def SetIterator.visit (root : SetNode K V) : Nat → SetIterator K V → Option (List (List K × V))
  | 0, _ => none
  | fuel + 1, it =>
    if it.isEnd then some []
    else do
      let e ← it.deref root
      let next ← it.step root
      let es ← SetIterator.visit root fuel next
      some (e :: es)

omit [LinearOrder K] in
def SetIterator.path (stack : List (SetCursor K V)) : List K := (stack.map SetCursor.key).reverse

/-- Entries below a node on the way to which the path leads. -/
def prefixed (path : List K) (es : List (List K × V)) : List (List K × V) := es.map fun e => (path ++ e.1, e.2)

def SetIterator.pending : List (SetCursor K V) → List (List K × V)
  | [] => []
  | cur :: stack => prefixed (SetIterator.path stack) cur.rest.entries ++ SetIterator.pending stack

def SetCursor.children (cur : SetCursor K V) : SetChildren K V := .cons cur.key cur.node cur.rest

/-- The places of a stack are in valid trees below each other. -/
def SetIterator.StackValid : List (SetCursor K V) → Prop
  | [] => True
  | cur :: stack => cur.children.Valid ∧ (∀ x ∈ SetIterator.path stack, cur.children.KeysAbove x) ∧
    SetIterator.StackValid stack

structure SetIterator.Remaining (root : SetNode K V) (it : SetIterator K V) (es : List (List K × V)) : Prop where
  valid : SetIterator.StackValid it.stack
  onEntry : it.onEntry = true → ∃ v children, SetIterator.top root it.stack = .mk (some v) children ∧
    es = (SetIterator.path it.stack, v) ::
      (prefixed (SetIterator.path it.stack) children.entries ++ SetIterator.pending it.stack)
  atEnd : it.onEntry = false → it.stack = [] ∧ es = []

omit [LinearOrder K] in
@[simp]
theorem SetIterator.path_cons (cur : SetCursor K V) (stack : List (SetCursor K V)) :
    SetIterator.path (cur :: stack) = SetIterator.path stack ++ [cur.key] := by
  simp [SetIterator.path]

omit [LinearOrder K] in
theorem prefixed_cons (path : List K) (key : K) (node : SetNode K V) (rest : SetChildren K V) :
    prefixed path (SetChildren.cons key node rest).entries =
      prefixed (path ++ [key]) node.entries ++ prefixed path rest.entries := by
  unfold prefixed
  rw [SetChildren.entries, List.map_append, List.map_map]
  congr 1
  refine List.map_congr_left fun e _ => ?_
  simp

omit [LinearOrder K] in
theorem SetNode.isEndOfSet_eq_false {node : SetNode K V} (h : node.isEndOfSet = false) :
    node.entries = node.children.entries := by
  obtain ⟨_ | v, children⟩ := node
  · rfl
  · cases h

omit [LinearOrder K] in
theorem SetNode.isEndOfSet_eq_true {node : SetNode K V} (h : node.isEndOfSet = true) :
    ∃ v, node = .mk (some v) node.children ∧ node.entries = ([], v) :: node.children.entries := by
  obtain ⟨_ | v, children⟩ := node
  · cases h
  · exact ⟨v, rfl, rfl⟩

theorem SetIterator.StackValid.push {stack : List (SetCursor K V)} (hstack : SetIterator.StackValid stack) {key : K}
    {node : SetNode K V} {rest : SetChildren K V} (h : (SetChildren.cons key node rest).Valid)
    (habove : ∀ x ∈ SetIterator.path stack, (SetChildren.cons key node rest).KeysAbove x) :
    SetIterator.StackValid (⟨key, node, rest⟩ :: stack) := ⟨h, habove, hstack⟩

theorem SetIterator.StackValid.above {cur : SetCursor K V} {stack : List (SetCursor K V)}
    (h : SetIterator.StackValid (cur :: stack)) :
    ∀ x ∈ SetIterator.path (cur :: stack), cur.node.children.KeysAbove x := by
  rw [SetIterator.path_cons]
  exact (SetChildren.Valid.accum_above h.1 h.2.1).2

theorem SetNode.toEntry_remaining (root : SetNode K V) : ∀ (node : SetNode K V) {stack : List (SetCursor K V)},
    SetIterator.StackValid stack → SetIterator.top root stack = node → node.Valid → node.HasEntry →
    (∀ x ∈ SetIterator.path stack, node.children.KeysAbove x) →
    ∃ it, node.toEntry stack = some it ∧
      it.Remaining root (prefixed (SetIterator.path stack) node.entries ++ SetIterator.pending stack)
  | .mk (some v) children, stack, hstack, htop, _, _, _ => by
    refine ⟨⟨true, stack⟩, rfl, hstack, fun _ => ⟨v, children, htop, ?_⟩, nofun⟩
    simp [prefixed, SetNode.entries]
  | .mk none .nil, _, _, _, _, hentry, _ => absurd rfl (hentry rfl)
  | .mk none (.cons key node rest), stack, hstack, _, h, _, habove => by
    have hstack' := hstack.push h habove
    obtain ⟨it, hit, hremaining⟩ := SetNode.toEntry_remaining root node hstack' rfl h.1.1 h.1.2.1 hstack'.above
    refine ⟨it, hit, ?_⟩
    have hentries : (SetNode.mk none (.cons key node rest)).entries = (SetChildren.cons key node rest).entries := rfl
    rw [hentries, prefixed_cons, List.append_assoc]
    rw [SetIterator.path_cons] at hremaining
    exact hremaining

theorem SetIterator.advance_remaining (root : SetNode K V) : ∀ {stack : List (SetCursor K V)},
    SetIterator.StackValid stack →
    ∃ it, SetIterator.advance stack = some it ∧ it.Remaining root (SetIterator.pending stack)
  | [], _ => ⟨⟨false, []⟩, rfl, trivial, nofun, fun _ => ⟨rfl, rfl⟩⟩
  | ⟨_, _, .nil⟩ :: stack, h => by
    obtain ⟨it, hit, hremaining⟩ := SetIterator.advance_remaining root h.2.2
    exact ⟨it, hit, hremaining⟩
  | ⟨key', node', .cons key node rest⟩ :: stack, h => by
    have hvalid : (SetChildren.cons key node rest).Valid := h.1.2.1
    have hstack' := h.2.2.push hvalid fun x hx => (h.2.1 x hx).2
    obtain ⟨it, hit, hremaining⟩ :=
      SetNode.toEntry_remaining root node hstack' rfl hvalid.1.1 hvalid.1.2.1 hstack'.above
    refine ⟨it, hit, ?_⟩
    unfold SetIterator.pending
    rw [prefixed_cons, List.append_assoc]
    rw [SetIterator.path_cons] at hremaining
    exact hremaining

theorem SetNode.descend_remaining (root : SetNode K V) : ∀ (node : SetNode K V) {stack : List (SetCursor K V)},
    SetIterator.StackValid stack → node.Valid → (∀ x ∈ SetIterator.path stack, node.children.KeysAbove x) →
    ∃ it, (match node.descend stack with
        | (true, stack) => some ⟨true, stack⟩
        | (false, stack) => SetIterator.advance stack) = some it ∧
      it.Remaining root (prefixed (SetIterator.path stack) node.children.entries ++ SetIterator.pending stack)
  | .mk _ .nil, stack, hstack, _, _ => SetIterator.advance_remaining root hstack
  | .mk _ (.cons key node rest), stack, hstack, h, habove => by
    have hstack' := hstack.push h habove
    unfold SetNode.descend SetNode.children
    dsimp only
    rw [prefixed_cons, List.append_assoc]
    cases hend : node.isEndOfSet with
    | true =>
      obtain ⟨v, hnode, hentries⟩ := SetNode.isEndOfSet_eq_true hend
      refine ⟨⟨true, ⟨key, node, rest⟩ :: stack⟩, rfl, hstack', fun _ => ⟨v, node.children, hnode, ?_⟩, nofun⟩
      rw [hentries]
      simp [prefixed, SetIterator.pending]
    | false =>
      obtain ⟨it, hit, hremaining⟩ := SetNode.descend_remaining root node hstack' h.1.1 hstack'.above
      refine ⟨it, hit, ?_⟩
      rw [SetNode.isEndOfSet_eq_false hend]
      rw [SetIterator.path_cons] at hremaining
      exact hremaining

theorem SetIterator.StackValid.foldr_eq : ∀ {stack : List (SetCursor K V)}, SetIterator.StackValid stack →
    stack.foldr (fun cur s => setInsert cur.key s) [] = SetIterator.path stack
  | [], _ => rfl
  | cur :: stack, h => by
    rw [List.foldr_cons, SetIterator.StackValid.foldr_eq h.2.2, SetIterator.path_cons]
    exact setInsert_eq_append fun x hx => (h.2.1 x hx).1

theorem SetIterator.Remaining.step {root : SetNode K V} (hroot : root.Valid) {it : SetIterator K V} {e : List K × V}
    {es : List (List K × V)} (h : it.Remaining root (e :: es)) :
    it.isEnd = false ∧ it.deref root = some e ∧ ∃ next, it.step root = some next ∧ next.Remaining root es := by
  obtain ⟨onEntry, stack⟩ := it
  cases onEntry with
  | false => exact absurd (h.atEnd rfl).2 nofun
  | true =>
    obtain ⟨v, children, htop, hes⟩ := h.onEntry rfl
    obtain ⟨rfl, rfl⟩ := List.cons.inj hes
    dsimp only at htop
    refine ⟨rfl, ?_, ?_⟩
    · unfold SetIterator.deref
      dsimp only
      rw [htop, h.valid.foldr_eq]
      rfl
    · have habove : ∀ x ∈ SetIterator.path stack, (SetNode.mk (some v) children).children.KeysAbove x := by
        rw [← htop]
        cases stack with
        | nil => exact List.forall_mem_nil _
        | cons cur stack => exact h.valid.above
      have hvalid : (SetNode.mk (some v) children).Valid := by
        rw [← htop]
        cases stack with
        | nil => exact hroot
        | cons cur stack => exact h.valid.1.1.1
      obtain ⟨next, hnext, hremaining⟩ := SetNode.descend_remaining root _ h.valid hvalid habove
      refine ⟨next, ?_, hremaining⟩
      unfold SetIterator.step
      rw [if_pos rfl]
      dsimp only
      rw [htop]
      exact hnext

theorem SetIterator.Remaining.visit {root : SetNode K V} (hroot : root.Valid) {es : List (List K × V)} :
    ∀ {it : SetIterator K V} {fuel : Nat}, it.Remaining root es → es.length < fuel →
      SetIterator.visit root fuel it = some es := by
  induction es with
  | nil =>
    intro it fuel h hfuel
    obtain ⟨onEntry, stack⟩ := it
    cases onEntry with
    | true =>
      obtain ⟨_, _, _, hes⟩ := h.onEntry rfl
      cases hes
    | false =>
      obtain rfl : stack = [] := (h.atEnd rfl).1
      cases fuel with
      | zero => exact absurd hfuel (Nat.lt_irrefl 0)
      | succ fuel => rfl
  | cons e es ih =>
    intro it fuel h hfuel
    cases fuel with
    | zero => exact absurd hfuel (Nat.not_lt_zero _)
    | succ fuel =>
      obtain ⟨hend, hderef, next, hnext, hremaining⟩ := h.step hroot
      have htail := ih hremaining (Nat.lt_of_succ_lt_succ hfuel)
      unfold SetIterator.visit
      simp only [hend, hderef, hnext, htail, Bool.false_eq_true, if_false, Option.bind_eq_bind, Option.bind_some]

theorem SetNode.Valid.begin_remaining {root : SetNode K V} (h : root.Valid) :
    ∃ it, root.begin = some it ∧ it.Remaining root root.entries := by
  obtain ⟨_ | v, children⟩ := root
  · have hnil : SetIterator.StackValid ([] : List (SetCursor K V)) := trivial
    obtain ⟨it, hit, hremaining⟩ :=
      SetNode.descend_remaining (.mk none children) (.mk none children) hnil h (List.forall_mem_nil _)
    refine ⟨it, hit, ?_⟩
    simpa [prefixed, SetIterator.path, SetIterator.pending, SetNode.entries, SetNode.children] using hremaining
  · refine ⟨⟨true, []⟩, rfl, trivial, fun _ => ⟨v, children, rfl, ?_⟩, fun h => by cases h⟩
    simp [prefixed, SetIterator.path, SetIterator.pending, SetNode.entries]

abbrev OrderedSet (K : Type) [LinearOrder K] : Type := { set : List K // Ascending set }

def SetNode.clear (_ : SetNode K V) : SetNode K V := .mk none .nil

inductive SetOp (K V : Type) [LinearOrder K]
  | insert (set : OrderedSet K) (value : V)
  | clear

def SetOp.apply (node : SetNode K V) : SetOp K V → SetNode K V
  | .insert set value => node.insert set.1 value
  | .clear => node.clear

/-- What the call means for a map from sets. -/
def SetOp.update (m : OrderedSet K → Option V) : SetOp K V → OrderedSet K → Option V
  | .insert set value => Function.update m set (some value)
  | .clear => fun _ => none

structure SetNode.Represents (node : SetNode K V) (m : OrderedSet K → Option V) : Prop where
  valid : node.Valid
  lookup_eq : ∀ set, node.lookup set.1 = m set

/-- The entries of the map under the sets with a property, each of them once. -/
structure Collects (m : OrderedSet K → Option V) (P : OrderedSet K → Prop) (es : List (List K × V)) : Prop where
  once : (es.map Prod.fst).Nodup
  mem : ∀ path v, (path, v) ∈ es ↔ ∃ set : OrderedSet K, set.1 = path ∧ P set ∧ m set = some v

/-- A value of an entry under one of the sets that the predicate holds of, if there is one. -/
structure Finds (m : OrderedSet K → Option V) (P : OrderedSet K → Prop) (p : V → Bool) (found : Option V) : Prop where
  sound : ∀ v, found = some v → ∃ set, P set ∧ m set = some v ∧ p v = true
  complete : ∀ set v, P set → m set = some v → p v = true → found ≠ none

theorem SetNode.represents_empty : (SetNode.empty : SetNode K V).Represents fun _ => none := by
  refine ⟨SetNode.valid_empty, fun set => ?_⟩
  obtain ⟨set, hset⟩ := set
  cases set <;> rfl

theorem SetNode.Represents.apply {node : SetNode K V} {m : OrderedSet K → Option V} (h : node.Represents m)
    (op : SetOp K V) : (op.apply node).Represents (op.update m) := by
  cases op with
  | clear => exact SetNode.represents_empty
  | insert set value =>
    refine ⟨(h.valid.insert set.2).1, fun set' => ?_⟩
    change (node.insert set.1 value).lookup set'.1 = Function.update m set (some value) set'
    by_cases heq : set' = set
    · subst heq
      rw [Function.update_self]
      exact SetNode.lookup_insert set'.1 value node
    · rw [Function.update_of_ne heq, ← h.lookup_eq set']
      exact SetNode.lookup_insert_ne (fun hval => heq (Subtype.ext hval)) h.valid

theorem SetNode.Represents.run (ops : List (SetOp K V)) : ∀ {node : SetNode K V} {m : OrderedSet K → Option V},
    node.Represents m → (ops.foldl SetOp.apply node).Represents (ops.foldl SetOp.update m) := by
  induction ops with
  | nil => exact fun h => h
  | cons op ops ih => exact fun h => ih (h.apply op)

variable {node : SetNode K V} {m : OrderedSet K → Option V}

theorem SetNode.Represents.mem_entries (h : node.Represents m) {path : List K} {v : V} :
    (path, v) ∈ node.entries ↔ ∃ set : OrderedSet K, set.1 = path ∧ m set = some v := by
  constructor
  · intro he
    have hpath : Ascending path := SetNode.Valid.ascending node h.valid _ he
    refine ⟨⟨path, hpath⟩, rfl, ?_⟩
    rw [← h.lookup_eq]
    exact (SetNode.mem_entries node h.valid).mp he
  · rintro ⟨set, rfl, hm⟩
    rw [← h.lookup_eq] at hm
    exact (SetNode.mem_entries node h.valid).mpr hm

theorem SetNode.Represents.collects_entries (h : node.Represents m) : Collects m (fun _ => True) node.entries := by
  refine ⟨SetNode.Valid.nodup node h.valid, fun path v => ?_⟩
  simp [h.mem_entries]

theorem SetNode.Represents.collects_supersets (h : node.Represents m) (set : OrderedSet K) :
    Collects m (fun s => set.1 ⊆ s.1) (node.supersets set.1) := by
  rw [h.valid.supersets_eq set.2]
  refine ⟨(SetNode.Valid.nodup node h.valid).sublist (List.filter_sublist.map Prod.fst), fun path v => ?_⟩
  rw [List.mem_filter, h.mem_entries, decide_eq_true_iff]
  constructor
  · rintro ⟨⟨s, rfl, hm⟩, hsub⟩
    exact ⟨s, rfl, hsub, hm⟩
  · rintro ⟨s, rfl, hsub, hm⟩
    exact ⟨⟨s, rfl, hm⟩, hsub⟩

theorem OrderedSet.sublist_iff (s set : OrderedSet K) : s.1.Sublist set.1 ↔ s.1 ⊆ set.1 := by
  refine ⟨List.Sublist.subset, fun hsub => ?_⟩
  have hnodup : s.1.Nodup := s.2.imp fun h => h.ne
  exact List.sublist_of_subperm_of_pairwise (List.subperm_of_subset hnodup hsub) s.2 set.2

theorem SetNode.Represents.collects_subsets (h : node.Represents m) (set : OrderedSet K) :
    Collects m (fun s => s.1 ⊆ set.1) (node.subsets set.1) := by
  refine ⟨SetNode.nodup_subsets set.2, fun path v => ?_⟩
  rw [SetNode.mem_subsets set.2]
  constructor
  · rintro ⟨hsub, hlookup⟩
    let s : OrderedSet K := ⟨path, set.2.sublist hsub⟩
    exact ⟨s, rfl, hsub.subset, (h.lookup_eq s).symm.trans hlookup⟩
  · rintro ⟨s, rfl, hsub, hm⟩
    exact ⟨(OrderedSet.sublist_iff s set).mpr hsub, (h.lookup_eq s).trans hm⟩

theorem SetNode.Represents.finds (h : node.Represents m) {P : List K → Prop} {p : V → Bool} {found : Option V}
    (hsound : ∀ v, found = some v → ∃ path, (path, v) ∈ node.entries ∧ P path ∧ p v = true)
    (hcomplete : found = none → ∀ e ∈ node.entries, P e.1 → p e.2 = false) : Finds m (fun s => P s.1) p found := by
  refine ⟨fun v hfound => ?_, fun set v hP hm hp hnone => ?_⟩
  · obtain ⟨path, he, hP, hp⟩ := hsound v hfound
    obtain ⟨set, rfl, hm⟩ := h.mem_entries.mp he
    exact ⟨set, hP, hm, hp⟩
  · have hfalse := hcomplete hnone (set.1, v) (h.mem_entries.mpr ⟨set, rfl, hm⟩) hP
    rw [hp] at hfalse
    cases hfalse

theorem SetNode.Represents.finds_subset (h : node.Represents m) (set : OrderedSet K) (p : V → Bool) :
    ∃ found, node.findSubset (fun v => some (p v)) set.1 = some found ∧ Finds m (fun s => s.1 ⊆ set.1) p found := by
  obtain ⟨found, hfound⟩ := SetNode.exists_findSubset (fun v => ⟨p v, rfl⟩) node set.1
  refine ⟨found, hfound, h.finds (P := fun path => path ⊆ set.1) (fun v hv => ?_) fun hnone e he hsub => ?_⟩
  · obtain ⟨path, he, hsub, hp⟩ := SetNode.findSubset_entry node (hv ▸ hfound)
    exact ⟨path, SetNode.mem_entries_of_entry node he, hsub, Option.some.inj hp⟩
  · exact Option.some.inj (SetNode.findSubset_complete node h.valid set.2 (hnone ▸ hfound) e he hsub)

theorem SetNode.Represents.finds_superset (h : node.Represents m) (set : OrderedSet K) (p : V → Bool) :
    ∃ found, node.findSuperset (fun v => some (p v)) set.1 = some found ∧ Finds m (fun s => set.1 ⊆ s.1) p found := by
  obtain ⟨found, hfound⟩ := SetNode.exists_findSuperset (fun v => ⟨p v, rfl⟩) node set.1
  refine ⟨found, hfound, h.finds (P := fun path => set.1 ⊆ path) (fun v hv => ?_) fun hnone e he hsub => ?_⟩
  · obtain ⟨path, he, hsub, hp⟩ := SetNode.findSuperset_entry node (hv ▸ hfound)
    exact ⟨path, SetNode.mem_entries_of_entry node he, hsub, Option.some.inj hp⟩
  · exact Option.some.inj (SetNode.findSuperset_complete node h.valid set.2 (hnone ▸ hfound) e he hsub)

theorem SetNode.Valid.visit_begin (h : node.Valid) : ∃ it, node.begin = some it ∧
    ∀ fuel, node.entries.length < fuel → SetIterator.visit node fuel it = some node.entries := by
  obtain ⟨it, hit, hremaining⟩ := h.begin_remaining
  exact ⟨it, hit, fun fuel hfuel => hremaining.visit h hfuel⟩

/-- `MapOfSets` is a map from sets: after any calls of `insert` and `clear`, all queries and an iteration agree with
the map that these calls make. -/
theorem mapOfSets_represents (ops : List (SetOp K V)) :
    let node := ops.foldl SetOp.apply .empty
    let m : OrderedSet K → Option V := ops.foldl SetOp.update fun _ => none
    (∀ set : OrderedSet K, node.lookup set.1 = m set) ∧
      (∀ set : OrderedSet K, Collects m (fun s => s.1 ⊆ set.1) (node.subsets set.1)) ∧
      (∀ set : OrderedSet K, Collects m (fun s => set.1 ⊆ s.1) (node.supersets set.1)) ∧
      (∀ (set : OrderedSet K) (p : V → Bool), ∃ found, node.findSubset (fun v => some (p v)) set.1 = some found ∧
        Finds m (fun s => s.1 ⊆ set.1) p found) ∧
      (∀ (set : OrderedSet K) (p : V → Bool), ∃ found, node.findSuperset (fun v => some (p v)) set.1 = some found ∧
        Finds m (fun s => set.1 ⊆ s.1) p found) ∧
      ∃ es it, Collects m (fun _ => True) es ∧ node.begin = some it ∧
        ∀ fuel, es.length < fuel → SetIterator.visit node fuel it = some es := by
  intro node m
  have h : node.Represents m := SetNode.Represents.run ops SetNode.represents_empty
  obtain ⟨it, hit, hvisit⟩ := h.valid.visit_begin
  exact ⟨h.lookup_eq, h.collects_subsets, h.collects_supersets, h.finds_subset, h.finds_superset,
    node.entries, it, h.collects_entries, hit, hvisit⟩

end Order

end CgsKlee
