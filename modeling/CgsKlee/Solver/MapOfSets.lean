import Mathlib.Order.Lattice
import Mathlib.Data.List.Basic

/-!
# Maps of sets

`MapOfSets` stores values under sets of keys.  A set is kept as the path of its elements, in ascending order, from the
root of a tree; the nodes where sets end hold the values.  `Entry` says which values are stored under which paths.
Whatever `lookup`, `findSubset` and `findSuperset` find is an entry, under the given set, a part of it, or a set
that contains it.  The predicate that chooses among entries may fail, and the search then fails too.
-/

namespace CgsKlee

variable {K V : Type}

mutual

/-- `MapOfSets::Node`: the value if a set ends here, and the children in ascending order of their keys. -/
inductive SetNode (K V : Type)
  | mk (value : Option V) (children : SetChildren K V)

inductive SetChildren (K V : Type)
  | nil
  | cons (key : K) (node : SetNode K V) (rest : SetChildren K V)

end

def SetNode.empty : SetNode K V := .mk none .nil

mutual

def SetNode.Entry : SetNode K V → List K → V → Prop
  | .mk value _, [], v => value = some v
  | .mk _ children, k :: path, v => children.Entry k path v

def SetChildren.Entry : SetChildren K V → K → List K → V → Prop
  | .nil, _, _, _ => False
  | .cons key node rest, k, path, v => (key = k ∧ node.Entry path v) ∨ rest.Entry k path v

end

section Order

variable [LinearOrder K]

/-- `children.insert` with an empty node if there is none, and what becomes of the node. -/
def SetChildren.modify (key : K) (f : SetNode K V → SetNode K V) : SetChildren K V → SetChildren K V
  | .nil => .cons key (f .empty) .nil
  | .cons k node rest =>
    if k = key then .cons k (f node) rest
    else if k < key then .cons k node (rest.modify key f)
    else .cons key (f .empty) (.cons k node rest)

def SetNode.insert : List K → V → SetNode K V → SetNode K V
  | [], v, .mk _ children => .mk (some v) children
  | k :: set, v, .mk value children => .mk value (children.modify k (SetNode.insert set v))

mutual

def SetNode.lookup : SetNode K V → List K → Option V
  | .mk value _, [] => value
  | .mk _ children, k :: set => children.lookup k set

def SetChildren.lookup : SetChildren K V → K → List K → Option V
  | .nil, _, _ => none
  | .cons key node rest, k, set => if key = k then node.lookup set else rest.lookup k set

end

def holdsOf (p : V → Option Bool) : Option V → Option (Option V)
  | none => some none
  | some v => do
    let b ← p v
    some (if b then some v else none)

mutual

def SetNode.findSubset (p : V → Option Bool) : SetNode K V → List K → Option (Option V)
  | .mk value children, set => do
    match ← holdsOf p value with
    | some v => some (some v)
    | none => if set.isEmpty then some none else children.findSubset p set

def SetChildren.findSubset (p : V → Option Bool) : SetChildren K V → List K → Option (Option V)
  | .nil, _ => some none
  | .cons key node rest, set =>
    match set with
    | [] => some none
    | it :: _ =>
      -- `lower_bound(*begin)` at first, and afterwards `while (kbegin->first < *it)`
      if key < it then rest.findSubset p set
      else
        -- `while (*it < kbegin->first)`
        match set.dropWhile fun it => decide (it < key) with
        | [] => some none
        | it :: next =>
          if it = key then do
            match ← node.findSubset p next with
            | some v => some (some v)
            | none => if next.isEmpty then some none else rest.findSubset p next
          else rest.findSubset p (it :: next)

end

mutual

def SetNode.findSuperset (p : V → Option Bool) : SetNode K V → List K → Option (Option V)
  | .mk value children, [] => do
    match ← holdsOf p value with
    | some v => some (some v)
    | none => children.findSuperset p []
  | .mk _ children, k :: set => do
    match ← children.findSuperset p (k :: set) with
    | some v => some (some v)
    | none => children.findSupersetAt p k set

def SetChildren.findSuperset (p : V → Option Bool) : SetChildren K V → List K → Option (Option V)
  | .nil, _ => some none
  | .cons _ node rest, set => do
    match ← node.findSuperset p set with
    | some v => some (some v)
    | none => rest.findSuperset p set

def SetChildren.findSupersetAt (p : V → Option Bool) : SetChildren K V → K → List K → Option (Option V)
  | .nil, _, _ => some none
  | .cons key node rest, k, set => if key = k then node.findSuperset p set else rest.findSupersetAt p k set

end

variable {p : V → Option Bool} {v : V}

omit [LinearOrder K] in
theorem SetNode.not_entry_empty {path : List K} : ¬(SetNode.empty : SetNode K V).Entry path v := by
  cases path with
  | nil => exact nofun
  | cons => exact id

theorem SetChildren.entry_modify {key : K} {f : SetNode K V → SetNode K V} {k : K} {path : List K} :
    ∀ children : SetChildren K V, (children.modify key f).Entry k path v →
      (k = key ∧ ∃ node : SetNode K V, (f node).Entry path v ∧
        ∀ path v, node.Entry path v → children.Entry key path v) ∨ children.Entry k path v
  | .nil, h => by
    rcases h with ⟨rfl, h⟩ | h
    · exact Or.inl ⟨rfl, .empty, h, fun _ _ h => absurd h SetNode.not_entry_empty⟩
    · exact absurd h id
  | .cons k' node rest, h => by
    unfold SetChildren.modify at h
    split at h
    · rename_i hk
      subst hk
      rcases h with ⟨rfl, h⟩ | h
      · exact Or.inl ⟨rfl, node, h, fun _ _ h => Or.inl ⟨rfl, h⟩⟩
      · exact Or.inr (Or.inr h)
    · split at h
      · rcases h with h | h
        · exact Or.inr (Or.inl h)
        · rcases SetChildren.entry_modify rest h with ⟨hk, n, hn, hold⟩ | h
          · exact Or.inl ⟨hk, n, hn, fun path v h => Or.inr (hold path v h)⟩
          · exact Or.inr (Or.inr h)
      · rcases h with ⟨rfl, h⟩ | h
        · exact Or.inl ⟨rfl, .empty, h, fun _ _ h => absurd h SetNode.not_entry_empty⟩
        · exact Or.inr h

theorem SetNode.entry_insert {set : List K} {value : V} : ∀ {node : SetNode K V} {path : List K},
    (node.insert set value).Entry path v → (path = set ∧ v = value) ∨ node.Entry path v := by
  induction set with
  | nil =>
    rintro ⟨old, children⟩ path h
    cases path with
    | nil => exact Or.inl ⟨rfl, (Option.some.inj h).symm⟩
    | cons k path => exact Or.inr h
  | cons key set ih =>
    rintro ⟨old, children⟩ path h
    cases path with
    | nil => exact Or.inr h
    | cons k path =>
      rcases SetChildren.entry_modify children h with ⟨rfl, node, hnode, hold⟩ | h
      · rcases ih hnode with ⟨rfl, rfl⟩ | h
        · exact Or.inl ⟨rfl, rfl⟩
        · exact Or.inr (hold path v h)
      · exact Or.inr h

mutual

theorem SetNode.lookup_entry : ∀ {node : SetNode K V} {set : List K}, node.lookup set = some v → node.Entry set v
  | .mk _ _, [], h => h
  | .mk _ children, _ :: _, h => SetChildren.lookup_entry children h

theorem SetChildren.lookup_entry : ∀ (children : SetChildren K V) {k : K} {set : List K},
    children.lookup k set = some v → children.Entry k set v
  | .nil, _, _, h => nomatch h
  | .cons key node rest, k, set, h => by
    unfold SetChildren.lookup at h
    split at h
    · rename_i hk
      exact Or.inl ⟨hk, SetNode.lookup_entry h⟩
    · exact Or.inr (SetChildren.lookup_entry rest h)

end

omit [LinearOrder K] in
theorem holdsOf_eq_some {value : Option V} (h : holdsOf p value = some (some v)) : value = some v ∧ p v = some true := by
  cases value with
  | none => cases h
  | some w =>
    obtain ⟨b, hb, h⟩ := Option.bind_eq_some_iff.mp h
    cases b with
    | false => cases h
    | true =>
      obtain rfl : w = v := Option.some.inj (Option.some.inj h)
      exact ⟨rfl, hb⟩

mutual

theorem SetNode.findSubset_entry : ∀ (node : SetNode K V) {set : List K}, node.findSubset p set = some (some v) →
    ∃ path, node.Entry path v ∧ path ⊆ set ∧ p v = some true
  | .mk value children, set, h => by
    unfold SetNode.findSubset at h
    obtain ⟨found, hfound, h⟩ := Option.bind_eq_some_iff.mp h
    cases found with
    | some w =>
      obtain rfl : v = w := (Option.some.inj (Option.some.inj h)).symm
      obtain ⟨hvalue, hp⟩ := holdsOf_eq_some hfound
      exact ⟨[], hvalue, List.nil_subset _, hp⟩
    | none =>
      dsimp only at h
      split at h
      · cases h
      · obtain ⟨k, path, hentry, hsub, hp⟩ := SetChildren.findSubset_entry children h
        exact ⟨k :: path, hentry, hsub, hp⟩

theorem SetChildren.findSubset_entry : ∀ (children : SetChildren K V) {set : List K},
    children.findSubset p set = some (some v) →
    ∃ k path, children.Entry k path v ∧ k :: path ⊆ set ∧ p v = some true
  | .nil, _, h => nomatch h
  | .cons key node rest, [], h => nomatch h
  | .cons key node rest, it :: tail, h => by
    -- the search goes on among the other children, for a part of the set
    have hrest : ∀ {set' : List K}, set' ⊆ it :: tail → rest.findSubset p set' = some (some v) →
        ∃ k path, (SetChildren.cons key node rest).Entry k path v ∧ k :: path ⊆ it :: tail ∧ p v = some true := by
      intro set' hset h
      obtain ⟨k, path, hentry, hsub, hp⟩ := SetChildren.findSubset_entry rest h
      exact ⟨k, path, Or.inr hentry, List.Subset.trans hsub hset, hp⟩
    unfold SetChildren.findSubset at h
    dsimp only at h
    split at h
    · exact hrest (List.Subset.refl _) h
    · have hdrop : (it :: tail).dropWhile (fun it => decide (it < key)) ⊆ it :: tail := List.dropWhile_subset _
      split at h
      · cases h
      · rename_i it' next heq
        rw [heq] at hdrop
        split at h
        · rename_i hkey
          subst hkey
          obtain ⟨found, hfound, h⟩ := Option.bind_eq_some_iff.mp h
          cases found with
          | some w =>
            obtain rfl : v = w := (Option.some.inj (Option.some.inj h)).symm
            obtain ⟨path, hentry, hsub, hp⟩ := SetNode.findSubset_entry node hfound
            exact ⟨it', path, Or.inl ⟨rfl, hentry⟩, List.Subset.trans (List.cons_subset_cons it' hsub) hdrop, hp⟩
          | none =>
            dsimp only at h
            split at h
            · cases h
            · exact hrest (List.Subset.trans (List.subset_cons_self it' next) hdrop) h
        · exact hrest hdrop h

end

mutual

theorem SetNode.findSuperset_entry : ∀ (node : SetNode K V) {set : List K},
    node.findSuperset p set = some (some v) → ∃ path, node.Entry path v ∧ set ⊆ path ∧ p v = some true
  | .mk value children, [], h => by
    unfold SetNode.findSuperset at h
    obtain ⟨found, hfound, h⟩ := Option.bind_eq_some_iff.mp h
    cases found with
    | some w =>
      obtain rfl : v = w := (Option.some.inj (Option.some.inj h)).symm
      obtain ⟨hvalue, hp⟩ := holdsOf_eq_some hfound
      exact ⟨[], hvalue, List.nil_subset _, hp⟩
    | none =>
      obtain ⟨k, path, hentry, -, hp⟩ := SetChildren.findSuperset_entry children h
      exact ⟨k :: path, hentry, List.nil_subset _, hp⟩
  | .mk value children, k :: set, h => by
    unfold SetNode.findSuperset at h
    obtain ⟨found, hfound, h⟩ := Option.bind_eq_some_iff.mp h
    cases found with
    | some w =>
      obtain rfl : v = w := (Option.some.inj (Option.some.inj h)).symm
      obtain ⟨k', path, hentry, hsub, hp⟩ := SetChildren.findSuperset_entry children hfound
      exact ⟨k' :: path, hentry, List.Subset.trans hsub (List.subset_cons_self k' path), hp⟩
    | none =>
      obtain ⟨path, hentry, hsub, hp⟩ := SetChildren.findSupersetAt_entry children h
      exact ⟨k :: path, hentry, List.cons_subset_cons k hsub, hp⟩

theorem SetChildren.findSuperset_entry : ∀ (children : SetChildren K V) {set : List K},
    children.findSuperset p set = some (some v) →
    ∃ k path, children.Entry k path v ∧ set ⊆ path ∧ p v = some true
  | .nil, _, h => nomatch h
  | .cons key node rest, set, h => by
    unfold SetChildren.findSuperset at h
    obtain ⟨found, hfound, h⟩ := Option.bind_eq_some_iff.mp h
    cases found with
    | some w =>
      obtain rfl : v = w := (Option.some.inj (Option.some.inj h)).symm
      obtain ⟨path, hentry, hsub, hp⟩ := SetNode.findSuperset_entry node hfound
      exact ⟨key, path, Or.inl ⟨rfl, hentry⟩, hsub, hp⟩
    | none =>
      obtain ⟨k, path, hentry, hsub, hp⟩ := SetChildren.findSuperset_entry rest h
      exact ⟨k, path, Or.inr hentry, hsub, hp⟩

theorem SetChildren.findSupersetAt_entry : ∀ (children : SetChildren K V) {k : K} {set : List K},
    children.findSupersetAt p k set = some (some v) →
    ∃ path, children.Entry k path v ∧ set ⊆ path ∧ p v = some true
  | .nil, _, _, h => nomatch h
  | .cons key node rest, k, set, h => by
    unfold SetChildren.findSupersetAt at h
    split at h
    · rename_i hk
      obtain ⟨path, hentry, hsub, hp⟩ := SetNode.findSuperset_entry node h
      exact ⟨path, Or.inl ⟨hk, hentry⟩, hsub, hp⟩
    · obtain ⟨path, hentry, hsub, hp⟩ := SetChildren.findSupersetAt_entry rest h
      exact ⟨path, Or.inr hentry, hsub, hp⟩

end

omit [LinearOrder K] in
theorem exists_holdsOf (hp : ∀ v, ∃ b, p v = some b) (value : Option V) : ∃ found, holdsOf p value = some found := by
  cases value with
  | none => exact ⟨none, rfl⟩
  | some v =>
    obtain ⟨b, hb⟩ := hp v
    unfold holdsOf
    dsimp only
    rw [hb]
    exact ⟨_, rfl⟩

mutual

theorem SetNode.exists_findSubset (hp : ∀ v, ∃ b, p v = some b) : ∀ (node : SetNode K V) (set : List K),
    ∃ found, node.findSubset p set = some found
  | .mk value children, set => by
    obtain ⟨found, hfound⟩ := exists_holdsOf hp value
    unfold SetNode.findSubset
    rw [hfound]
    cases found with
    | some v => exact ⟨some v, rfl⟩
    | none =>
      simp only [Option.bind_eq_bind, Option.bind_some]
      split
      · exact ⟨none, rfl⟩
      · exact SetChildren.exists_findSubset hp children set

theorem SetChildren.exists_findSubset (hp : ∀ v, ∃ b, p v = some b) : ∀ (children : SetChildren K V) (set : List K),
    ∃ found, children.findSubset p set = some found
  | .nil, _ => ⟨none, rfl⟩
  | .cons key node rest, [] => ⟨none, by unfold SetChildren.findSubset; rfl⟩
  | .cons key node rest, it :: tail => by
    unfold SetChildren.findSubset
    dsimp only
    split
    · exact SetChildren.exists_findSubset hp rest _
    · split
      · exact ⟨none, rfl⟩
      · rename_i it' next _
        split
        · obtain ⟨found, hfound⟩ := SetNode.exists_findSubset hp node next
          rw [hfound]
          cases found with
          | some v => exact ⟨some v, rfl⟩
          | none =>
            simp only [Option.bind_eq_bind, Option.bind_some]
            split
            · exact ⟨none, rfl⟩
            · exact SetChildren.exists_findSubset hp rest next
        · exact SetChildren.exists_findSubset hp rest _

end

mutual

theorem SetNode.exists_findSuperset (hp : ∀ v, ∃ b, p v = some b) : ∀ (node : SetNode K V) (set : List K),
    ∃ found, node.findSuperset p set = some found
  | .mk value children, [] => by
    obtain ⟨found, hfound⟩ := exists_holdsOf hp value
    unfold SetNode.findSuperset
    rw [hfound]
    cases found with
    | some v => exact ⟨some v, rfl⟩
    | none => exact SetChildren.exists_findSuperset hp children []
  | .mk value children, k :: set => by
    obtain ⟨found, hfound⟩ := SetChildren.exists_findSuperset hp children (k :: set)
    unfold SetNode.findSuperset
    rw [hfound]
    cases found with
    | some v => exact ⟨some v, rfl⟩
    | none => exact SetChildren.exists_findSupersetAt hp children k set

theorem SetChildren.exists_findSuperset (hp : ∀ v, ∃ b, p v = some b) : ∀ (children : SetChildren K V) (set : List K),
    ∃ found, children.findSuperset p set = some found
  | .nil, _ => ⟨none, rfl⟩
  | .cons _ node rest, set => by
    obtain ⟨found, hfound⟩ := SetNode.exists_findSuperset hp node set
    unfold SetChildren.findSuperset
    rw [hfound]
    cases found with
    | some v => exact ⟨some v, rfl⟩
    | none => exact SetChildren.exists_findSuperset hp rest set

theorem SetChildren.exists_findSupersetAt (hp : ∀ v, ∃ b, p v = some b) :
    ∀ (children : SetChildren K V) (k : K) (set : List K), ∃ found, children.findSupersetAt p k set = some found
  | .nil, _, _ => ⟨none, rfl⟩
  | .cons key node rest, k, set => by
    unfold SetChildren.findSupersetAt
    split
    · exact SetNode.exists_findSuperset hp node set
    · exact SetChildren.exists_findSupersetAt hp rest k set

end

theorem SetChildren.lookup_modify (key : K) (f : SetNode K V → SetNode K V) (set : List K) :
    ∀ children : SetChildren K V, ∃ node : SetNode K V, (children.modify key f).lookup key set = (f node).lookup set
  | .nil => ⟨.empty, by unfold SetChildren.modify SetChildren.lookup; rw [if_pos rfl]⟩
  | .cons k node rest => by
    unfold SetChildren.modify
    split
    · rename_i hk
      exact ⟨node, by unfold SetChildren.lookup; rw [if_pos hk]⟩
    · rename_i hk
      split
      · unfold SetChildren.lookup
        rw [if_neg hk]
        exact SetChildren.lookup_modify key f set rest
      · exact ⟨.empty, by unfold SetChildren.lookup; rw [if_pos rfl]⟩

theorem SetNode.lookup_insert (set : List K) (v : V) (node : SetNode K V) : (node.insert set v).lookup set = some v := by
  induction set generalizing node with
  | nil =>
    cases node
    unfold SetNode.insert SetNode.lookup
    rfl
  | cons k set ih =>
    cases node with
    | mk value children =>
      obtain ⟨node, hnode⟩ := SetChildren.lookup_modify k (SetNode.insert set v) set children
      unfold SetNode.insert SetNode.lookup
      rw [hnode]
      exact ih node

end Order

end CgsKlee
