import CgsKlee.Solver.SetEntries
import Mathlib.Data.List.Sublists
import Mathlib.Data.List.TakeWhile

/-!
# Subsets and supersets in a map of sets

`subsets` and `supersets` collect the entries under the parts of a set and under the sets around it.  `findSubset` and
`findSuperset` stop at the first of these whose value the predicate holds of.
-/

namespace CgsKlee

variable {K V : Type}

section Order

variable [LinearOrder K]

def setInsert (k : K) : List K → List K
  | [] => [k]
  | x :: xs => if x < k then x :: setInsert k xs else if x = k then x :: xs else k :: x :: xs

def SetChildren.find : SetChildren K V → K → Option (SetNode K V)
  | .nil, _ => none
  | .cons key node rest, k => if key = k then some node else rest.find k

def SetNode.own (accum : List K) : SetNode K V → List (List K × V)
  | .mk value _ => value.toList.map fun v => (accum, v)

def SetChildren.findSubsets (accum : List K) (children : SetChildren K V) : List K → List (List K × V)
  | [] => []
  | elt :: set =>
    (match children.find elt with
      | none => []
      | some node =>
        let nacc := setInsert elt accum
        node.own nacc ++ node.children.findSubsets nacc set) ++ children.findSubsets accum set

def SetNode.findSubsets (accum : List K) (node : SetNode K V) (set : List K) : List (List K × V) :=
  node.own accum ++ node.children.findSubsets accum set

def SetNode.subsets (node : SetNode K V) (set : List K) : List (List K × V) := node.findSubsets [] set

mutual

def SetNode.findSupersets (accum : List K) : SetNode K V → List K → List (List K × V)
  | .mk value children, [] => (value.toList.map fun v => (accum, v)) ++ children.findSupersets accum []
  | .mk _ children, elt :: next => children.findSupersets accum (elt :: next)

def SetChildren.findSupersets (accum : List K) : SetChildren K V → List K → List (List K × V)
  | .nil, _ => []
  | .cons key node rest, [] => node.findSupersets (setInsert key accum) [] ++ rest.findSupersets accum []
  | .cons key node rest, elt :: next =>
    let nacc := setInsert key accum
    if elt = key then node.findSupersets nacc next ++ rest.findSupersets accum (elt :: next)
    else if key < elt then node.findSupersets nacc (elt :: next) ++ rest.findSupersets accum (elt :: next)
    else []

end

def SetNode.supersets (node : SetNode K V) (set : List K) : List (List K × V) := node.findSupersets [] set

theorem setInsert_eq_append {k : K} : ∀ {accum : List K}, (∀ x ∈ accum, x < k) → setInsert k accum = accum ++ [k]
  | [], _ => rfl
  | x :: accum, h => by
    unfold setInsert
    rw [if_pos (h x (.head _)), setInsert_eq_append fun y hy => h y (.tail _ hy)]
    rfl

variable {set accum : List K} {node : SetNode K V}

theorem SetChildren.lookup_eq_find {k : K} :
    ∀ children : SetChildren K V, children.lookup k set = (children.find k).bind (·.lookup set)
  | .nil => rfl
  | .cons key node rest => by
    unfold SetChildren.lookup SetChildren.find
    split
    · rfl
    · exact SetChildren.lookup_eq_find rest

omit [LinearOrder K] in
theorem SetNode.mem_own {e : List K × V} :
    e ∈ node.own accum ↔ e.1 = accum ∧ ∃ children, node = .mk (some e.2) children := by
  obtain ⟨value, children⟩ := node
  obtain ⟨path, v⟩ := e
  cases value with
  | none => simp [SetNode.own]
  | some w => simp [SetNode.own, eq_comm]

theorem SetChildren.mem_findSubsets (hset : Ascending set) :
    ∀ {accum : List K}, (∀ x ∈ accum, ∀ y ∈ set, x < y) → ∀ {children : SetChildren K V} {e : List K × V},
      e ∈ children.findSubsets accum set ↔
        ∃ k sub, (k :: sub).Sublist set ∧ e.1 = accum ++ k :: sub ∧ children.lookup k sub = some e.2 := by
  induction set with
  | nil => simp [SetChildren.findSubsets]
  | cons elt set ih =>
    intro accum haccum children e
    obtain ⟨helt, hset⟩ := List.pairwise_cons.mp hset
    have hnacc : setInsert elt accum = accum ++ [elt] :=
      setInsert_eq_append fun x hx => haccum x hx elt (.head _)
    have haccum' : ∀ x ∈ accum ++ [elt], ∀ y ∈ set, x < y := by
      intro x hx y hy
      rcases List.mem_append.mp hx with hx | hx
      · exact haccum x hx y (.tail _ hy)
      · exact List.mem_singleton.mp hx ▸ helt y hy
    have hrest := @ih hset accum (fun x hx y hy => haccum x hx y (.tail _ hy)) children e
    -- with the first element, or without it
    have hsplit : (∃ k sub, (k :: sub).Sublist (elt :: set) ∧ e.1 = accum ++ k :: sub ∧
          children.lookup k sub = some e.2) ↔
        (∃ sub : List K, sub.Sublist set ∧ e.1 = accum ++ elt :: sub ∧ children.lookup elt sub = some e.2) ∨
          ∃ k sub, (k :: sub).Sublist set ∧ e.1 = accum ++ k :: sub ∧ children.lookup k sub = some e.2 := by
      constructor
      · rintro ⟨k, sub, hsub, he, hlookup⟩
        rcases List.sublist_cons_iff.mp hsub with hsub | ⟨r, heq, hsub⟩
        · exact Or.inr ⟨k, sub, hsub, he, hlookup⟩
        · obtain ⟨rfl, rfl⟩ := List.cons.inj heq
          exact Or.inl ⟨sub, hsub, he, hlookup⟩
      · rintro (⟨sub, hsub, he, hlookup⟩ | ⟨k, sub, hsub, he, hlookup⟩)
        · exact ⟨elt, sub, hsub.cons_cons elt, he, hlookup⟩
        · exact ⟨k, sub, hsub.cons elt, he, hlookup⟩
    rw [hsplit]
    unfold SetChildren.findSubsets
    rw [List.mem_append, hrest]
    refine or_congr_left ?_
    cases hfind : children.find elt with
    | none => simp [SetChildren.lookup_eq_find, hfind]
    | some node =>
      obtain ⟨value, below⟩ := node
      have hbelow := @ih hset _ haccum' below e
      simp only [SetChildren.lookup_eq_find, hfind, hnacc, Option.bind_some, List.mem_append]
      change _ ∨ e ∈ below.findSubsets (accum ++ [elt]) set ↔ _
      rw [hbelow, SetNode.mem_own]
      constructor
      · rintro (⟨he, children', heq⟩ | ⟨k, sub, hsub, he, hlookup⟩)
        · obtain ⟨rfl, -⟩ := SetNode.mk.inj heq
          exact ⟨[], List.nil_sublist _, he, rfl⟩
        · exact ⟨k :: sub, hsub, by rw [he, List.append_assoc]; rfl, hlookup⟩
      · rintro ⟨sub, hsub, he, hlookup⟩
        cases sub with
        | nil =>
          obtain rfl : value = some e.2 := hlookup
          exact Or.inl ⟨he, below, rfl⟩
        | cons k sub => exact Or.inr ⟨k, sub, hsub, by rw [he, List.append_assoc]; rfl, hlookup⟩

theorem SetNode.mem_subsets (hset : Ascending set) {path : List K} {v : V} :
    (path, v) ∈ node.subsets set ↔ path.Sublist set ∧ node.lookup path = some v := by
  obtain ⟨value, children⟩ := node
  have hbelow : (path, v) ∈ children.findSubsets [] set ↔ _ :=
    SetChildren.mem_findSubsets hset (List.forall_mem_nil _)
  unfold SetNode.subsets SetNode.findSubsets
  rw [List.mem_append]
  change _ ∨ (path, v) ∈ children.findSubsets [] set ↔ _
  rw [SetNode.mem_own, hbelow]
  constructor
  · rintro (⟨rfl, children', heq⟩ | ⟨k, sub, hsub, rfl, hlookup⟩)
    · obtain ⟨rfl, -⟩ := SetNode.mk.inj heq
      exact ⟨List.nil_sublist _, rfl⟩
    · exact ⟨hsub, hlookup⟩
  · rintro ⟨hsub, hlookup⟩
    cases path with
    | nil =>
      obtain rfl : value = some v := hlookup
      exact Or.inl ⟨rfl, children, rfl⟩
    | cons k sub => exact Or.inr ⟨k, sub, hsub, rfl, hlookup⟩

omit [LinearOrder K] in
theorem SetNode.nodup_own : ((node.own accum).map Prod.fst).Nodup := by
  obtain ⟨_ | v, children⟩ := node <;> simp [SetNode.own]

theorem SetChildren.nodup_findSubsets (hset : Ascending set) :
    ∀ {accum : List K}, (∀ x ∈ accum, ∀ y ∈ set, x < y) → ∀ {children : SetChildren K V},
      ((children.findSubsets accum set).map Prod.fst).Nodup := by
  induction set with
  | nil => exact fun _ _ => List.nodup_nil
  | cons elt set ih =>
    intro accum haccum children
    obtain ⟨helt, hset⟩ := List.pairwise_cons.mp hset
    have hnacc : setInsert elt accum = accum ++ [elt] :=
      setInsert_eq_append fun x hx => haccum x hx elt (.head _)
    have haccum' : ∀ x ∈ accum ++ [elt], ∀ y ∈ set, x < y := by
      intro x hx y hy
      rcases List.mem_append.mp hx with hx | hx
      · exact haccum x hx y (.tail _ hy)
      · exact List.mem_singleton.mp hx ▸ helt y hy
    have hrest := fun x hx y hy => haccum x hx y (List.mem_cons_of_mem elt hy)
    unfold SetChildren.findSubsets
    cases hfind : children.find elt with
    | none => exact ih hset hrest
    | some node =>
      obtain ⟨value, below⟩ := node
      dsimp only
      rw [hnacc, List.map_append, List.map_append, List.nodup_append, List.nodup_append]
      refine ⟨⟨SetNode.nodup_own, ih hset haccum', ?_⟩, ih hset hrest, ?_⟩
      · -- longer sets come from further down
        intro path hpath path' hpath' heq
        obtain ⟨e, he, rfl⟩ := List.mem_map.mp hpath
        obtain ⟨e', he', rfl⟩ := List.mem_map.mp hpath'
        obtain ⟨k, sub, -, he', -⟩ := (SetChildren.mem_findSubsets hset haccum').mp he'
        rw [(SetNode.mem_own.mp he).1, he'] at heq
        simp at heq
      · -- the other sets lack the element
        intro path hpath path' hpath' heq
        subst heq
        have hmem : ∃ sub : List K, path = accum ++ elt :: sub := by
          rw [← List.map_append] at hpath
          obtain ⟨e, he, rfl⟩ := List.mem_map.mp hpath
          rcases List.mem_append.mp he with he | he
          · exact ⟨[], (SetNode.mem_own.mp he).1⟩
          · obtain ⟨k, sub, -, he, -⟩ := (SetChildren.mem_findSubsets hset haccum').mp he
            exact ⟨k :: sub, by rw [he, List.append_assoc]; rfl⟩
        obtain ⟨sub, hpath⟩ := hmem
        obtain ⟨e, he, rfl⟩ := List.mem_map.mp hpath'
        obtain ⟨k, sub', hsub', he, -⟩ := (SetChildren.mem_findSubsets hset hrest).mp he
        rw [he, List.append_cancel_left_eq, List.cons.injEq] at hpath
        have hk : k ∈ set := hsub'.subset (.head _)
        exact lt_irrefl elt (hpath.1 ▸ helt k hk)

theorem SetNode.nodup_subsets (hset : Ascending set) :
    ((node.subsets set).map Prod.fst).Nodup := by
  unfold SetNode.subsets SetNode.findSubsets
  rw [List.map_append, List.nodup_append]
  refine ⟨SetNode.nodup_own, SetChildren.nodup_findSubsets hset (List.forall_mem_nil _), ?_⟩
  intro path hpath path' hpath' heq
  obtain ⟨e, he, rfl⟩ := List.mem_map.mp hpath
  obtain ⟨e', he', rfl⟩ := List.mem_map.mp hpath'
  obtain ⟨k, sub, -, he', -⟩ := (SetChildren.mem_findSubsets hset (List.forall_mem_nil _)).mp he'
  rw [(SetNode.mem_own.mp he).1, he'] at heq
  cases heq

omit [LinearOrder K] in
theorem subset_cons_iff_of_not_mem {k : K} {path : List K} (hk : k ∉ set) : set ⊆ k :: path ↔ set ⊆ path :=
  ⟨fun h _ hx => (List.mem_cons.mp (h hx)).resolve_left fun heq => hk (heq ▸ hx),
    fun h => List.Subset.trans h (List.subset_cons_self k path)⟩

theorem not_mem_of_lt_head {k elt : K} {next : List K} (hset : Ascending (elt :: next)) (hk : k < elt) :
    k ∉ elt :: next := by
  intro hmem
  rcases List.mem_cons.mp hmem with rfl | hmem
  · exact lt_irrefl k hk
  · exact lt_irrefl k (hk.trans ((List.pairwise_cons.mp hset).1 k hmem))

theorem SetChildren.Valid.filter_eq_nil {children : SetChildren K V} (h : children.Valid) {elt : K} {next : List K}
    (habove : children.KeysAbove elt) : (children.entries.filter fun e => elt :: next ⊆ e.1) = [] := by
  rw [List.filter_eq_nil_iff]
  intro e he hsub
  have hmem : elt ∈ e.1 := of_decide_eq_true hsub (.head _)
  exact lt_irrefl elt ((SetChildren.Valid.ascending children h e he).2.2 elt habove elt hmem)

theorem SetChildren.Valid.accum_above {key : K} {rest : SetChildren K V}
    (h : (SetChildren.cons key node rest).Valid) (haccum : ∀ x ∈ accum, (SetChildren.cons key node rest).KeysAbove x) :
    setInsert key accum = accum ++ [key] ∧ ∀ x ∈ accum ++ [key], node.children.KeysAbove x := by
  refine ⟨setInsert_eq_append fun x hx => (haccum x hx).1, fun x hx => ?_⟩
  rcases List.mem_append.mp hx with hx | hx
  · exact SetChildren.KeysAbove.trans (haccum x hx).1 node.children h.1.2.2
  · exact List.mem_singleton.mp hx ▸ h.1.2.2

theorem SetNode.map_filter_cons {key : K} {set' : List K}
    (hset : ∀ path : List K, set ⊆ key :: path ↔ set' ⊆ path) :
    (((node.entries.map fun e => (key :: e.1, e.2)).filter fun e => set ⊆ e.1).map fun e => (accum ++ e.1, e.2)) =
      (node.entries.filter fun e => set' ⊆ e.1).map fun e => (accum ++ [key] ++ e.1, e.2) := by
  rw [List.filter_map, List.map_map]
  have hfilter : node.entries.filter ((fun e => decide (set ⊆ e.1)) ∘ fun e : List K × V => (key :: e.1, e.2)) =
      node.entries.filter fun e => set' ⊆ e.1 :=
    List.filter_congr fun e _ => decide_eq_decide.mpr (hset e.1)
  rw [hfilter]
  refine List.map_congr_left fun e _ => ?_
  simp

mutual

theorem SetNode.findSupersets_eq : ∀ (node : SetNode K V), node.Valid → ∀ {accum set : List K}, Ascending set →
    (∀ x ∈ accum, node.children.KeysAbove x) →
    node.findSupersets accum set = (node.entries.filter fun e => set ⊆ e.1).map fun e => (accum ++ e.1, e.2)
  | .mk value children, h, accum, [], hset, haccum => by
    have hchildren := SetChildren.findSupersets_eq children h hset haccum
    unfold SetNode.findSupersets SetNode.entries
    rw [hchildren, List.filter_append, List.map_append]
    congr 1
    cases value <;> simp
  | .mk value children, h, accum, elt :: next, hset, haccum => by
    have hchildren := SetChildren.findSupersets_eq children h hset haccum
    unfold SetNode.findSupersets SetNode.entries
    rw [hchildren, List.filter_append, List.map_append]
    cases value <;> simp

theorem SetChildren.findSupersets_eq : ∀ (children : SetChildren K V), children.Valid →
    ∀ {accum set : List K}, Ascending set → (∀ x ∈ accum, children.KeysAbove x) →
    children.findSupersets accum set =
      (children.entries.filter fun e => set ⊆ e.1).map fun e => (accum ++ e.1, e.2)
  | .nil, _, _, _, _, _ => by
    unfold SetChildren.findSupersets
    rfl
  | .cons key node rest, h, accum, [], hset, haccum => by
    obtain ⟨hnacc, haccum'⟩ := h.accum_above haccum
    have hnode := SetNode.findSupersets_eq node h.1.1 hset haccum'
    have hrest := SetChildren.findSupersets_eq rest h.2.1 hset fun x hx => (haccum x hx).2
    unfold SetChildren.findSupersets SetChildren.entries
    rw [hnacc, hnode, hrest, List.filter_append, List.map_append]
    congr 1
    exact (SetNode.map_filter_cons fun _ => by simp).symm
  | .cons key node rest, h, accum, elt :: next, hset, haccum => by
    obtain ⟨hnacc, haccum'⟩ := h.accum_above haccum
    obtain ⟨helt, hnext⟩ := List.pairwise_cons.mp hset
    have hrest := SetChildren.findSupersets_eq rest h.2.1 hset fun x hx => (haccum x hx).2
    unfold SetChildren.findSupersets
    dsimp only
    split
    · rename_i heq
      subst heq
      have hnode := SetNode.findSupersets_eq node h.1.1 hnext haccum'
      have hnot : elt ∉ next := fun hmem => lt_irrefl elt (helt elt hmem)
      unfold SetChildren.entries
      rw [hnacc, hnode, hrest, List.filter_append, List.map_append]
      congr 1
      refine (SetNode.map_filter_cons fun path => ?_).symm
      rw [List.cons_subset, subset_cons_iff_of_not_mem hnot]
      exact and_iff_right (.head _)
    · rename_i hne
      split
      · rename_i hlt
        have hnode := SetNode.findSupersets_eq node h.1.1 hset haccum'
        unfold SetChildren.entries
        rw [hnacc, hnode, hrest, List.filter_append, List.map_append]
        congr 1
        exact (SetNode.map_filter_cons fun _ => subset_cons_iff_of_not_mem (not_mem_of_lt_head hset hlt)).symm
      · rename_i hge
        have hlt : elt < key := lt_of_le_of_ne (not_lt.mp hge) hne
        rw [h.filter_eq_nil ⟨hlt, SetChildren.KeysAbove.trans hlt rest h.2.2⟩]
        rfl

end

theorem SetNode.Valid.supersets_eq (h : node.Valid) (hset : Ascending set) :
    node.supersets set = node.entries.filter fun e => set ⊆ e.1 := by
  unfold SetNode.supersets
  rw [SetNode.findSupersets_eq node h hset (List.forall_mem_nil _)]
  exact List.map_id _

variable {p : V → Option Bool}

omit [LinearOrder K] in
theorem holdsOf_eq_none {v : V} (h : holdsOf p (some v) = some none) : p v = some false := by
  obtain ⟨b, hb, h⟩ := Option.bind_eq_some_iff.mp h
  cases b with
  | true => cases h
  | false => exact hb

theorem mem_dropWhile_of_le {key x : K} (hx : x ∈ set) (hle : key ≤ x) :
    x ∈ set.dropWhile fun it => decide (it < key) := by
  rw [← List.takeWhile_append_dropWhile (p := fun it => decide (it < key)) (l := set)] at hx
  refine (List.mem_append.mp hx).resolve_left fun htake => ?_
  have hlt : decide (x < key) = true := List.mem_takeWhile_imp (p := fun it => decide (it < key)) htake
  exact absurd (of_decide_eq_true hlt) (not_lt.mpr hle)

mutual

theorem SetNode.findSubset_complete : ∀ (node : SetNode K V), node.Valid → ∀ {set : List K}, Ascending set →
    node.findSubset p set = some none → ∀ e ∈ node.entries, e.1 ⊆ set → p e.2 = some false
  | .mk value children, h, set, hset, hnone, e, he, hsub => by
    unfold SetNode.findSubset at hnone
    obtain ⟨found, hfound, hnone⟩ := Option.bind_eq_some_iff.mp hnone
    cases found with
    | some w => cases hnone
    | none =>
      dsimp only at hnone
      rcases List.mem_append.mp he with he | he
      · obtain ⟨v, hv, rfl⟩ := List.mem_map.mp he
        rw [Option.mem_toList.mp hv] at hfound
        exact holdsOf_eq_none hfound
      · have hne := (SetChildren.Valid.ascending children h e he).2.1
        split at hnone
        · rename_i hempty
          rw [List.isEmpty_iff.mp hempty] at hsub
          exact absurd (List.subset_nil.mp hsub) hne
        · exact SetChildren.findSubset_complete children h hset hnone e he hsub

theorem SetChildren.findSubset_complete : ∀ (children : SetChildren K V), children.Valid → ∀ {set : List K},
    Ascending set → children.findSubset p set = some none → ∀ e ∈ children.entries, e.1 ⊆ set → p e.2 = some false
  | .nil, _, _, _, _, e, he, _ => absurd he List.not_mem_nil
  | .cons key node rest, h, [], _, _, e, he, hsub =>
    absurd (List.subset_nil.mp hsub) (SetChildren.Valid.ascending _ h e he).2.1
  | .cons key node rest, h, it :: tail, hset, hnone, e, he, hsub => by
    unfold SetChildren.findSubset at hnone
    dsimp only at hnone
    -- an entry below the first child starts with its key, the others lie above it
    have hkey : (key ∈ e.1 ∧ ∃ e₀ ∈ node.entries, e = (key :: e₀.1, e₀.2)) ∨ e ∈ rest.entries := by
      rcases List.mem_append.mp he with he | he
      · obtain ⟨e₀, he₀, rfl⟩ := List.mem_map.mp he
        exact Or.inl ⟨.head _, e₀, he₀, rfl⟩
      · exact Or.inr he
    split at hnone
    · rename_i hlt
      rcases hkey with ⟨hmem, -⟩ | he
      · exact absurd (hsub hmem) (not_mem_of_lt_head hset hlt)
      · exact SetChildren.findSubset_complete rest h.2.1 hset hnone e he hsub
    · have hrest : ∀ e ∈ rest.entries, e.1 ⊆ it :: tail →
          e.1 ⊆ (it :: tail).dropWhile fun it => decide (it < key) := fun e he hsub x hx =>
        mem_dropWhile_of_le (hsub hx) (h.rest_above e he x hx).le
      have hdrop : Ascending ((it :: tail).dropWhile fun it => decide (it < key)) :=
        hset.sublist (List.dropWhile_sublist _)
      split at hnone
      · rename_i heq
        rcases hkey with ⟨hmem, -⟩ | he
        · exact absurd (heq ▸ mem_dropWhile_of_le (hsub hmem) le_rfl) List.not_mem_nil
        · have hnil := hrest e he hsub
          rw [heq] at hnil
          exact absurd (List.subset_nil.mp hnil) (SetChildren.Valid.ascending rest h.2.1 e he).2.1
      · rename_i it' next heq
        rw [heq] at hdrop
        split at hnone
        · rename_i hit
          subst hit
          obtain ⟨found, hfound, hnone⟩ := Option.bind_eq_some_iff.mp hnone
          cases found with
          | some w => cases hnone
          | none =>
            dsimp only at hnone
            -- what lies above the key is among the rest of the set
            have htail : ∀ path : List K, (∀ x ∈ path, it' < x) → path ⊆ it :: tail → path ⊆ next := by
              intro path habove hsub x hx
              have hmem := mem_dropWhile_of_le (hsub hx) (habove x hx).le
              rw [heq] at hmem
              exact (List.mem_cons.mp hmem).resolve_left (habove x hx).ne'
            have hnext : Ascending next := (List.pairwise_cons.mp hdrop).2
            rcases hkey with ⟨-, e₀, he₀, rfl⟩ | he
            · exact SetNode.findSubset_complete node h.1.1 hnext hfound e₀ he₀
                (htail e₀.1 (h.node_above e₀ he₀) fun x hx => hsub (.tail _ hx))
            · have hsub' := htail e.1 (h.rest_above e he) hsub
              split at hnone
              · rename_i hempty
                rw [List.isEmpty_iff.mp hempty] at hsub'
                exact absurd (List.subset_nil.mp hsub') (SetChildren.Valid.ascending rest h.2.1 e he).2.1
              · exact SetChildren.findSubset_complete rest h.2.1 hnext hnone e he hsub'
        · rename_i hne
          have hlt : key < it' := by
            refine lt_of_le_of_ne (not_lt.mp ?_) (Ne.symm hne)
            have hhead := List.head_dropWhile_not (l := it :: tail) (fun it => decide (it < key)) (by simp [heq])
            simpa [heq] using hhead
          rcases hkey with ⟨hmem, -⟩ | he
          · have hmem' := mem_dropWhile_of_le (hsub hmem) le_rfl
            rw [heq] at hmem'
            exact absurd hmem' (not_mem_of_lt_head hdrop hlt)
          · have hsub' := hrest e he hsub
            rw [heq] at hsub'
            exact SetChildren.findSubset_complete rest h.2.1 hdrop hnone e he hsub'

end

mutual

theorem SetNode.findSuperset_complete : ∀ (node : SetNode K V), node.Valid → ∀ {set : List K}, Ascending set →
    node.findSuperset p set = some none → ∀ e ∈ node.entries, set ⊆ e.1 → p e.2 = some false
  | .mk value children, h, [], hset, hnone, e, he, _ => by
    unfold SetNode.findSuperset at hnone
    obtain ⟨found, hfound, hnone⟩ := Option.bind_eq_some_iff.mp hnone
    cases found with
    | some w => cases hnone
    | none =>
      dsimp only at hnone
      rcases List.mem_append.mp he with he | he
      · obtain ⟨v, hv, rfl⟩ := List.mem_map.mp he
        rw [Option.mem_toList.mp hv] at hfound
        exact holdsOf_eq_none hfound
      · obtain ⟨k, path, hpath⟩ := List.exists_cons_of_ne_nil (SetChildren.Valid.ascending children h e he).2.1
        exact SetChildren.findSuperset_complete children h hset hnone e he k path hpath (List.nil_subset _)
  | .mk value children, h, k :: set, hset, hnone, e, he, hsub => by
    unfold SetNode.findSuperset at hnone
    obtain ⟨found, hfound, hnone⟩ := Option.bind_eq_some_iff.mp hnone
    cases found with
    | some w => cases hnone
    | none =>
      dsimp only at hnone
      rcases List.mem_append.mp he with he | he
      · obtain ⟨v, -, rfl⟩ := List.mem_map.mp he
        exact absurd (hsub (.head _)) List.not_mem_nil
      · obtain ⟨hascending, hne, -⟩ := SetChildren.Valid.ascending children h e he
        obtain ⟨path, v⟩ := e
        cases path with
        | nil => exact absurd rfl hne
        | cons k' path =>
          by_cases hk : k' = k
          · subst hk
            have hnot : k' ∉ set := fun hmem => lt_irrefl k' ((List.pairwise_cons.mp hset).1 k' hmem)
            have hset' : set ⊆ path := (subset_cons_iff_of_not_mem hnot).mp fun x hx => hsub (.tail _ hx)
            exact SetChildren.findSupersetAt_complete children h (List.pairwise_cons.mp hset).2 hnone path v he hset'
          · have hmem : k ∈ path := (List.mem_cons.mp (hsub (.head _))).resolve_left (Ne.symm hk)
            have hlt : k' < k := (List.pairwise_cons.mp hascending).1 k hmem
            have hset' : k :: set ⊆ path := (subset_cons_iff_of_not_mem (not_mem_of_lt_head hset hlt)).mp hsub
            exact SetChildren.findSuperset_complete children h hset hfound _ he k' path rfl hset'

theorem SetChildren.findSuperset_complete : ∀ (children : SetChildren K V), children.Valid → ∀ {set : List K},
    Ascending set → children.findSuperset p set = some none →
    ∀ e ∈ children.entries, ∀ k path, e.1 = k :: path → set ⊆ path → p e.2 = some false
  | .nil, _, _, _, _, e, he, _, _, _, _ => absurd he List.not_mem_nil
  | .cons key node rest, h, set, hset, hnone, e, he, k, path, hpath, hsub => by
    unfold SetChildren.findSuperset at hnone
    obtain ⟨found, hfound, hnone⟩ := Option.bind_eq_some_iff.mp hnone
    cases found with
    | some w => cases hnone
    | none =>
      rcases List.mem_append.mp he with he | he
      · obtain ⟨e₀, he₀, rfl⟩ := List.mem_map.mp he
        obtain ⟨-, rfl⟩ := List.cons.inj hpath
        exact SetNode.findSuperset_complete node h.1.1 hset hfound e₀ he₀ hsub
      · exact SetChildren.findSuperset_complete rest h.2.1 hset hnone e he k path hpath hsub

theorem SetChildren.findSupersetAt_complete : ∀ (children : SetChildren K V), children.Valid →
    ∀ {k : K} {set : List K}, Ascending set → children.findSupersetAt p k set = some none →
    ∀ path v, (k :: path, v) ∈ children.entries → set ⊆ path → p v = some false
  | .nil, _, _, _, _, _, _, _, he, _ => absurd he List.not_mem_nil
  | .cons key node rest, h, k, set, hset, hnone, path, v, he, hsub => by
    unfold SetChildren.findSupersetAt at hnone
    rcases List.mem_append.mp he with he | he
    · obtain ⟨e₀, he₀, heq⟩ := List.mem_map.mp he
      obtain ⟨hcons, rfl⟩ := Prod.mk.inj heq
      obtain ⟨rfl, rfl⟩ := List.cons.inj hcons
      rw [if_pos rfl] at hnone
      exact SetNode.findSuperset_complete node h.1.1 hset hnone e₀ he₀ hsub
    · rw [if_neg (h.rest_above _ he k (.head _)).ne] at hnone
      exact SetChildren.findSupersetAt_complete rest h.2.1 hset hnone path v he hsub

end

end Order

end CgsKlee
