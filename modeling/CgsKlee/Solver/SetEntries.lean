import CgsKlee.Solver.MapOfSets
import Mathlib.Order.Basic
import Mathlib.Data.List.Nodup

/-!
# The entries of a map of sets

The entries of a tree in the order of a walk from its root.  In the trees that `insert` and `clear` make, the keys of
children ascend along every level and every path, and a node without children ends a set.  There the entries are what
`lookup` finds, `subsets` and `supersets` are the entries under the parts of a set and under the sets around it, and
`findSubset` and `findSuperset` miss none of these.
-/

namespace CgsKlee

variable {K V : Type}

mutual

def SetNode.entries : SetNode K V → List (List K × V)
  | .mk value children => (value.toList.map fun v => ([], v)) ++ children.entries

def SetChildren.entries : SetChildren K V → List (List K × V)
  | .nil => []
  | .cons key node rest => (node.entries.map fun e => (key :: e.1, e.2)) ++ rest.entries

end

mutual

theorem SetNode.mem_entries_of_entry : ∀ (node : SetNode K V) {path : List K} {v : V}, node.Entry path v →
    (path, v) ∈ node.entries
  | .mk value children, [], v, h => by
    obtain rfl : value = some v := h
    exact .head _
  | .mk value children, k :: path, v, h => List.mem_append_right _ (SetChildren.mem_entries_of_entry children h)

theorem SetChildren.mem_entries_of_entry : ∀ (children : SetChildren K V) {k : K} {path : List K} {v : V},
    children.Entry k path v → (k :: path, v) ∈ children.entries
  | .nil, _, _, _, h => absurd h id
  | .cons key node rest, k, path, v, h => by
    rcases h with ⟨rfl, h⟩ | h
    · exact List.mem_append_left _ (List.mem_map.mpr ⟨(path, v), SetNode.mem_entries_of_entry node h, rfl⟩)
    · exact List.mem_append_right _ (SetChildren.mem_entries_of_entry rest h)

end

def SetNode.children : SetNode K V → SetChildren K V
  | .mk _ children => children

def SetNode.HasEntry : SetNode K V → Prop
  | .mk value children => value = none → children ≠ .nil

section Order

variable [LinearOrder K]

/-- The elements of a `std::set` in its order. -/
abbrev Ascending (set : List K) : Prop := set.Pairwise (· < ·)

def SetChildren.KeysAbove (k : K) : SetChildren K V → Prop
  | .nil => True
  | .cons key _ rest => k < key ∧ rest.KeysAbove k

mutual

/-- Keys ascend along every level and every path, and there is an entry below every child. -/
def SetNode.Valid : SetNode K V → Prop
  | .mk _ children => children.Valid

def SetChildren.Valid : SetChildren K V → Prop
  | .nil => True
  | .cons key node rest =>
    (node.Valid ∧ node.HasEntry ∧ node.children.KeysAbove key) ∧ rest.Valid ∧ rest.KeysAbove key

end

theorem SetChildren.KeysAbove.trans {k k' : K} (h : k < k') :
    ∀ children : SetChildren K V, children.KeysAbove k' → children.KeysAbove k
  | .nil, _ => trivial
  | .cons _ _ rest, hc => ⟨h.trans hc.1, SetChildren.KeysAbove.trans h rest hc.2⟩

theorem SetChildren.KeysAbove.modify {k key : K} {f : SetNode K V → SetNode K V} (h : k < key) :
    ∀ children : SetChildren K V, children.KeysAbove k → (children.modify key f).KeysAbove k
  | .nil, _ => ⟨h, trivial⟩
  | .cons k' node rest, hc => by
    unfold SetChildren.modify
    split
    · exact hc
    · split
      · exact ⟨hc.1, SetChildren.KeysAbove.modify h rest hc.2⟩
      · exact ⟨h, hc⟩

theorem SetNode.valid_empty : (SetNode.empty : SetNode K V).Valid := trivial

theorem SetChildren.Valid.modify {key : K} {f : SetNode K V → SetNode K V}
    (hf : ∀ node : SetNode K V, node.Valid → node.children.KeysAbove key →
      (f node).Valid ∧ (f node).HasEntry ∧ (f node).children.KeysAbove key) :
    ∀ children : SetChildren K V, children.Valid → (children.modify key f).Valid
  | .nil, _ => ⟨hf .empty SetNode.valid_empty trivial, trivial, trivial⟩
  | .cons k' node rest, hc => by
    unfold SetChildren.modify
    split
    · rename_i heq
      subst heq
      exact ⟨hf node hc.1.1 hc.1.2.2, hc.2⟩
    · rename_i hne
      split
      · rename_i hlt
        exact ⟨hc.1, SetChildren.Valid.modify hf rest hc.2.1, SetChildren.KeysAbove.modify hlt rest hc.2.2⟩
      · rename_i hge
        have hlt : key < k' := lt_of_le_of_ne (not_lt.mp hge) (Ne.symm hne)
        exact ⟨hf .empty SetNode.valid_empty trivial, hc, hlt, SetChildren.KeysAbove.trans hlt rest hc.2.2⟩

theorem SetNode.Valid.insert {set : List K} {v : V} (hset : Ascending set) : ∀ {node : SetNode K V}, node.Valid →
    (node.insert set v).Valid ∧ (node.insert set v).HasEntry ∧
      ∀ k, (∀ x ∈ set, k < x) → node.children.KeysAbove k → (node.insert set v).children.KeysAbove k := by
  induction set with
  | nil =>
    rintro ⟨value, children⟩ h
    refine ⟨h, ?_, fun _ _ hk => hk⟩
    intro hv
    cases hv
  | cons key set ih =>
    obtain ⟨hkey, hset⟩ := List.pairwise_cons.mp hset
    rintro ⟨value, children⟩ h
    refine ⟨SetChildren.Valid.modify (fun node hnode habove => ?_) children h, fun _ => ?_, fun k hk habove => ?_⟩
    · obtain ⟨hvalid, hentry, hkeys⟩ := ih hset hnode
      exact ⟨hvalid, hentry, hkeys key hkey habove⟩
    · cases children with
      | nil =>
        intro h
        cases h
      | cons k' node rest =>
        unfold SetChildren.modify
        split
        · intro h
          cases h
        · split <;> intro h <;> cases h
    · exact SetChildren.KeysAbove.modify (hk key (.head _)) children habove

theorem SetChildren.KeysAbove.lookup {k : K} {set : List K} :
    ∀ children : SetChildren K V, children.KeysAbove k → children.lookup k set = none
  | .nil, _ => rfl
  | .cons _ _ rest, h => by
    unfold SetChildren.lookup
    rw [if_neg h.1.ne']
    exact SetChildren.KeysAbove.lookup rest h.2

theorem SetChildren.lookup_modify_eq {key : K} (f : SetNode K V → SetNode K V) :
    ∀ children : SetChildren K V, children.Valid → ∃ node : SetNode K V, node.Valid ∧
      (∀ set, (children.modify key f).lookup key set = (f node).lookup set) ∧
      ∀ set, children.lookup key set = node.lookup set
  | .nil, _ => by
    refine ⟨.empty, SetNode.valid_empty, fun set => ?_, fun set => ?_⟩
    · unfold SetChildren.modify SetChildren.lookup
      rw [if_pos rfl]
    · cases set <;> rfl
  | .cons k' node rest, hc => by
    unfold SetChildren.modify
    split
    · rename_i heq
      refine ⟨node, hc.1.1, fun set => ?_, fun set => ?_⟩ <;> unfold SetChildren.lookup <;> rw [if_pos heq]
    · rename_i hne
      split
      · obtain ⟨n, hn, hmodify, hold⟩ := SetChildren.lookup_modify_eq f rest hc.2.1
        refine ⟨n, hn, fun set => ?_, fun set => ?_⟩ <;> unfold SetChildren.lookup <;> rw [if_neg hne]
        · exact hmodify set
        · exact hold set
      · rename_i hge
        have hlt : key < k' := lt_of_le_of_ne (not_lt.mp hge) (Ne.symm hne)
        refine ⟨.empty, SetNode.valid_empty, fun set => ?_, fun set => ?_⟩
        · unfold SetChildren.lookup
          rw [if_pos rfl]
        · have habove : (SetChildren.cons k' node rest).KeysAbove key :=
            ⟨hlt, SetChildren.KeysAbove.trans hlt rest hc.2.2⟩
          rw [SetChildren.KeysAbove.lookup _ habove]
          cases set <;> rfl

theorem SetChildren.lookup_modify_ne {key k : K} (f : SetNode K V → SetNode K V) (hne : k ≠ key) (set : List K) :
    ∀ children : SetChildren K V, (children.modify key f).lookup k set = children.lookup k set
  | .nil => by
    unfold SetChildren.modify SetChildren.lookup
    rw [if_neg (Ne.symm hne)]
    rfl
  | .cons k' node rest => by
    unfold SetChildren.modify
    split
    · rename_i heq
      unfold SetChildren.lookup
      rw [if_neg (heq ▸ Ne.symm hne), if_neg (heq ▸ Ne.symm hne)]
    · split
      · unfold SetChildren.lookup
        split
        · rfl
        · exact SetChildren.lookup_modify_ne f hne set rest
      · rw [SetChildren.lookup, if_neg (Ne.symm hne)]

theorem SetNode.lookup_insert_ne {set set' : List K} {v : V} (hne : set' ≠ set) : ∀ {node : SetNode K V}, node.Valid →
    (node.insert set v).lookup set' = node.lookup set' := by
  induction set generalizing set' with
  | nil =>
    rintro ⟨value, children⟩ _
    cases set' with
    | nil => exact absurd rfl hne
    | cons k set' => rfl
  | cons key set ih =>
    rintro ⟨value, children⟩ h
    cases set' with
    | nil => rfl
    | cons k set' =>
      change (children.modify key (SetNode.insert set v)).lookup k set' = children.lookup k set'
      by_cases hk : k = key
      · subst hk
        obtain ⟨node, hnode, hmodify, hold⟩ := SetChildren.lookup_modify_eq (SetNode.insert set v) children h
        rw [hmodify, hold]
        exact ih (fun heq => hne (heq ▸ rfl)) hnode
      · exact SetChildren.lookup_modify_ne _ hk set' children

mutual

theorem SetNode.Valid.ascending : ∀ node : SetNode K V, node.Valid → ∀ e ∈ node.entries, Ascending e.1
  | .mk value children, h, e, he => by
    rcases List.mem_append.mp he with he | he
    · obtain ⟨v, -, rfl⟩ := List.mem_map.mp he
      exact .nil
    · exact (SetChildren.Valid.ascending children h e he).1

theorem SetChildren.Valid.ascending : ∀ children : SetChildren K V, children.Valid → ∀ e ∈ children.entries,
    Ascending e.1 ∧ e.1 ≠ [] ∧ ∀ k, children.KeysAbove k → ∀ x ∈ e.1, k < x
  | .nil, _, e, he => absurd he List.not_mem_nil
  | .cons key node rest, h, e, he => by
    rcases List.mem_append.mp he with he | he
    · obtain ⟨e₀, he₀, rfl⟩ := List.mem_map.mp he
      have habove : ∀ x ∈ e₀.1, key < x := by
        obtain ⟨value, children⟩ := node
        rcases List.mem_append.mp he₀ with hown | hbelow
        · obtain ⟨v, -, rfl⟩ := List.mem_map.mp hown
          exact List.forall_mem_nil _
        · exact (SetChildren.Valid.ascending children h.1.1 e₀ hbelow).2.2 key h.1.2.2
      refine ⟨List.pairwise_cons.mpr ⟨habove, SetNode.Valid.ascending node h.1.1 e₀ he₀⟩, nofun, fun k hk x hx => ?_⟩
      rcases List.mem_cons.mp hx with rfl | hx'
      · exact hk.1
      · exact hk.1.trans (habove x hx')
    · obtain ⟨hascending, hne, habove⟩ := SetChildren.Valid.ascending rest h.2.1 e he
      exact ⟨hascending, hne, fun k hk => habove k hk.2⟩

end

theorem SetChildren.Valid.rest_above {key : K} {node : SetNode K V} {rest : SetChildren K V}
    (h : (SetChildren.cons key node rest).Valid) : ∀ e ∈ rest.entries, ∀ x ∈ e.1, key < x :=
  fun e he => (SetChildren.Valid.ascending rest h.2.1 e he).2.2 key h.2.2

theorem SetChildren.Valid.node_above {key : K} {node : SetNode K V} {rest : SetChildren K V}
    (h : (SetChildren.cons key node rest).Valid) : ∀ e ∈ node.entries, ∀ x ∈ e.1, key < x := by
  intro e he
  have hmem : (key :: e.1, e.2) ∈ (SetChildren.cons key node rest).entries :=
    List.mem_append_left _ (List.mem_map.mpr ⟨e, he, rfl⟩)
  exact (List.pairwise_cons.mp (SetChildren.Valid.ascending _ h _ hmem).1).1

mutual

theorem SetNode.mem_entries : ∀ node : SetNode K V, node.Valid → ∀ {set : List K} {v : V},
    (set, v) ∈ node.entries ↔ node.lookup set = some v
  | .mk value children, h, [], v => by
    have hbelow : ([], v) ∉ children.entries := fun hmem =>
      (SetChildren.Valid.ascending children h _ hmem).2.1 rfl
    unfold SetNode.entries SetNode.lookup
    simp [hbelow]
  | .mk value children, h, k :: set, v => by
    have hchildren : (k :: set, v) ∈ children.entries ↔ children.lookup k set = some v :=
      SetChildren.mem_entries children h
    unfold SetNode.entries SetNode.lookup
    simpa using hchildren

theorem SetChildren.mem_entries : ∀ children : SetChildren K V, children.Valid → ∀ {k : K} {set : List K} {v : V},
    (k :: set, v) ∈ children.entries ↔ children.lookup k set = some v
  | .nil, _, k, set, v => by simp [SetChildren.entries, SetChildren.lookup]
  | .cons key node rest, h, k, set, v => by
    have hnode : (set, v) ∈ node.entries ↔ node.lookup set = some v := SetNode.mem_entries node h.1.1
    have hrest : (k :: set, v) ∈ rest.entries ↔ rest.lookup k set = some v := SetChildren.mem_entries rest h.2.1
    unfold SetChildren.entries SetChildren.lookup
    rw [List.mem_append]
    split
    · rename_i heq
      subst heq
      have hnot : (key :: set, v) ∉ rest.entries := fun hmem => lt_irrefl key (h.rest_above _ hmem key (.head _))
      simp [hnot, hnode]
    · rename_i hne
      simp [hne, hrest]

end

mutual

theorem SetNode.Valid.nodup : ∀ node : SetNode K V, node.Valid → (node.entries.map Prod.fst).Nodup
  | .mk value children, h => by
    unfold SetNode.entries
    rw [List.map_append, List.nodup_append]
    refine ⟨?_, SetChildren.Valid.nodup children h, ?_⟩
    · cases value <;> simp
    · intro path hpath path' hpath' heq
      obtain ⟨e, he, rfl⟩ := List.mem_map.mp hpath
      obtain ⟨v, -, rfl⟩ := List.mem_map.mp he
      obtain ⟨e', he', rfl⟩ := List.mem_map.mp hpath'
      exact (SetChildren.Valid.ascending children h e' he').2.1 heq.symm

theorem SetChildren.Valid.nodup : ∀ children : SetChildren K V, children.Valid →
    (children.entries.map Prod.fst).Nodup
  | .nil, _ => .nil
  | .cons key node rest, h => by
    unfold SetChildren.entries
    rw [List.map_append, List.nodup_append]
    refine ⟨?_, SetChildren.Valid.nodup rest h.2.1, ?_⟩
    · rw [List.map_map]
      have hcomp : (Prod.fst ∘ fun e : List K × V => (key :: e.1, e.2)) = (key :: ·) ∘ Prod.fst := rfl
      rw [hcomp, ← List.map_map]
      exact List.Nodup.map List.cons_injective (SetNode.Valid.nodup node h.1.1)
    · intro path hpath path' hpath' heq
      obtain ⟨e, he, rfl⟩ := List.mem_map.mp hpath
      obtain ⟨e₀, -, rfl⟩ := List.mem_map.mp he
      obtain ⟨e', he', rfl⟩ := List.mem_map.mp hpath'
      exact lt_irrefl key (h.rest_above e' he' key (heq ▸ .head _))

end

end Order

end CgsKlee
