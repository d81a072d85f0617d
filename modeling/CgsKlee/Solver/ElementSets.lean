import CgsKlee.Solver.Models
import Mathlib.Data.List.AList
import Mathlib.Data.Finset.Basic

/-!
# Independent element sets

An `IndependentElementSet` says which bytes of arrays some expressions read: single elements of an array, or the whole
array if it is read at an index that is not constant.  The values of the expressions depend on no other bytes
(`DependsOn`).  Sets that do not intersect are apart: they have no byte in common.
-/

namespace CgsKlee

structure ReadSite where
  root : ExprArray
  head : UpdateNode
  index : Expr

mutual

/-- `findReads` with `visitUpdates`, in another order and with repetitions. -/
def Expr.findReads : Expr → List ReadSite
  | .constant _ => []
  | .notOptimized src => src.findReads
  | .read root head index => ⟨root, head, index⟩ :: (index.findReads ++ head.findReads)
  | .select cond trueExpr falseExpr => cond.findReads ++ (trueExpr.findReads ++ falseExpr.findReads)
  | .concat left right => left.findReads ++ right.findReads
  | .extract expr _ _ => expr.findReads
  | .cast _ src _ => src.findReads
  | .not expr => expr.findReads
  | .binary _ left right => left.findReads ++ right.findReads
  | .cmp _ left right => left.findReads ++ right.findReads

def UpdateNode.findReads : UpdateNode → List ReadSite
  | .nil => []
  | .cons index value next => index.findReads ++ (value.findReads ++ next.findReads)

end

/-- Two contents of the arrays agree on what is read: on the byte at a constant index, or on the whole array. -/
def ReadSite.Agree (m m' : Valuation) (site : ReadSite) : Prop :=
  site.root.isSymbolicArray = true →
    match site.index with
    | .constant c => m site.root c.toNat = m' site.root c.toNat
    | _ => m site.root = m' site.root

theorem ReadSite.Agree.initial {m m' : Valuation} {root : ExprArray} {head : UpdateNode} {index : Expr}
    (h : ReadSite.Agree m m' ⟨root, head, index⟩) :
    root.initial m (index.eval m).toNat = root.initial m' (index.eval m).toNat := by
  unfold ExprArray.initial
  split
  · rename_i hsym
    have h := h hsym
    cases index with
    | constant c => exact h
    | _ => exact congrFun h _
  · rfl

mutual

theorem Expr.eval_eq_of_reads {m m' : Valuation} : ∀ e : Expr, (∀ site ∈ e.findReads, site.Agree m m') →
    e.eval m = e.eval m'
  | .constant _, _ => rfl
  | .notOptimized src, h => src.eval_eq_of_reads h
  | .read root head index, h => by
    obtain ⟨hsite, h⟩ := List.forall_mem_cons.mp h
    obtain ⟨hindex, hhead⟩ := List.forall_mem_append.mp h
    have hi := index.eval_eq_of_reads hindex
    simp only [Expr.eval, hsite.initial, ← hi]
    exact head.lookup_eq_of_reads hhead _ _
  | .select c t f, h => by
    obtain ⟨hc, h⟩ := List.forall_mem_append.mp h
    obtain ⟨ht, hf⟩ := List.forall_mem_append.mp h
    simp only [Expr.eval, c.eval_eq_of_reads hc, t.eval_eq_of_reads ht, f.eval_eq_of_reads hf]
  | .concat l r, h => by
    obtain ⟨hl, hr⟩ := List.forall_mem_append.mp h
    simp only [Expr.eval, l.eval_eq_of_reads hl, r.eval_eq_of_reads hr]
  | .extract e _ _, h => by simp only [Expr.eval, e.eval_eq_of_reads h]
  | .cast _ e _, h => by simp only [Expr.eval, e.eval_eq_of_reads h]
  | .not e, h => by simp only [Expr.eval, e.eval_eq_of_reads h]
  | .binary _ l r, h => by
    obtain ⟨hl, hr⟩ := List.forall_mem_append.mp h
    simp only [Expr.eval, l.eval_eq_of_reads hl, r.eval_eq_of_reads hr]
  | .cmp _ l r, h => by
    obtain ⟨hl, hr⟩ := List.forall_mem_append.mp h
    simp only [Expr.eval, l.eval_eq_of_reads hl, r.eval_eq_of_reads hr]

theorem UpdateNode.lookup_eq_of_reads {m m' : Valuation} : ∀ u : UpdateNode,
    (∀ site ∈ u.findReads, site.Agree m m') → ∀ (initial : APInt) (i : Nat),
    u.lookup m initial i = u.lookup m' initial i
  | .nil, _, _, _ => rfl
  | .cons index value next, h, initial, i => by
    obtain ⟨hi, h⟩ := List.forall_mem_append.mp h
    obtain ⟨hv, hn⟩ := List.forall_mem_append.mp h
    simp only [UpdateNode.lookup, index.eval_eq_of_reads hi, value.eval_eq_of_reads hv, next.lookup_eq_of_reads hn]

end

mutual

theorem Expr.constant_index_lt : ∀ {e : Expr}, e.WellTyped → e.ShortIndices → ∀ site ∈ e.findReads,
    ∀ c, site.index = .constant c → c.toNat < 2 ^ 32
  | .notOptimized src, h, hs => Expr.constant_index_lt (e := src) h hs
  | .read root head index, h, hs => by
    rw [Expr.findReads, List.forall_mem_cons, List.forall_mem_append]
    refine ⟨?_, Expr.constant_index_lt h.2.2.1 hs.2.2, UpdateNode.constant_index_lt h.2.1 hs.2.1⟩
    rintro c rfl
    have hw : c.width = root.domain := h.2.2.2
    calc c.toNat < 2 ^ c.width := c.value.isLt
      _ ≤ 2 ^ 32 := Nat.pow_le_pow_right (by omega) (hw ▸ hs.1)
  | .select c t f, h, hs => by
    rw [Expr.findReads, List.forall_mem_append, List.forall_mem_append]
    exact ⟨Expr.constant_index_lt h.1 hs.1, Expr.constant_index_lt h.2.1 hs.2.1,
      Expr.constant_index_lt h.2.2.1 hs.2.2⟩
  | .concat l r, h, hs => by
    rw [Expr.findReads, List.forall_mem_append]
    exact ⟨Expr.constant_index_lt h.1 hs.1, Expr.constant_index_lt h.2 hs.2⟩
  | .extract e _ _, h, hs => Expr.constant_index_lt (e := e) h.1 hs
  | .cast _ e _, h, hs => Expr.constant_index_lt (e := e) h.1 hs
  | .not e, h, hs => Expr.constant_index_lt (e := e) h hs
  | .binary _ l r, h, hs => by
    rw [Expr.findReads, List.forall_mem_append]
    exact ⟨Expr.constant_index_lt h.1 hs.1, Expr.constant_index_lt h.2.1 hs.2⟩
  | .cmp _ l r, h, hs => by
    rw [Expr.findReads, List.forall_mem_append]
    exact ⟨Expr.constant_index_lt h.1 hs.1, Expr.constant_index_lt h.2.1 hs.2⟩
  | .constant _, _, _ => nofun

theorem UpdateNode.constant_index_lt {root : ExprArray} : ∀ {u : UpdateNode}, u.WellTyped root →
    u.ForallArrays (fun a => a.domain ≤ 32) → ∀ site ∈ u.findReads, ∀ c, site.index = .constant c → c.toNat < 2 ^ 32
  | .nil, _, _ => nofun
  | .cons index value next, h, hs => by
    rw [UpdateNode.findReads, List.forall_mem_append, List.forall_mem_append]
    exact ⟨Expr.constant_index_lt h.1 hs.1, Expr.constant_index_lt h.2.1 hs.2.1,
      UpdateNode.constant_index_lt h.2.2.1 hs.2.2⟩

end

/-- The read is not one of a constant array without updates. -/
def ReadSite.Aliases (site : ReadSite) : Prop := ¬(site.root.isSymbolicArray = false ∧ site.head = .nil)

def ReadSite.MayBeAt (site : ReadSite) (i : Nat) : Prop := ∀ c, site.index = .constant c → i = c.toNat

def Expr.MayRead (e : Expr) (a : ExprArray) (i : Nat) : Prop :=
  ∃ site ∈ e.findReads, site.Aliases ∧ site.root = a ∧ site.MayBeAt i

theorem Expr.eval_eq_of_mayRead {m m' : Valuation} (e : Expr) (h : ∀ a i, e.MayRead a i → m a i = m' a i) :
    e.eval m = e.eval m' := by
  refine e.eval_eq_of_reads fun site hsite hsym => ?_
  have halias : site.Aliases := by
    rintro ⟨hconst, -⟩
    rw [hsym] at hconst
    cases hconst
  split
  · rename_i c hindex
    refine h _ _ ⟨site, hsite, halias, rfl, fun c' hc' => ?_⟩
    rw [hindex] at hc'
    cases hc'
    rfl
  · rename_i hindex
    funext i
    exact h _ _ ⟨site, hsite, halias, rfl, fun c hc => absurd hc (hindex c)⟩

structure IndependentElementSet where
  elements : AList fun _ : ExprArray => Finset Nat
  wholeObjects : List ExprArray
  exprs : List Expr

namespace IndependentElementSet

/-- The body of the loop of the constructor over the reads.  The index, whose width is asserted to be at most 32, is
cut to 32 bits. -/
def addRead (s : IndependentElementSet) (re : ReadSite) : IndependentElementSet :=
  -- reads of a constant array don't alias
  if re.root.isSymbolicArray = false ∧ re.head = .nil then s
  else if re.root ∈ s.wholeObjects then s
  else
    match re.index with
    | .constant c =>
      { s with elements :=
          s.elements.insert re.root (insert (c.toNat % 2 ^ 32) ((s.elements.lookup re.root).getD ∅)) }
    | _ => { s with elements := s.elements.erase re.root, wholeObjects := s.wholeObjects.insert re.root }

def ofExpr (e : Expr) : IndependentElementSet := e.findReads.foldl addRead ⟨∅, [], [e]⟩

def intersects (s b : IndependentElementSet) : Bool :=
  (s.wholeObjects.any fun array => decide (array ∈ b.wholeObjects ∨ array ∈ b.elements)) ||
  (s.elements.entries.any fun it =>
    decide (it.1 ∈ b.wholeObjects) ||
    match b.elements.lookup it.1 with
    | some dis => decide (it.2 ∩ dis).Nonempty
    | none => false)

/-- The body of the loop of `add` over the whole objects, with `modified`. -/
def addWhole (r : IndependentElementSet × Bool) (array : ExprArray) : IndependentElementSet × Bool :=
  if array ∈ r.1.elements then
    ({ r.1 with elements := r.1.elements.erase array, wholeObjects := r.1.wholeObjects.insert array }, true)
  else if array ∈ r.1.wholeObjects then r
  else ({ r.1 with wholeObjects := r.1.wholeObjects.insert array }, true)

def addElements (r : IndependentElementSet × Bool) (it : (_ : ExprArray) × Finset Nat) :
    IndependentElementSet × Bool :=
  if it.1 ∈ r.1.wholeObjects then r
  else
    match r.1.elements.lookup it.1 with
    | none => ({ r.1 with elements := r.1.elements.insert it.1 it.2 }, true)
    | some dis =>
      if it.2 ⊆ dis then r else ({ r.1 with elements := r.1.elements.insert it.1 (dis ∪ it.2) }, true)

/-- `IndependentElementSet::add`, with whether the set has been changed. -/
def add (s b : IndependentElementSet) : IndependentElementSet × Bool :=
  b.elements.entries.foldl addElements (b.wholeObjects.foldl addWhole ({ s with exprs := s.exprs ++ b.exprs }, false))

def calculateArrayReferences (s : IndependentElementSet) : List ExprArray :=
  (s.elements.keys ++ s.wholeObjects).dedup

def HasElement (s : IndependentElementSet) (a : ExprArray) (i : Nat) : Prop := ∃ dis ∈ s.elements.lookup a, i ∈ dis

/-- The byte `i` of the array is in the set. -/
def Covers (s : IndependentElementSet) (a : ExprArray) (i : Nat) : Prop :=
  a ∈ s.wholeObjects ∨ s.HasElement a i

def HasArray (s : IndependentElementSet) (a : ExprArray) : Prop := a ∈ s.wholeObjects ∨ a ∈ s.elements

structure Apart (s b : IndependentElementSet) : Prop where
  left : ∀ a ∈ s.wholeObjects, ¬b.HasArray a
  right : ∀ a ∈ b.wholeObjects, ¬s.HasArray a
  elements : ∀ {a dis dis'}, dis ∈ s.elements.lookup a → dis' ∈ b.elements.lookup a → Disjoint dis dis'

variable {s b : IndependentElementSet} {a : ExprArray} {i : Nat}

theorem Covers.hasArray (h : s.Covers a i) : s.HasArray a := by
  rcases h with h | ⟨dis, hdis, -⟩
  · exact Or.inl h
  · exact Or.inr (AList.lookup_isSome.mp (Option.isSome_of_mem hdis))

theorem Apart.symm (h : s.Apart b) : b.Apart s := ⟨h.right, h.left, fun hb hs => (h.elements hs hb).symm⟩

theorem Apart.not_covers (h : s.Apart b) (hs : s.Covers a i) : ¬b.Covers a i := by
  intro hb
  rcases hs with hs | ⟨dis, hdis, hi⟩
  · exact h.left a hs hb.hasArray
  · rcases hb with hb | ⟨dis', hdis', hi'⟩
    · exact h.right a hb (Or.inr (AList.lookup_isSome.mp (Option.isSome_of_mem hdis)))
    · exact Finset.disjoint_left.mp (h.elements hdis hdis') hi hi'

theorem apart_of_intersects (h : s.intersects b = false) : s.Apart b := by
  obtain ⟨hwhole, helements⟩ := Bool.or_eq_false_iff.mp h
  rw [List.any_eq_false] at hwhole helements
  have hentry : ∀ {a dis}, dis ∈ s.elements.lookup a → a ∉ b.wholeObjects ∧
      ∀ dis' ∈ b.elements.lookup a, Disjoint dis dis' := by
    intro a dis hdis
    have hne := helements ⟨a, dis⟩ (AList.mem_lookup_iff.mp hdis)
    rw [Bool.or_eq_true, not_or, decide_eq_true_iff] at hne
    refine ⟨hne.1, fun dis' hdis' => ?_⟩
    have hne := hne.2
    rw [Option.mem_def.mp hdis'] at hne
    rw [Finset.disjoint_iff_inter_eq_empty, ← Finset.not_nonempty_iff_eq_empty]
    simpa using hne
  refine ⟨fun a ha hb => hwhole a ha (decide_eq_true hb), fun a ha hs => ?_, fun hs hb => (hentry hs).2 _ hb⟩
  rcases hs with hs | hs
  · exact hwhole a hs (decide_eq_true (Or.inl ha))
  · obtain ⟨dis, hdis⟩ := Option.isSome_iff_exists.mp (AList.lookup_isSome.mpr hs)
    exact (hentry hdis).1 ha

variable {r : IndependentElementSet × Bool}

theorem covers_addWhole {array : ExprArray} :
    (addWhole r array).1.Covers a i ↔ r.1.Covers a i ∨ a = array := by
  unfold addWhole Covers HasElement
  split
  · by_cases ha : a = array
    · subst ha
      simp
    · simp [ha, AList.lookup_erase_ne ha]
  · split
    · rename_i hmem
      refine ⟨Or.inl, ?_⟩
      rintro (h | rfl)
      · exact h
      · exact Or.inl hmem
    · by_cases ha : a = array <;> simp [ha]

theorem covers_addElements {it : (_ : ExprArray) × Finset Nat} :
    (addElements r it).1.Covers a i ↔ r.1.Covers a i ∨ (a = it.1 ∧ (i ∈ it.2 ∨ a ∈ r.1.wholeObjects)) := by
  unfold addElements Covers HasElement
  split
  · rename_i hmem
    refine ⟨Or.inl, ?_⟩
    rintro (h | ⟨rfl, -⟩)
    · exact h
    · exact Or.inl hmem
  · rename_i hmem
    split
    · rename_i hnone
      by_cases ha : a = it.1
      · subst ha
        simp [hnone, hmem]
      · simp [ha, AList.lookup_insert_ne ha]
    · rename_i dis hdis
      split
      · rename_i hsub
        refine ⟨Or.inl, ?_⟩
        rintro (h | ⟨rfl, hi | hi⟩)
        · exact h
        · exact Or.inr ⟨dis, hdis, hsub hi⟩
        · exact Or.inl hi
      · by_cases ha : a = it.1
        · subst ha
          simp [hdis, hmem]
        · simp [ha, AList.lookup_insert_ne ha]

theorem covers_foldl_addWhole (arrays : List ExprArray) :
    (arrays.foldl addWhole r).1.Covers a i ↔ r.1.Covers a i ∨ a ∈ arrays := by
  induction arrays generalizing r with
  | nil => simp
  | cons x xs ih => rw [List.foldl_cons, ih, covers_addWhole, List.mem_cons, or_assoc]

theorem covers_foldl_addElements (entries : List ((_ : ExprArray) × Finset Nat)) :
    (entries.foldl addElements r).1.Covers a i ↔ r.1.Covers a i ∨ ∃ dis, (⟨a, dis⟩ : (_ : ExprArray) × _) ∈ entries ∧ i ∈ dis := by
  induction entries generalizing r with
  | nil => simp
  | cons x xs ih =>
    rw [List.foldl_cons, ih, covers_addElements]
    constructor
    · rintro ((h | ⟨rfl, hi | hi⟩) | ⟨dis, hmem, hi⟩)
      · exact Or.inl h
      · exact Or.inr ⟨x.2, .head _, hi⟩
      · exact Or.inl (Or.inl hi)
      · exact Or.inr ⟨dis, .tail _ hmem, hi⟩
    · rintro (h | ⟨dis, hmem, hi⟩)
      · exact Or.inl (Or.inl h)
      · rcases List.mem_cons.mp hmem with rfl | hmem
        · exact Or.inl (Or.inr ⟨rfl, Or.inl hi⟩)
        · exact Or.inr ⟨dis, hmem, hi⟩

theorem covers_add : (s.add b).1.Covers a i ↔ s.Covers a i ∨ b.Covers a i := by
  unfold add
  rw [covers_foldl_addElements, covers_foldl_addWhole, or_assoc]
  unfold Covers HasElement
  simp only [AList.mem_lookup_iff]

theorem exprs_add : (s.add b).1.exprs = s.exprs ++ b.exprs := by
  have hwhole : ∀ (arrays : List ExprArray) (r : IndependentElementSet × Bool),
      (arrays.foldl addWhole r).1.exprs = r.1.exprs := by
    intro arrays
    induction arrays with
    | nil => exact fun _ => rfl
    | cons x xs ih =>
      intro r
      rw [List.foldl_cons, ih]
      unfold addWhole
      split
      · rfl
      · split <;> rfl
  have helements : ∀ (entries : List ((_ : ExprArray) × Finset Nat)) (r : IndependentElementSet × Bool),
      (entries.foldl addElements r).1.exprs = r.1.exprs := by
    intro entries
    induction entries with
    | nil => exact fun _ => rfl
    | cons x xs ih =>
      intro r
      rw [List.foldl_cons, ih]
      unfold addElements
      split
      · rfl
      · split
        · rfl
        · split <;> rfl
  unfold add
  rw [helements, hwhole]

theorem foldl_eq_of_unmodified {α : Type} {f : IndependentElementSet × Bool → α → IndependentElementSet × Bool}
    (hf : ∀ r x, (f r x).2 = false → f r x = r) (xs : List α) :
    (xs.foldl f r).2 = false → xs.foldl f r = r := by
  induction xs generalizing r with
  | nil => exact fun _ => rfl
  | cons x xs ih =>
    intro h
    rw [List.foldl_cons] at h ⊢
    have hx := ih h
    rw [hx] at h ⊢
    exact hf r x h

theorem add_unmodified (h : (s.add b).2 = false) :
    (s.add b).1.elements = s.elements ∧ (s.add b).1.wholeObjects = s.wholeObjects := by
  unfold add at h ⊢
  have helements := foldl_eq_of_unmodified (fun r x hx => by
    unfold addElements at hx ⊢
    split at hx
    · rw [if_pos ‹_›]
    · rw [if_neg ‹_›]
      split at hx
      · cases hx
      · split at hx
        · rw [if_pos ‹_›]
        · cases hx) _ h
  rw [helements] at h ⊢
  have hwhole := foldl_eq_of_unmodified (fun r x hx => by
    unfold addWhole at hx ⊢
    split at hx
    · cases hx
    · rw [if_neg ‹_›]
      split at hx
      · rw [if_pos ‹_›]
      · cases hx) _ h
  rw [hwhole]
  exact ⟨rfl, rfl⟩

theorem hasElement_addWhole {array : ExprArray} (h : (addWhole r array).1.HasElement a i) : r.1.HasElement a i := by
  obtain ⟨dis, hdis, hi⟩ := h
  unfold addWhole at hdis
  split at hdis
  · by_cases ha : a = array
    · subst ha
      simp at hdis
    · exact ⟨dis, by simpa [AList.lookup_erase_ne ha] using hdis, hi⟩
  · split at hdis
    · exact ⟨dis, hdis, hi⟩
    · exact ⟨dis, hdis, hi⟩

theorem hasElement_addElements {it : (_ : ExprArray) × Finset Nat} (h : (addElements r it).1.HasElement a i) :
    r.1.HasElement a i ∨ (a = it.1 ∧ i ∈ it.2) := by
  obtain ⟨dis, hdis, hi⟩ := h
  unfold addElements at hdis
  split at hdis
  · exact Or.inl ⟨dis, hdis, hi⟩
  · by_cases ha : a = it.1
    · subst ha
      split at hdis
      · simp only [AList.lookup_insert, Option.mem_def, Option.some.injEq] at hdis
        exact Or.inr ⟨rfl, hdis ▸ hi⟩
      · rename_i dis' hdis'
        split at hdis
        · exact Or.inl ⟨dis, hdis, hi⟩
        · simp only [AList.lookup_insert, Option.mem_def, Option.some.injEq] at hdis
          rw [← hdis, Finset.mem_union] at hi
          rcases hi with hi | hi
          · exact Or.inl ⟨dis', hdis', hi⟩
          · exact Or.inr ⟨rfl, hi⟩
    · refine Or.inl ?_
      split at hdis
      · exact ⟨dis, by simpa [AList.lookup_insert_ne ha] using hdis, hi⟩
      · split at hdis
        · exact ⟨dis, hdis, hi⟩
        · exact ⟨dis, by simpa [AList.lookup_insert_ne ha] using hdis, hi⟩

theorem hasElement_add (h : (s.add b).1.HasElement a i) : s.HasElement a i ∨ b.HasElement a i := by
  have hwhole : ∀ (arrays : List ExprArray) (r : IndependentElementSet × Bool),
      (arrays.foldl addWhole r).1.HasElement a i → r.1.HasElement a i := by
    intro arrays
    induction arrays with
    | nil => exact fun _ h => h
    | cons x xs ih => exact fun r h => hasElement_addWhole (ih _ h)
  have helements : ∀ (entries : List ((_ : ExprArray) × Finset Nat)) (r : IndependentElementSet × Bool),
      (entries.foldl addElements r).1.HasElement a i →
      r.1.HasElement a i ∨ ∃ dis, (⟨a, dis⟩ : (_ : ExprArray) × Finset Nat) ∈ entries ∧ i ∈ dis := by
    intro entries
    induction entries with
    | nil => exact fun _ h => Or.inl h
    | cons x xs ih =>
      intro r h
      rcases ih _ h with h | ⟨dis, hmem, hi⟩
      · rcases hasElement_addElements h with h | ⟨rfl, hi⟩
        · exact Or.inl h
        · exact Or.inr ⟨x.2, .head _, hi⟩
      · exact Or.inr ⟨dis, .tail _ hmem, hi⟩
  rcases helements _ _ h with h | ⟨dis, hmem, hi⟩
  · exact Or.inl (hwhole _ _ h)
  · exact Or.inr ⟨dis, AList.mem_lookup_iff.mpr hmem, hi⟩

theorem covers_addRead {re : ReadSite} : (s.addRead re).Covers a i ↔
    s.Covers a i ∨ (re.Aliases ∧ re.root = a ∧ ∀ c, re.index = .constant c → i = c.toNat % 2 ^ 32) := by
  unfold addRead
  split
  · rename_i hskip
    exact ⟨Or.inl, fun h => h.resolve_right fun h => h.1 hskip⟩
  · rename_i halias
    split
    · rename_i hmem
      refine ⟨Or.inl, ?_⟩
      rintro (h | ⟨-, rfl, -⟩)
      · exact h
      · exact Or.inl hmem
    · rename_i hmem
      split
      · rename_i c hindex
        simp only [hindex, Expr.constant.injEq, forall_eq']
        unfold Covers HasElement
        by_cases ha : a = re.root
        · subst ha
          rw [AList.lookup_insert]
          cases hlookup : s.elements.lookup re.root with
          | none => simp [hmem, ReadSite.Aliases, halias]
          | some dis =>
            simp only [hmem, Option.mem_def, Option.some.injEq, exists_eq_left', Option.getD_some, Finset.mem_insert,
              false_or, true_and, ReadSite.Aliases, halias, not_false_eq_true]
            exact or_comm
        · simp [Ne.symm ha, AList.lookup_insert_ne ha]
      · rename_i hindex
        unfold Covers HasElement
        by_cases ha : a = re.root
        · subst ha
          refine iff_of_true (Or.inl (List.mem_insert_self)) (Or.inr ⟨halias, rfl, ?_⟩)
          exact fun c hc => absurd hc (hindex c)
        · simp [ha, Ne.symm ha, AList.lookup_erase_ne ha]

theorem hasElement_addRead {re : ReadSite} (h : (s.addRead re).HasElement a i) :
    s.HasElement a i ∨ (re.root = a ∧ ∃ c, re.index = .constant c ∧ i = c.toNat % 2 ^ 32) := by
  obtain ⟨dis, hdis, hi⟩ := h
  unfold addRead at hdis
  split at hdis
  · exact Or.inl ⟨dis, hdis, hi⟩
  · split at hdis
    · exact Or.inl ⟨dis, hdis, hi⟩
    · by_cases ha : a = re.root
      · subst ha
        split at hdis
        · rename_i c hindex
          simp only [AList.lookup_insert, Option.mem_def, Option.some.injEq] at hdis
          rw [← hdis, Finset.mem_insert] at hi
          rcases hi with hi | hi
          · exact Or.inr ⟨rfl, c, hindex, hi⟩
          · cases hlookup : s.elements.lookup re.root with
            | none => simp [hlookup] at hi
            | some dis' => exact Or.inl ⟨dis', hlookup, by simpa [hlookup] using hi⟩
        · simp at hdis
      · refine Or.inl ⟨dis, ?_, hi⟩
        split at hdis
        · simpa [AList.lookup_insert_ne ha] using hdis
        · simpa [AList.lookup_erase_ne ha] using hdis

theorem exprs_addRead (re : ReadSite) : (s.addRead re).exprs = s.exprs := by
  unfold addRead
  split
  · rfl
  · split
    · rfl
    · split
      · rfl
      · rfl

structure OfExprs (s : IndependentElementSet) : Prop where
  covers : ∀ {a i}, s.Covers a i ↔ ∃ e ∈ s.exprs, e.MayRead a i
  element : ∀ {a i}, s.HasElement a i →
    ∃ e ∈ s.exprs, ∃ site ∈ e.findReads, site.root = a ∧ ∃ c, site.index = .constant c ∧ i = c.toNat

theorem exprs_ofExpr (e : Expr) : (ofExpr e).exprs = [e] := by
  have hfold : ∀ (sites : List ReadSite) (s : IndependentElementSet), (sites.foldl addRead s).exprs = s.exprs := by
    intro sites
    induction sites with
    | nil => exact fun _ => rfl
    | cons re sites ih => exact fun s => (ih _).trans (exprs_addRead re)
  exact hfold _ _

theorem ofExprs_ofExpr {e : Expr} (h : e.WellTyped) (hs : e.ShortIndices) : (ofExpr e).OfExprs := by
  have hmod : ∀ site ∈ e.findReads, ∀ c, site.index = .constant c → c.toNat % 2 ^ 32 = c.toNat :=
    fun site hsite c hc => Nat.mod_eq_of_lt (Expr.constant_index_lt h hs site hsite c hc)
  have hcovers : ∀ (sites : List ReadSite) (s : IndependentElementSet) {a i}, (sites.foldl addRead s).Covers a i ↔
      s.Covers a i ∨ ∃ re ∈ sites, re.Aliases ∧ re.root = a ∧ ∀ c, re.index = .constant c → i = c.toNat % 2 ^ 32 := by
    intro sites
    induction sites with
    | nil => simp
    | cons re sites ih =>
      intro s a i
      rw [List.foldl_cons, ih, covers_addRead, or_assoc]
      simp only [List.mem_cons, exists_eq_or_imp]
  have helement : ∀ (sites : List ReadSite) (s : IndependentElementSet) {a i}, (sites.foldl addRead s).HasElement a i →
      s.HasElement a i ∨ ∃ re ∈ sites, re.root = a ∧ ∃ c, re.index = .constant c ∧ i = c.toNat % 2 ^ 32 := by
    intro sites
    induction sites with
    | nil => exact fun _ _ _ h => Or.inl h
    | cons re sites ih =>
      intro s a i hcov
      rcases ih _ hcov with hcov | ⟨re', hre', hcov⟩
      · rcases hasElement_addRead hcov with hcov | hcov
        · exact Or.inl hcov
        · exact Or.inr ⟨re, .head _, hcov⟩
      · exact Or.inr ⟨re', .tail _ hre', hcov⟩
  have hempty : ∀ {a i}, ¬(⟨∅, [], [e]⟩ : IndependentElementSet).HasElement a i := by
    rintro a i ⟨dis, hdis, -⟩
    cases hdis
  constructor
  · intro a i
    rw [exprs_ofExpr, ofExpr, hcovers]
    simp only [List.mem_singleton, exists_eq_left]
    constructor
    · rintro ((h | h) | ⟨re, hre, halias, hroot, hindex⟩)
      · cases h
      · exact absurd h hempty
      · exact ⟨re, hre, halias, hroot, fun c hc => (hindex c hc).trans (hmod re hre c hc)⟩
    · rintro ⟨re, hre, halias, hroot, hindex⟩
      exact Or.inr ⟨re, hre, halias, hroot, fun c hc => (hindex c hc).trans (hmod re hre c hc).symm⟩
  · intro a i hcov
    rcases helement _ _ hcov with hcov | ⟨re, hre, hroot, c, hc, hi⟩
    · exact absurd hcov hempty
    · exact ⟨e, by rw [exprs_ofExpr]; exact .head _, re, hre, hroot, c, hc, hi.trans (hmod re hre c hc)⟩

theorem OfExprs.add (hs : s.OfExprs) (hb : b.OfExprs) : (s.add b).1.OfExprs where
  covers := by
    intro a i
    rw [covers_add, hs.covers, hb.covers, exprs_add]
    simp only [List.mem_append, or_and_right, exists_or]
  element := by
    intro a i h
    rw [exprs_add]
    rcases hasElement_add h with h | h
    · obtain ⟨e, he, hsite⟩ := hs.element h
      exact ⟨e, List.mem_append_left _ he, hsite⟩
    · obtain ⟨e, he, hsite⟩ := hb.element h
      exact ⟨e, List.mem_append_right _ he, hsite⟩

theorem OfExprs.eval_eq (hs : s.OfExprs) {e : Expr} (he : e ∈ s.exprs) {m m' : Valuation}
    (h : ∀ a i, s.Covers a i → m a i = m' a i) : e.eval m = e.eval m' :=
  e.eval_eq_of_mayRead fun a i hread => h a i (hs.covers.mpr ⟨e, he, hread⟩)

end IndependentElementSet

end CgsKlee
