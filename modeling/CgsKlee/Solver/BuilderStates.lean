import CgsKlee.Solver.BuilderSound

/-!
# Builders over many queries

A builder keeps its tables from one query to the next: `Backend.Reachable`.  An assignment becomes an interpretation of
the variables of the builder if no two arrays have the same variable, and otherwise some assignment does not
(`represents_iff_distinct`).
-/

namespace CgsKlee

open Smt

/-- The assignments give the same elements to the arrays; beyond the end of an array they can differ. -/
def AgreeInBounds (m m' : Valuation) : Prop := ∀ (a : ExprArray) (i : Nat), i < a.size → m a i = m' a i

section Agree

variable {m m' : Valuation}

mutual

theorem Expr.Defined.congr (h : AgreeInBounds m m') : ∀ {e : Expr}, e.Defined m → e.Defined m' ∧ e.eval m = e.eval m'
  | .constant _, _ => ⟨trivial, rfl⟩
  | .notOptimized src, hd => Expr.Defined.congr h (e := src) hd
  | .read root head index, hd => by
    obtain ⟨hh, hi, hlt⟩ := hd
    obtain ⟨hi', hindex⟩ := hi.congr h
    obtain ⟨hh', hlookup⟩ := hh.congr h
    have hinitial : root.initial m (index.eval m).toNat = root.initial m' (index.eval m).toNat := by
      unfold ExprArray.initial
      rw [h root _ hlt]
    refine ⟨⟨hh', hi', hindex ▸ hlt⟩, ?_⟩
    unfold Expr.eval
    rw [← hindex, ← hinitial]
    exact hlookup _ _
  | .select c t f, hd => by
    obtain ⟨hc, ht, hf⟩ := hd
    obtain ⟨hc', hce⟩ := hc.congr h
    obtain ⟨ht', hte⟩ := ht.congr h
    obtain ⟨hf', hfe⟩ := hf.congr h
    exact ⟨⟨hc', ht', hf'⟩, by simp only [Expr.eval, hce, hte, hfe]⟩
  | .concat l r, hd => by
    obtain ⟨hl', hle⟩ := hd.1.congr h
    obtain ⟨hr', hre⟩ := hd.2.congr h
    exact ⟨⟨hl', hr'⟩, by simp only [Expr.eval, hle, hre]⟩
  | .extract e offset width, hd => by
    obtain ⟨he', hee⟩ := Expr.Defined.congr h (e := e) hd
    exact ⟨he', congrArg (APInt.extract · offset width) hee⟩
  | .cast kind src width, hd => by
    obtain ⟨he', hee⟩ := Expr.Defined.congr h (e := src) hd
    exact ⟨he', congrArg (kind.apply · width) hee⟩
  | .not e, hd => by
    obtain ⟨he', hee⟩ := Expr.Defined.congr h (e := e) hd
    exact ⟨he', congrArg APInt.complement hee⟩
  | .binary kind l r, hd => by
    obtain ⟨hl, hr, hne⟩ := hd
    obtain ⟨hl', hle⟩ := hl.congr h
    obtain ⟨hr', hre⟩ := hr.congr h
    exact ⟨⟨hl', hr', hre ▸ hne⟩, by simp only [Expr.eval, hle, hre]⟩
  | .cmp kind l r, hd => by
    obtain ⟨hl', hle⟩ := hd.1.congr h
    obtain ⟨hr', hre⟩ := hd.2.congr h
    exact ⟨⟨hl', hr'⟩, by simp only [Expr.eval, hle, hre]⟩

theorem UpdateNode.Defined.congr (h : AgreeInBounds m m') : ∀ {u : UpdateNode}, u.Defined m →
    u.Defined m' ∧ ∀ (initial : APInt) (i : Nat), u.lookup m initial i = u.lookup m' initial i
  | .nil, _ => ⟨trivial, fun _ _ => rfl⟩
  | .cons index value next, hd => by
    obtain ⟨hi, hv, hn⟩ := hd
    obtain ⟨hi', hie⟩ := hi.congr h
    obtain ⟨hv', hve⟩ := hv.congr h
    obtain ⟨hn', hne⟩ := hn.congr h
    exact ⟨⟨hi', hv', hn'⟩, fun initial i => by simp only [UpdateNode.lookup, hie, hve, hne]⟩

end

end Agree

mutual

theorem Expr.Buildable.indexed : ∀ {e : Expr}, e.Buildable → ∀ a ∈ e.roots, a.Indexed
  | .constant _, _, _, ha => by cases ha
  | .notOptimized src, h, a, ha => Expr.Buildable.indexed (e := src) h.1 a ha
  | .read root head index, h, a, ha => by
    rcases List.mem_append.mp ha with ha | ha
    · exact UpdateNode.indexed_of_mem_roots h.1 h.2.2 a ha
    · exact Expr.Buildable.indexed h.2.1 a ha
  | .select c t f, h, a, ha => by
    rcases List.mem_append.mp ha with ha | ha
    · exact Expr.Buildable.indexed h.1 a ha
    · rcases List.mem_append.mp ha with ha | ha
      · exact Expr.Buildable.indexed h.2.1 a ha
      · exact Expr.Buildable.indexed h.2.2.1 a ha
  | .concat l r, h, a, ha => by
    rcases List.mem_append.mp ha with ha | ha
    · exact Expr.Buildable.indexed h.2.1 a ha
    · exact Expr.Buildable.indexed h.1 a ha
  | .extract e _ _, h, a, ha => Expr.Buildable.indexed (e := e) h.1 a ha
  | .cast _ src _, h, a, ha => Expr.Buildable.indexed (e := src) h.1 a ha
  | .not e, h, a, ha => Expr.Buildable.indexed (e := e) h.1 a ha
  | .binary kind l r, h, a, ha => by
    rw [Expr.roots] at ha
    split at ha
    · rcases List.mem_append.mp ha with ha | ha
      · exact Expr.Buildable.indexed h.2.1 a ha
      · exact Expr.Buildable.indexed h.1 a ha
    · rcases List.mem_append.mp ha with ha | ha
      · exact Expr.Buildable.indexed h.1 a ha
      · exact Expr.Buildable.indexed h.2.1 a ha
  | .cmp _ l r, h, a, ha => by
    rcases List.mem_append.mp ha with ha | ha
    · exact Expr.Buildable.indexed h.1 a ha
    · exact Expr.Buildable.indexed h.2.1 a ha

theorem UpdateNode.indexed_of_mem_roots {root : ExprArray} : ∀ {u : UpdateNode}, u.ForallNodes Expr.BuildableNode →
    root.Indexed → ∀ a ∈ u.roots root, a.Indexed
  | .nil, _, hroot, a, ha => by
    obtain rfl : a = root := List.mem_singleton.mp ha
    exact hroot
  | .cons index value next, h, hroot, a, ha => by
    rcases List.mem_append.mp ha with ha | ha
    · exact UpdateNode.indexed_of_mem_roots h.2.2 hroot a ha
    · rcases List.mem_append.mp ha with ha | ha
      · exact Expr.Buildable.indexed h.1 a ha
      · exact Expr.Buildable.indexed h.2.1 a ha

end

def DistinctNames (table : List (ExprArray × String)) (roots : List ExprArray) : Prop :=
  ∀ p ∈ table, ∀ q ∈ table, p.1 ∈ roots → q.1 ∈ roots → p.2 = q.2 → p.1 = q.1

instance (table : List (ExprArray × String)) (roots : List ExprArray) : Decidable (DistinctNames table roots) := by
  unfold DistinctNames
  infer_instance

namespace BuilderState

variable {s : BuilderState} {roots : List ExprArray} {m : Valuation}

/-- The interpretation of the variables of these arrays: the contents of the array that has the variable. -/
def interpretation (s : BuilderState) (roots : List ExprArray) (m : Valuation) : Interpretation := fun name i =>
  match s.arrays.find? fun p => decide (p.1 ∈ roots ∧ p.2.name = name) with
  | some p => (p.1.contents m i).toNat
  | none => 0

theorem interpretation_eq (h : DistinctNames s.arrayNames roots) {p : ExprArray × ArrayTerm} (hp : p ∈ s.arrays)
    (hroot : p.1 ∈ roots) (i : Nat) : s.interpretation roots m p.2.name i = (p.1.contents m i).toNat := by
  unfold interpretation
  cases hfind : s.arrays.find? fun q => decide (q.1 ∈ roots ∧ q.2.name = p.2.name) with
  | none =>
    have hnot := List.find?_eq_none.mp hfind p hp
    simp [hroot] at hnot
  | some q =>
    have hq := List.find?_some hfind
    obtain ⟨hqroot, hqname⟩ := of_decide_eq_true hq
    have hqmem : q ∈ s.arrays := List.mem_of_find?_eq_some hfind
    have heq : q.1 = p.1 := h (q.1, q.2.name) (List.mem_map.mpr ⟨q, hqmem, rfl⟩) (p.1, p.2.name)
      (List.mem_map.mpr ⟨p, hp, rfl⟩) hqroot hroot hqname
    show (q.1.contents m i).toNat = _
    rw [heq]

theorem represents_interpretation (hs : s.Inv) (h : DistinctNames s.arrayNames roots) (m : Valuation) :
    s.Represents roots (s.interpretation roots m) m := by
  refine ⟨fun p hp hroot i hfree => ?_, fun p hp hroot u hu => ?_⟩
  · rw [interpretation_eq h hp hroot, ExprArray.contents_free hfree]
  · obtain ⟨t, ht, hholds⟩ := hs.assertions p hp
    exact hholds _ m (fun i => interpretation_eq h ht hroot i) u hu

def separate (m : Valuation) (a b : ExprArray) : Valuation := fun c i =>
  if i = a.size + b.size ∧ c = a then 1 else if i = a.size + b.size ∧ c = b then 0 else m c i

theorem agreeInBounds_separate (m : Valuation) (a b : ExprArray) : AgreeInBounds m (separate m a b) := by
  intro c i hi
  unfold separate
  by_cases ha : i = a.size + b.size ∧ c = a
  · obtain ⟨hia, rfl⟩ := ha
    omega
  · rw [if_neg ha]
    by_cases hb : i = a.size + b.size ∧ c = b
    · obtain ⟨hib, rfl⟩ := hb
      omega
    · rw [if_neg hb]

theorem not_represents_separate {p q : ExprArray × ArrayTerm} (hp : p ∈ s.arrays) (hq : q ∈ s.arrays)
    (hproot : p.1 ∈ roots) (hqroot : q.1 ∈ roots) (hname : p.2.name = q.2.name) (hne : p.1 ≠ q.1)
    (hrange : 0 < p.1.range) (env : Interpretation) : ¬ s.Represents roots env (separate m p.1 q.1) := by
  intro h
  have hone := h.contents p hp hproot (p.1.size + q.1.size) (.inr (by omega))
  have hzero := h.contents q hq hqroot (p.1.size + q.1.size) (.inr (by omega))
  unfold separate at hone hzero
  rw [if_pos ⟨rfl, rfl⟩] at hone
  rw [if_neg (fun hc => hne hc.2.symm), if_pos ⟨rfl, rfl⟩, ← hname, hone] at hzero
  have htwo : 1 < 2 ^ p.1.range := Nat.one_lt_two_pow (by omega)
  have hval : (1 : BitVec p.1.range).toNat = 1 := Nat.mod_eq_of_lt htwo
  rw [hval] at hzero
  simp at hzero

end BuilderState

/-- The states of a builder: it constructs terms for expressions of the smart constructors that are well formed and do
not divide by a constant zero, is asked for the variables of arrays, and its table of expressions can be cleared
(`clearConstructCache`). -/
inductive Backend.Reachable (b : Backend) (name : ExprArray → String) : BuilderState → Prop
  | empty : Backend.Reachable b name .empty
  | construct {s s' : BuilderState} {opt : Bool} {e : Expr} {r : Built} (hs : Backend.Reachable b name s)
      (hc : e.Created opt) (ht : e.WellTyped) (hb : e.Buildable) (hd : e.NonzeroDivisors)
      (h : b.construct name e s = some (r, s')) : Backend.Reachable b name s'
  | getInitialArray {s s' : BuilderState} {root : ExprArray} {t : ArrayTerm} (hs : Backend.Reachable b name s)
      (hroot : root.WellFormed) (hindexed : root.Indexed) (h : b.getInitialArray name root s = some (t, s')) :
      Backend.Reachable b name s'
  | clearConstructCache {s : BuilderState} (hs : Backend.Reachable b name s) :
      Backend.Reachable b name { s with constructed := [] }

namespace Backend

variable {b : Backend} {name : ExprArray → String} {s : BuilderState} {e : Expr}

theorem Reachable.inv (hb : b.Sound) (h : b.Reachable name s) : s.Inv := by
  induction h with
  | empty => exact .empty
  | construct hs hc ht hbuild hd hrun ih =>
    rename_i e _
    have hspec : BuildsTerm name (b.construct name e) e := construct_spec hb e ht hc.canonical hbuild hd
    obtain ⟨t, s', hrun', hinv, -, -⟩ := hspec _ ih
    rw [hrun] at hrun'
    obtain ⟨-, rfl⟩ := Prod.mk.inj (Option.some.inj hrun')
    exact hinv
  | getInitialArray hs hroot hindexed hrun ih =>
    rename_i root _
    have hspec : BuildsArray name (b.getInitialArray name root) root .nil := getInitialArray_builds hb hroot hindexed
    obtain ⟨t, s', hrun', hinv, -, -⟩ := hspec _ ih
    rw [hrun] at hrun'
    obtain ⟨-, rfl⟩ := Prod.mk.inj (Option.some.inj hrun')
    exact hinv
  | clearConstructCache hs ih =>
    rename_i s
    have hgrows : s.Grows name [] { s with constructed := [] } := .of_eq rfl rfl nofun
    exact ⟨fun p hp => (ih.arrays p hp).mono hgrows, fun p hp => (ih.nodes p hp).mono hgrows, nofun, ih.assertions⟩

end Backend

end CgsKlee
