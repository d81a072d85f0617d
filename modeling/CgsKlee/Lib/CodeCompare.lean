import Mathlib.Init

/-!
# Comparisons of codes

A comparison of two values in the order of some words of numbers that describe them, one after another, with a state
in between: a table of what is known to be equal, for example.  `Follows` says that it compares the words
lexicographically, whatever stands behind them, and finds only equal values equal.  Sequences of comparisons follow the
words put together.  So a comparison that follows words is a total order as the lexicographic one is.
-/

namespace CodeCompare

variable {σ : Type}

abbrev Comparing (σ : Type) : Type := σ → Option (Ordering × σ)

def done (o : Ordering) : Comparing σ := fun m => some (o, m)

/-- One comparison, and another one of what is equal so far. -/
def andThen (f g : Comparing σ) : Comparing σ := fun m => do
  match ← f m with
  | (.eq, m) => g m
  | r => some r

/-- The comparison keeps the invariant, compares the words, and `P` holds of what it finds equal. -/
def Follows (Inv : σ → Prop) (f : Comparing σ) (x y : List Nat) (P : Prop) : Prop :=
  ∀ m, Inv m → ∃ o m', f m = some (o, m') ∧ (∀ r s, compare (x ++ r) (y ++ s) = o.then (compare r s)) ∧
    (o = .eq → P) ∧ Inv m'

variable {Inv : σ → Prop} {f g : Comparing σ} {x y x' y' : List Nat} {P Q : Prop}

theorem compare_append_left (x r s : List Nat) : compare (x ++ r) (x ++ s) = compare r s := by
  induction x with
  | nil => rfl
  | cons n x ih => simp [ih]

theorem Follows.mono (h : Follows Inv f x y P) (hPQ : P → Q) : Follows Inv f x y Q := by
  intro m hm
  obtain ⟨o, m', hf, hcompare, hP, hm'⟩ := h m hm
  exact ⟨o, m', hf, hcompare, fun ho => hPQ (hP ho), hm'⟩

theorem Follows.refl (x : List Nat) (hP : P) : Follows Inv (done .eq) x x P :=
  fun m hm => ⟨.eq, m, rfl, compare_append_left x, fun _ => hP, hm⟩

theorem Follows.nat (Inv : σ → Prop) (n n' : Nat) : Follows Inv (done (compare n n')) [n] [n'] (n = n') :=
  fun m hm => ⟨compare n n', m, rfl, fun r s => by simp, fun ho => Std.LawfulEqOrd.eq_of_compare ho, hm⟩

def terminated (x : List Nat) : List Nat := x.map (· + 1) ++ [0]

theorem compare_terminated (x y r s : List Nat) :
    compare (terminated x ++ r) (terminated y ++ s) = (compare x y).then (compare r s) := by
  induction x generalizing y with
  | nil =>
    cases y with
    | nil => simp [terminated]
    | cons n' y =>
      have hlt : compare 0 (n' + 1) = .lt := Nat.compare_eq_lt.mpr (Nat.succ_pos n')
      simp [terminated, hlt]
  | cons n x ih =>
    cases y with
    | nil =>
      have hgt : compare (n + 1) 0 = .gt := Nat.compare_eq_gt.mpr (Nat.succ_pos n)
      simp [terminated, hgt]
    | cons n' y =>
      have hsucc : compare (n + 1) (n' + 1) = compare n n' := by
        simp only [Nat.compare_eq_ite_lt, Nat.add_lt_add_iff_right]
      have htail := ih y
      unfold terminated at htail ⊢
      rw [List.map_cons, List.map_cons, List.cons_append, List.cons_append, List.cons_append, List.cons_append,
        List.compare_cons_cons, List.compare_cons_cons, htail, hsucc, Ordering.then_assoc]

theorem Follows.string (Inv : σ → Prop) (x y : List Nat) :
    Follows Inv (done (compare x y)) (terminated x) (terminated y) (x = y) :=
  fun m hm => ⟨compare x y, m, rfl, compare_terminated x y, fun ho => Std.LawfulEqOrd.eq_of_compare ho, hm⟩

theorem Follows.andThen (hf : Follows Inv f x y P) (hg : P → Follows Inv g x' y' Q) :
    Follows Inv (andThen f g) (x ++ x') (y ++ y') (P ∧ Q) := by
  intro m hm
  obtain ⟨o, m', hfm, hcompare, hP, hm'⟩ := hf m hm
  unfold CodeCompare.andThen
  cases o with
  | eq =>
    obtain ⟨o, m'', hgm, hcompare', hQ, hm''⟩ := hg (hP rfl) m' hm'
    refine ⟨o, m'', by simp [hfm, hgm], fun r s => ?_, fun ho => ⟨hP rfl, hQ ho⟩, hm''⟩
    rw [List.append_assoc, List.append_assoc, hcompare, hcompare']
    rfl
  | lt =>
    refine ⟨.lt, m', by simp [hfm], fun r s => ?_, nofun, hm'⟩
    rw [List.append_assoc, List.append_assoc, hcompare]
    rfl
  | gt =>
    refine ⟨.gt, m', by simp [hfm], fun r s => ?_, nofun, hm'⟩
    rw [List.append_assoc, List.append_assoc, hcompare]
    rfl

theorem Follows.result (h : Follows Inv f x y P) {m : σ} (hm : Inv m) :
    ∃ m', f m = some (compare x y, m') ∧ (compare x y = .eq → P) ∧ Inv m' := by
  obtain ⟨o, m', hf, hcompare, hP, hm'⟩ := h m hm
  have ho := hcompare [] []
  rw [List.append_nil, List.append_nil] at ho
  have hthen : compare x y = o := by simpa using ho
  exact ⟨m', hthen ▸ hf, fun heq => hP (hthen ▸ heq), hm'⟩

end CodeCompare
