import Mathlib.Tactic.Basic

/-!
# Memo tables

A computation that keeps the values of a partial function `f` in a table.  If everything in the table is right, a
computation that `Computes` gives the value that it should, or fails where it should, and leaves a table that is right.
-/

namespace Memo

variable {κ ν α β : Type}

abbrev Table (κ ν : Type) := List (κ × ν)

abbrev MemoM (κ ν : Type) := StateT (Table κ ν) Option

def memoize [DecidableEq κ] (key : κ) (compute : MemoM κ ν ν) : MemoM κ ν ν := fun table =>
  match table.lookup key with
  | some value => some (value, table)
  | none => do
    let (value, table) ← compute table
    some (value, (key, value) :: table)

/-- A step that does not look at the table. -/
def lift (x : Option α) : MemoM κ ν α := fun table => x.map (·, table)

def Sound (f : κ → Option ν) (table : Table κ ν) : Prop := ∀ entry ∈ table, f entry.1 = some entry.2

/-- With a right table `x` gives what `o` is. -/
def Computes (f : κ → Option ν) (x : MemoM κ ν α) (o : Option α) : Prop :=
  ∀ table, Sound f table → match o with
    | some a => ∃ table', x table = some (a, table') ∧ Sound f table'
    | none => x table = none

theorem Sound.lookup [DecidableEq κ] {f : κ → Option ν} {key : κ} {value : ν} {table : Table κ ν} (h : Sound f table)
    (hlookup : table.lookup key = some value) : f key = some value := by
  induction table with
  | nil => cases hlookup
  | cons entry table ih =>
    rw [List.lookup_cons] at hlookup
    split at hlookup
    · rename_i hkey
      obtain rfl := Option.some.inj hlookup
      obtain rfl : key = entry.1 := by simpa using hkey
      exact h entry (.head _)
    · exact ih (fun entry hentry => h entry (.tail _ hentry)) hlookup

namespace Computes

variable {f : κ → Option ν} {x : MemoM κ ν α} {g : α → MemoM κ ν β} {o : Option α} {p : α → Option β}

theorem pure {a : α} : Computes f (pure a : MemoM κ ν α) (some a) := fun table htable => ⟨table, rfl, htable⟩

theorem lift : Computes f (Memo.lift o) o := by
  intro table htable
  cases o with
  | some a => exact ⟨table, rfl, htable⟩
  | none => rfl

theorem bind (hx : Computes f x o) (hg : ∀ a, o = some a → Computes f (g a) (p a)) :
    Computes f (x >>= g) (o >>= p) := by
  intro table htable
  have hrun := hx table htable
  cases o with
  | some a =>
    obtain ⟨table', hrun, htable'⟩ := hrun
    have hrest := hg a rfl table' htable'
    have heq : (x >>= g) table = g a table' := by
      change (x table).bind _ = _
      rw [hrun]
      rfl
    rw [heq]
    exact hrest
  | none =>
    change (x table).bind _ = none
    rw [hrun]
    rfl

theorem memoize [DecidableEq κ] {key : κ} {x : MemoM κ ν ν} (hx : Computes f x (f key)) :
    Computes f (memoize key x) (f key) := by
  intro table htable
  unfold Memo.memoize
  cases hlookup : table.lookup key with
  | some value =>
    rw [htable.lookup hlookup]
    exact ⟨table, rfl, htable⟩
  | none =>
    have hrun := hx table htable
    cases hf : f key with
    | some value =>
      rw [hf] at hrun
      obtain ⟨table', hrun, htable'⟩ := hrun
      refine ⟨(key, value) :: table', by simp [hrun], fun entry hentry => ?_⟩
      rcases List.mem_cons.mp hentry with rfl | hentry
      · exact hf
      · exact htable' entry hentry
    | none =>
      rw [hf] at hrun
      simp [hrun]

end Computes

end Memo
