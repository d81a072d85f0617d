import Mathlib.Tactic.Basic

/-!
# Programs that take steps and may fail

A program of `StepM σ ι` has a state, takes steps and may fail, as where an assertion does; the steps that it took
before it failed are known.  There are two kinds of facts about programs.  `Recovers ok x s Q` says of `x` in the state
`s` that it returns if and only if all of its steps are `ok`, and that `Q` holds then.  `KeepsInv good inv x Q` says that
`x` keeps the invariant `inv`, and that what it returns has `Q`, if all of its steps are `good`.
-/

/-- The steps of a program that starts in a state, and what it returns unless it fails. -/
def StepM (σ ι α : Type) : Type := σ → List ι × Option (α × σ)

namespace StepM

variable {σ ι α β : Type}

instance : Monad (StepM σ ι) where
  pure a := fun s => ([], some (a, s))
  bind x f := fun s =>
    match x s with
    | (steps, none) => (steps, none)
    | (steps, some (a, s')) =>
      match f a s' with
      | (steps', result) => (steps ++ steps', result)

def fail : StepM σ ι α := fun _ => ([], none)

def assert (p : Prop) [Decidable p] : StepM σ ι Unit := fun s => ([], if p then some ((), s) else none)

def get : StepM σ ι σ := fun s => ([], some (s, s))

def modify (f : σ → σ) : StepM σ ι Unit := fun s => ([], some ((), f s))

def lift (result : Option α) : StepM σ ι α := fun s => ([], result.map (·, s))

def call (i : ι) (result : Option α) : StepM σ ι α := fun s => ([i], result.map (·, s))

def check (i : ι) (p : Prop) [Decidable p] : StepM σ ι Unit := call i (if p then some () else none)

variable {ok good : ι → Prop} {inv : σ → Prop} {x : StepM σ ι α} {f : α → StepM σ ι β} {s s' : σ} {a : α}

theorem bind_of_none (h : (x s).2 = none) : (x >>= f) s = ((x s).1, none) := by
  obtain ⟨steps, result, hx⟩ : ∃ steps result, x s = (steps, result) := ⟨_, _, rfl⟩
  rw [hx] at h ⊢
  obtain rfl : result = none := h
  change (match x s with
    | (steps, none) => (steps, none)
    | (steps, some (a, s')) =>
      match f a s' with
      | (steps', result) => (steps ++ steps', result)) = _
  rw [hx]

theorem bind_of_some (h : (x s).2 = some (a, s')) : (x >>= f) s = ((x s).1 ++ (f a s').1, (f a s').2) := by
  obtain ⟨steps, result, hx⟩ : ∃ steps result, x s = (steps, result) := ⟨_, _, rfl⟩
  rw [hx] at h ⊢
  obtain rfl : result = some (a, s') := h
  change (match x s with
    | (steps, none) => (steps, none)
    | (steps, some (a, s')) =>
      match f a s' with
      | (steps', result) => (steps ++ steps', result)) = _
  rw [hx]

theorem run_bind (hx : x s = ([], some (a, s'))) : (x >>= f) s = f a s' := by
  rw [bind_of_some (congrArg Prod.snd hx), hx]
  rfl

theorem assert_run {p : Prop} [Decidable p] (h : p) : (assert p : StepM σ ι Unit) s = ([], some ((), s)) := by
  unfold assert
  rw [if_pos h]

theorem of_guard {p : Prop} [Decidable p] {a : Unit} (h : (if p then some () else none) = some a) : p := by
  by_cases hp : p
  · exact hp
  · rw [if_neg hp] at h
    cases h

theorem bind_eq_some {b : β} {s'' : σ} (h : ((x >>= f) s).2 = some (b, s'')) :
    ∃ a s', (x s).2 = some (a, s') ∧ (f a s').2 = some (b, s'') ∧ ((x >>= f) s).1 = (x s).1 ++ (f a s').1 := by
  cases hx : (x s).2 with
  | none =>
    rw [bind_of_none hx] at h
    cases h
  | some r =>
    rw [bind_of_some hx] at h
    exact ⟨r.1, r.2, rfl, h, congrArg Prod.fst (bind_of_some hx)⟩

/-- The program returns if and only if all steps are `ok`, and `Q` holds of what it returns. -/
structure Recovers (ok : ι → Prop) (x : StepM σ ι α) (s : σ) (Q : α → σ → Prop) : Prop where
  returns_iff : (x s).2.isSome = true ↔ ∀ i ∈ (x s).1, ok i
  post : ∀ a s', (x s).2 = some (a, s') → Q a s'

namespace Recovers

variable {Q Q' : α → σ → Prop} {R : β → σ → Prop}

theorem done (hx : x s = ([], some (a, s'))) (h : Q a s') : Recovers ok x s Q where
  returns_iff := by simp [hx]
  post := by
    intro _ _ hs
    rw [hx] at hs
    cases hs
    exact h

theorem pure (h : Q a s) : Recovers ok (pure a) s Q := done rfl h

theorem bind (hx : Recovers ok x s Q) (hf : ∀ a s', Q a s' → Recovers ok (f a) s' R) : Recovers ok (x >>= f) s R where
  returns_iff := by
    cases h : (x s).2 with
    | none =>
      have hfirst := hx.returns_iff
      rw [h] at hfirst
      rwa [bind_of_none h]
    | some r =>
      have hfirst := hx.returns_iff
      rw [h] at hfirst
      rw [bind_of_some h, (hf r.1 r.2 (hx.post _ _ h)).returns_iff]
      simp only [List.mem_append, or_imp, forall_and]
      exact (and_iff_right (hfirst.mp rfl)).symm
  post := by
    intro b s'' h
    obtain ⟨a, s', ha, hb, -⟩ := bind_eq_some h
    exact (hf a s' (hx.post _ _ ha)).post _ _ hb

theorem after (hx : x s = ([], some (a, s'))) (hf : Recovers ok (f a) s' R) : Recovers ok (x >>= f) s R :=
  bind (done (Q := fun a' s'' => a' = a ∧ s'' = s') hx ⟨rfl, rfl⟩) fun _ _ ⟨ha, hs⟩ => ha ▸ hs ▸ hf

theorem mono (h : Recovers ok x s Q) (hQ : ∀ a s', Q a s' → Q' a s') : Recovers ok x s Q' :=
  ⟨h.returns_iff, fun a s' hs => hQ a s' (h.post a s' hs)⟩

theorem call {i : ι} {result : Option α} (hi : result.isSome = true ↔ ok i) (h : ∀ a, result = some a → Q a s) :
    Recovers ok (call i result) s Q where
  returns_iff := by simpa [StepM.call] using hi
  post := by
    intro a s' hs
    obtain ⟨a', ha, hpair⟩ := Option.map_eq_some_iff.mp hs
    obtain ⟨rfl, rfl⟩ := Prod.mk.inj hpair
    exact h a' ha

theorem check {i : ι} {p : Prop} [Decidable p] {Q : Unit → σ → Prop} (hi : p ↔ ok i) (h : p → Q () s) :
    Recovers ok (check i p) s Q := by
  refine call ?_ fun _ ha => h (of_guard ha)
  rw [← hi]
  simp

end Recovers

/-- If all steps are `good`, the program keeps the invariant and returns what has `Q`. -/
def KeepsInv (good : ι → Prop) (inv : σ → Prop) (x : StepM σ ι α) (Q : α → Prop) : Prop :=
  ∀ s, inv s → ∀ a s', (x s).2 = some (a, s') → (∀ i ∈ (x s).1, good i) → inv s' ∧ Q a

namespace KeepsInv

variable {Q Q' : α → Prop} {R : β → Prop}

theorem pure (h : Q a) : KeepsInv good inv (pure a) Q := by
  rintro s hs _ _ ⟨⟩ -
  exact ⟨hs, h⟩

theorem fail : KeepsInv good inv (fail : StepM σ ι α) Q := fun _ _ _ _ h => nomatch h

theorem assert {p : Prop} [Decidable p] : KeepsInv good inv (assert p) fun _ => p := by
  intro s hs a s' h _
  by_cases hp : p
  · have hs' : some ((), s) = some (a, s') := (if_pos hp).symm.trans h
    cases hs'
    exact ⟨hs, hp⟩
  · exact nomatch (if_neg hp).symm.trans h

theorem get : KeepsInv good inv get inv := by
  rintro s hs _ _ ⟨⟩ -
  exact ⟨hs, hs⟩

theorem modify {g : σ → σ} (h : ∀ s, inv s → inv (g s)) : KeepsInv good inv (modify g) fun _ => True := by
  rintro s hs _ _ ⟨⟩ -
  exact ⟨h s hs, trivial⟩

theorem lift {result : Option α} (h : ∀ a, result = some a → Q a) : KeepsInv good inv (lift result) Q := by
  intro s hs a s' hrun _
  obtain ⟨a', ha, hpair⟩ := Option.map_eq_some_iff.mp hrun
  obtain ⟨rfl, rfl⟩ := Prod.mk.inj hpair
  exact ⟨hs, h a' ha⟩

theorem call {i : ι} {result : Option α} (h : ∀ a, good i → result = some a → Q a) :
    KeepsInv good inv (call i result) Q := by
  intro s hs a s' hrun hgood
  obtain ⟨a', ha, hpair⟩ := Option.map_eq_some_iff.mp hrun
  obtain ⟨rfl, rfl⟩ := Prod.mk.inj hpair
  exact ⟨hs, h a' (hgood i (List.mem_singleton_self i)) ha⟩

theorem check {i : ι} {p : Prop} [Decidable p] : KeepsInv good inv (check i p) fun _ => p := by
  exact call fun a _ ha => of_guard ha

theorem bind (hx : KeepsInv good inv x Q) (hf : ∀ a, Q a → KeepsInv good inv (f a) R) : KeepsInv good inv (x >>= f) R := by
  intro s hs b s'' h hgood
  obtain ⟨a, s', ha, hb, hsteps⟩ := bind_eq_some h
  rw [hsteps] at hgood
  obtain ⟨hs', hQ⟩ := hx s hs a s' ha fun i hi => hgood i (List.mem_append_left _ hi)
  exact hf a hQ s' hs' b s'' hb fun i hi => hgood i (List.mem_append_right _ hi)

theorem mono (h : KeepsInv good inv x Q) (hQ : ∀ a, Q a → Q' a) : KeepsInv good inv x Q' := by
  intro s hs a s' hrun hgood
  obtain ⟨hs', ha⟩ := h s hs a s' hrun hgood
  exact ⟨hs', hQ a ha⟩

end KeepsInv

end StepM
