import Mathlib.Tactic.Basic

/-!
# Computations with a state that can fail

Rules for programs of `StateT σ Option`.  `Yields inv T x Q` says three things about `x` in a state of the invariant:
that the invariant is kept, that what is returned satisfies `Q`, and that under the condition `T` something is returned.
-/

namespace OptionState

variable {σ α β : Type}

/-- From every state of the invariant `x` leads to one again and returns a value with `Q`; under `T` it returns. -/
def Yields (inv : σ → Prop) (T : Prop) (x : StateT σ Option α) (Q : α → Prop) : Prop :=
  ∀ s, inv s → (∀ a s', x s = some (a, s') → inv s' ∧ Q a) ∧ (T → ∃ r, x s = some r)

namespace Yields

variable {inv : σ → Prop} {T T' : Prop} {x : StateT σ Option α} {f : α → StateT σ Option β} {Q Q' : α → Prop}
  {R : β → Prop}

theorem pure {a : α} (h : Q a) : Yields inv T (pure a : StateT σ Option α) Q := by
  intro s hs
  refine ⟨fun a' s' hrun => ?_, fun _ => ⟨(a, s), rfl⟩⟩
  obtain ⟨rfl, rfl⟩ := Prod.mk.inj (Option.some.inj hrun)
  exact ⟨hs, h⟩

theorem lift {o : Option α} (h : ∀ a, o = some a → Q a) (ht : T → ∃ a, o = some a) :
    Yields inv T (fun s => o.map (·, s) : StateT σ Option α) Q := by
  intro s hs
  constructor
  · intro a s' hrun
    obtain ⟨a', ha, hpair⟩ := Option.map_eq_some_iff.mp hrun
    obtain ⟨rfl, rfl⟩ := Prod.mk.inj hpair
    exact ⟨hs, h a' ha⟩
  · intro hT
    obtain ⟨a, ha⟩ := ht hT
    exact ⟨(a, s), by rw [ha]; rfl⟩

theorem bind (hx : Yields inv T x Q) (hf : ∀ a, Q a → Yields inv T (f a) R) : Yields inv T (x >>= f) R := by
  intro s hs
  obtain ⟨hpost, hreturns⟩ := hx s hs
  constructor
  · intro b s' hrun
    obtain ⟨⟨a, s₁⟩, hrun₁, hrun₂⟩ := Option.bind_eq_some_iff.mp hrun
    obtain ⟨hs₁, ha⟩ := hpost a s₁ hrun₁
    exact (hf a ha s₁ hs₁).1 b s' hrun₂
  · intro hT
    obtain ⟨⟨a, s₁⟩, hrun₁⟩ := hreturns hT
    obtain ⟨hs₁, ha⟩ := hpost a s₁ hrun₁
    obtain ⟨r, hrun₂⟩ := (hf a ha s₁ hs₁).2 hT
    exact ⟨r, Option.bind_eq_some_iff.mpr ⟨(a, s₁), hrun₁, hrun₂⟩⟩

theorem mono (h : Yields inv T x Q) (ht : T' → T) (hq : ∀ a, Q a → Q' a) : Yields inv T' x Q' := by
  intro s hs
  obtain ⟨hpost, hreturns⟩ := h s hs
  refine ⟨fun a s' hrun => ?_, fun hT => hreturns (ht hT)⟩
  obtain ⟨hs', ha⟩ := hpost a s' hrun
  exact ⟨hs', hq a ha⟩

theorem weaken (h : Yields inv T x Q) (ht : T' → T) : Yields inv T' x Q := h.mono ht fun _ => id

end Yields

end OptionState
