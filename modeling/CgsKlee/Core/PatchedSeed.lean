import CgsKlee.Core.SeedPatch

/-!
# Patched seeds

The second loop of `patchSeed` goes over all bytes, so that the seed it leaves is a model of the constraints and the
condition.  The first loop leaves the other bytes alone, and the check after it asks only for the condition: a seed
that violates constraints between patched bytes and others is let through.
-/

namespace CgsKlee

/-- The constraints of a state, a condition and a seed: the constraints are satisfied by the seed and consistent with
the condition, nothing is undefined where all of them hold, and every array has a binding. -/
structure Patchable (constraints : ConstraintSet) (condition : Expr) (a : Assignment) : Prop where
  typed : ConstraintSet.Typed (constraints ++ [condition])
  domains : condition.ForallArrays fun array => array.domain = 32
  defined : ∀ m ∈ ConstraintSet.Models (constraints ++ [condition]), ∀ e ∈ constraints ++ [condition], e.Defined m
  consistent : (ConstraintSet.Models (constraints ++ [condition])).Nonempty
  full : a.Full
  bound : ∀ e ∈ constraints ++ [condition],
    e.ForallArrays fun array => array.isSymbolicArray = true → (a.find array).isSome = true
  satisfied : constraints.TrueAt a.valuation

/-- The check between the loops: `assignment.evaluate(condition)` may be true under the constraints of the state. -/
def PassesCheck (constraints : ConstraintSet) (condition : Expr) (a : Assignment) : Prop :=
  ∃ e, a.evaluateFree false condition = some e ∧ ∃ m ∈ constraints.Models, e.eval m = .ofBool true

namespace Patchable

variable {constraints : ConstraintSet} {condition : Expr} {a b b' : Assignment} {S : TimingSolver}
  {M M' : Set Valuation} {array : ExprArray} {i : Nat} (useVisitorHash rewriteEqualities : Bool)

theorem mem_allBytes : (array, i) ∈ a.allBytes ↔ (∃ values, (array, values) ∈ a.bindings) ∧ i < array.size := by
  unfold Assignment.allBytes
  simp only [List.mem_flatMap, List.mem_map, List.mem_range, Prod.mk.injEq, Prod.exists]
  constructor
  · rintro ⟨_, values, hmem, _, hi, rfl, rfl⟩
    exact ⟨⟨values, hmem⟩, hi⟩
  · rintro ⟨⟨values, hmem⟩, hi⟩
    exact ⟨array, values, hmem, i, hi, rfl, rfl⟩

theorem readable_allBytes (h : a.Full) : ∀ x ∈ a.allBytes, Readable x := by
  rintro ⟨array, i⟩ hx
  obtain ⟨⟨values, hmem⟩, hi⟩ := mem_allBytes.mp hx
  have harray := h.arrays _ hmem
  exact ⟨harray.wellFormed, harray.domain, hi⟩

theorem eq_of_allBytes (h : Patches M a.allBytes a M' b) (hne : M.Nonempty) (ha : a.Full)
    (hbounded : ∀ m ∈ M, m.Bounded) :
    ∃ m ∈ M, ∀ array, (a.find array).isSome = true → m array = b.valuation array := by
  obtain ⟨m, hm⟩ := h.nonempty hne
  refine ⟨m, h.subset hm, fun array hbound => ?_⟩
  funext i
  by_cases hi : i < array.size
  · obtain ⟨values, hf⟩ := Option.isSome_iff_exists.mp hbound
    have hmem : (array, i) ∈ a.allBytes := mem_allBytes.mpr ⟨⟨values, Assignment.mem_of_find hf⟩, hi⟩
    exact h.agrees hne hmem hbound m hm
  · rw [hbounded m (h.subset hm) array i (Nat.le_of_not_lt hi),
      (h.full ha).sized.bounded array i (Nat.le_of_not_lt hi)]

theorem trueAt_of_agree (h : Patchable constraints condition a) {m : Valuation}
    (hm : m ∈ ConstraintSet.Models (constraints ++ [condition]))
    (hagree : ∀ array, (a.find array).isSome = true → m array = b.valuation array) :
    ConstraintSet.TrueAt b.valuation (constraints ++ [condition]) := by
  intro e he
  rw [← hm.2 e he]
  refine (e.eval_congr (Expr.ForallArrays.mono ?_ e (h.bound e he))).symm
  intro array hbound hsym
  exact hagree array (hbound hsym)

theorem models_nonempty (h : Patchable constraints condition a) : constraints.Models.Nonempty := by
  obtain ⟨m, hm⟩ := h.consistent
  exact ⟨m, hm.1, (ConstraintSet.trueAt_append.mp hm.2).1⟩

theorem check (h : Patchable constraints condition a) (hb : b.Full) (hS : S.Exact) :
    ∃ e, b.evaluateFree false condition = some e ∧ e.eval b.valuation = condition.eval b.valuation ∧
      (S.mayBeTrue constraints e = true ↔ PassesCheck constraints condition b) := by
  obtain ⟨htyped, hcond⟩ := ConstraintSet.typed_append.mp h.typed
  obtain ⟨hwt, hw⟩ := ConstraintSet.typed_singleton.mp hcond
  obtain ⟨m, hm⟩ := h.consistent
  have hd := h.defined m hm condition (List.mem_append_right _ (List.mem_singleton_self _))
  have hshort : condition.ShortIndices := Expr.ForallArrays.mono (fun array hdom => hdom.le) condition h.domains
  obtain ⟨e, he, het, hew, hev⟩ := hb.evaluateFree_spec hwt hshort hd
  refine ⟨e, he, hev, ?_⟩
  rw [hS.mayBeTrue htyped h.models_nonempty het (hew.trans hw)]
  constructor
  · exact fun hmay => ⟨e, he, hmay⟩
  · rintro ⟨e', he', hmay⟩
    obtain rfl := Option.some.inj (he.symm.trans he')
    exact hmay

/-- The run of `patchSeed`: it ends after the first loop if the check is passed, and with a seed that satisfies the
constraints and the condition otherwise. -/
theorem patchSeed_spec (h : Patchable constraints condition a) (hS : S.Exact) :
    ∃ C₀ C₁ M b, C₀.Represents (ConstraintSet.Models (constraints ++ [condition])) ∧
      patchBytes false useVisitorHash rewriteEqualities S (C₀, a) condition.directReads = .ok (C₁, b) ∧
      Patches (ConstraintSet.Models (constraints ++ [condition])) condition.directReads a M b ∧
      (PassesCheck constraints condition b ∧
          patchSeed false useVisitorHash rewriteEqualities S constraints condition a = .ok b ∨
        ¬PassesCheck constraints condition b ∧
          ∃ b', patchSeed false useVisitorHash rewriteEqualities S constraints condition a = .ok b' ∧
            ConstraintSet.TrueAt b'.valuation (constraints ++ [condition])) := by
  obtain ⟨-, hcond⟩ := ConstraintSet.typed_append.mp h.typed
  obtain ⟨hwt, -⟩ := ConstraintSet.typed_singleton.mp hcond
  have hM : ∀ m, m ∈ ConstraintSet.Models (constraints ++ [condition]) ↔
      m ∈ constraints.Models ∧ condition.eval m = .ofBool true := by
    intro m
    simp only [ConstraintSet.Models, Set.mem_ofPred_eq, ConstraintSet.trueAt_append, ConstraintSet.trueAt_singleton,
      and_assoc]
  obtain ⟨C₀, hC₀, hrep₀⟩ := require_represents useVisitorHash rewriteEqualities h.typed hM
    (fun m hm e he => ⟨h.defined m hm e he, hm.2 e he⟩) h.consistent
  obtain ⟨m, hm⟩ := h.consistent
  have hd := h.defined m hm condition (List.mem_append_right _ (List.mem_singleton_self _))
  obtain ⟨C₁, M₁, b, hrun, hpatch, hrep₁⟩ := patchBytes_spec useVisitorHash rewriteEqualities hS hrep₀ ⟨m, hm⟩ h.full
    (Expr.readable_directReads hwt h.domains hd)
  have hb := hpatch.full h.full
  have hne₁ := hpatch.nonempty ⟨m, hm⟩
  refine ⟨C₀, C₁, M₁, b, hrep₀, hrun, hpatch, ?_⟩
  have hbind : ∀ {α β : Type} (x : α) (f : α → Except SeedFault β), (Except.ok x >>= f) = f x := fun _ _ => rfl
  obtain ⟨e, he, -, hmay⟩ := h.check hb hS
  by_cases hpass : PassesCheck constraints condition b
  · left
    refine ⟨hpass, ?_⟩
    simp only [patchSeed, hC₀, hbind, hrun, he, SeedFault.assert, if_pos (hmay.mpr hpass)]
    rfl
  · right
    refine ⟨hpass, ?_⟩
    -- the second loop
    obtain ⟨C₂, M₂, b', hrun', hpatch', -⟩ :=
      patchBytes_spec useVisitorHash rewriteEqualities hS hrep₁ hne₁ hb (readable_allBytes hb)
    have hb' := hpatch'.full hb
    have hbounded : ∀ m ∈ M₁, m.Bounded := fun m hm => (hpatch.subset hm).1
    obtain ⟨m', hm', hagree⟩ := eq_of_allBytes hpatch' hne₁ hb hbounded
    have htrue : ConstraintSet.TrueAt b'.valuation (constraints ++ [condition]) :=
      h.trueAt_of_agree (hpatch.subset hm') fun array hbound => hagree array ((hpatch.isSome_find array).trans hbound)
    obtain ⟨e', he', hev', hmay'⟩ := h.check hb' hS
    -- the last assertion
    have htrue' := ConstraintSet.trueAt_append.mp htrue
    have hpass' : PassesCheck constraints condition b' := by
      refine ⟨e', he', b'.valuation, ⟨hb'.sized.bounded, htrue'.1⟩, ?_⟩
      rw [hev']
      exact ConstraintSet.trueAt_singleton.mp htrue'.2
    refine ⟨b', ?_, htrue⟩
    simp only [patchSeed, hC₀, hbind, hrun, he, SeedFault.assert, if_neg (mt hmay.mp hpass), hrun', he',
      if_pos (hmay'.mpr hpass')]
    rfl

end Patchable

def seedByte (id : Nat) : ExprArray := ⟨id, 1, 32, 8, []⟩

def onlyByte (id : Nat) : Expr := .read (seedByte id) .nil (.ofNat 32 0)

def bytesEqual : Expr := .cmp .eq (onlyByte 0) (onlyByte 1)

def firstByteIsOne : Expr := .cmp .eq (.ofNat 8 1) (onlyByte 0)

def zeroSeed : Assignment := ⟨[(seedByte 0, [0]), (seedByte 1, [0])]⟩

theorem seedByte_isByteArray (id : Nat) : (seedByte id).IsByteArray :=
  ⟨⟨fun h => (by cases h), (by decide : 32 ≤ 64), (by decide : 1 ≤ 2 ^ 32)⟩, rfl, rfl, rfl⟩

theorem onlyByte_wellTyped (id : Nat) : (onlyByte id).WellTyped :=
  ⟨(seedByte_isByteArray id).wellFormed, trivial, trivial, rfl⟩

theorem onlyByte_defined (id : Nat) (m : Valuation) : (onlyByte id).Defined m :=
  ⟨trivial, trivial, (by decide : 0 < 1)⟩

theorem zeroSeed_full : zeroSeed.Full where
  nodup := by decide
  sized := by unfold Assignment.Sized; decide
  bytes := by decide
  arrays := by
    intro b hb
    rcases List.mem_pair.mp hb with rfl | rfl
    · exact seedByte_isByteArray 0
    · exact seedByte_isByteArray 1

theorem zeroSeed_patchable : Patchable [bytesEqual] firstByteIsOne zeroSeed where
  typed := by
    rintro e he
    rcases List.mem_pair.mp he with rfl | rfl
    · exact ⟨⟨onlyByte_wellTyped 0, onlyByte_wellTyped 1, rfl⟩, rfl⟩
    · exact ⟨⟨trivial, onlyByte_wellTyped 0, rfl⟩, rfl⟩
  domains := ⟨trivial, rfl, trivial, trivial⟩
  defined := by
    rintro m - e he
    rcases List.mem_pair.mp he with rfl | rfl
    · exact ⟨onlyByte_defined 0 m, onlyByte_defined 1 m⟩
    · exact ⟨trivial, onlyByte_defined 0 m⟩
  consistent := by
    refine ⟨(Assignment.mk [(seedByte 0, [1]), (seedByte 1, [1])]).valuation, Assignment.Sized.bounded ?_, ?_⟩
    · unfold Assignment.Sized
      decide
    · unfold ConstraintSet.TrueAt
      decide
  full := zeroSeed_full
  bound := by
    rintro e he
    have h0 : (onlyByte 0).ForallArrays fun array => array.isSymbolicArray = true →
        (zeroSeed.find array).isSome = true := ⟨fun _ => by decide, trivial, trivial⟩
    have h1 : (onlyByte 1).ForallArrays fun array => array.isSymbolicArray = true →
        (zeroSeed.find array).isSome = true := ⟨fun _ => by decide, trivial, trivial⟩
    rcases List.mem_pair.mp he with rfl | rfl
    · exact ⟨h0, h1⟩
    · exact ⟨trivial, h0⟩
  satisfied := by
    unfold ConstraintSet.TrueAt
    decide

theorem patches_zeroSeed {M : Set Valuation} {b : Assignment}
    (h : Patches (ConstraintSet.Models ([bytesEqual] ++ [firstByteIsOne])) firstByteIsOne.directReads zeroSeed M b) :
    b = zeroSeed.setByte (seedByte 0) 0 1 := by
  have hreads : firstByteIsOne.directReads = [(seedByte 0, 0)] := by decide
  have hone : ∀ m ∈ ConstraintSet.Models ([bytesEqual] ++ [firstByteIsOne]), m (seedByte 0) 0 = 1 := by
    intro m hm
    have hcond : APInt.ofBool (1 == m (seedByte 0) 0) = .ofBool true :=
      (APInt.rel₂_mk ..).symm.trans (hm.2 _ (.tail _ (.head _)))
    by_contra hne
    rw [beq_false_of_ne (Ne.symm hne)] at hcond
    exact absurd hcond (by decide)
  rw [hreads] at h
  cases h with
  | skip hf _ => exact absurd hf (by decide)
  | keep hf hm heq _ =>
    rw [hone _ hm] at heq
    exact absurd heq (by decide)
  | change hf hi hno hm hrest =>
    cases hrest
    rw [hone _ hm]
    rfl

end CgsKlee
