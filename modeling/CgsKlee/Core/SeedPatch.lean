import CgsKlee.Core.SeedInfo
import CgsKlee.Expr.ConstraintsAgree

/-!
# Patching bytes

The loops of `patchSeed` with an exact solver.  Every byte is kept if some model of the constraints has it, or else it
becomes the byte of a model, and the models that are left have the byte (`Patches`).  Any outcome of this kind is the
outcome of some exact solver (`patchBytes_favouring`).  The bytes that a condition reads directly are in bounds
(`Expr.readable_directReads`).
-/

namespace CgsKlee

/-- An array of bytes as `executeMakeSymbolic` creates it. -/
structure ExprArray.IsByteArray (array : ExprArray) : Prop where
  wellFormed : array.WellFormed
  symbolic : array.isSymbolicArray = true
  domain : array.domain = 32
  range : array.range = 8

theorem ExprArray.IsByteArray.toNat_lt {array : ExprArray} (h : array.IsByteArray) (x : BitVec array.range) :
    x.toNat < 256 := x.isLt.trans_le (by rw [h.range])

namespace Assignment

structure Full (a : Assignment) : Prop where
  nodup : (a.bindings.map Prod.fst).Nodup
  sized : a.Sized
  bytes : ∀ b ∈ a.bindings, ∀ v ∈ b.2, v < 256
  arrays : ∀ b ∈ a.bindings, b.1.IsByteArray

variable {a : Assignment} {array array' : ExprArray} {i j v : Nat} {values : List Nat}

theorem find_setByte : (a.setByte array i v).find array' =
    (a.find array').map fun values => if array' = array then values.set i v else values := by
  unfold find setByte
  rw [List.find?_map, Option.map_map, Option.map_map]
  have hkey : ((fun b : ExprArray × List Nat => decide (b.1 = array')) ∘ fun b =>
      if b.1 = array then (b.1, b.2.set i v) else b) = fun b => decide (b.1 = array') := by
    funext b
    simp only [Function.comp_apply]
    split <;> rfl
  rw [hkey]
  cases hf : a.bindings.find? fun b => decide (b.1 = array') with
  | none => rfl
  | some b =>
    have hb : b.1 = array' := by simpa using List.find?_some hf
    subst hb
    simp only [Option.map_some, Function.comp_apply, Option.some.injEq]
    split <;> rfl

theorem valuation_setByte_self (hf : a.find array = some values) (hi : i < values.length) :
    (a.setByte array i v).valuation array i = BitVec.ofNat array.range v := by
  unfold valuation
  rw [find_setByte, hf]
  simp [List.getD_eq_getElem?_getD, hi]

theorem valuation_setByte_of_ne (h : array' ≠ array ∨ j ≠ i) :
    (a.setByte array i v).valuation array' j = a.valuation array' j := by
  unfold valuation
  rw [find_setByte]
  cases a.find array' with
  | none => rfl
  | some bytes =>
    simp only [Option.map_some, Option.getD_some]
    split
    · rename_i harray
      have hne : j ≠ i := h.resolve_left (not_not.mpr harray)
      simp [List.getD_eq_getElem?_getD, List.getElem?_set_ne hne.symm]
    · rfl

namespace Full

theorem setByte (h : a.Full) (hv : v < 256) : (a.setByte array i v).Full where
  nodup := by
    have hkeys : (a.setByte array i v).bindings.map Prod.fst = a.bindings.map Prod.fst := by
      unfold Assignment.setByte
      rw [List.map_map]
      refine List.map_congr_left fun b _ => ?_
      simp only [Function.comp_apply]
      split <;> rfl
    rw [hkeys]
    exact h.nodup
  sized := by
    intro b hb
    obtain ⟨b, hmem, rfl⟩ := List.mem_map.mp hb
    have hlen := h.sized b hmem
    split
    · rwa [List.length_set]
    · exact hlen
  bytes := by
    intro b hb x hx
    obtain ⟨b, hmem, rfl⟩ := List.mem_map.mp hb
    split at hx
    · rcases List.mem_or_eq_of_mem_set hx with hx | rfl
      · exact h.bytes b hmem x hx
      · exact hv
    · exact h.bytes b hmem x hx
  arrays := by
    intro b hb
    obtain ⟨b, hmem, rfl⟩ := List.mem_map.mp hb
    have harray := h.arrays b hmem
    split <;> exact harray

theorem length_of_find (h : a.Full) (hf : a.find array = some values) : values.length = array.size :=
  h.sized _ (mem_of_find hf)

theorem isByteArray (h : a.Full) (hf : a.find array = some values) : array.IsByteArray := h.arrays _ (mem_of_find hf)

theorem toNat_valuation (h : a.Full) (hf : a.find array = some values) (hi : i < values.length) :
    (a.valuation array i).toNat = values[i] := by
  have hlt := h.bytes _ (mem_of_find hf) _ (List.getElem_mem hi)
  unfold valuation
  rw [hf, Option.getD_some, List.getD_eq_getElem?_getD, List.getElem?_eq_getElem hi, Option.getD_some,
    BitVec.toNat_ofNat, (h.isByteArray hf).range]
  exact Nat.mod_eq_of_lt hlt

end Full

end Assignment

namespace ConstraintSet

def Models (C : ConstraintSet) : Set Valuation := {m | m.Bounded ∧ C.TrueAt m}

structure Represents (C : ConstraintSet) (M : Set Valuation) : Prop where
  typed : C.Typed
  models : C.Models = M
  holds : ∀ m ∈ M, C.HoldsAt m

end ConstraintSet

structure TimingSolver.Exact (S : TimingSolver) : Prop where
  mustBeFalse : ∀ {C : ConstraintSet} {e : Expr}, C.Typed → C.Models.Nonempty → e.WellTyped → e.width = 1 →
    (S.mustBeFalse C e = true ↔ ∀ m ∈ C.Models, e.eval m = .ofBool false)
  mayBeTrue : ∀ {C : ConstraintSet} {e : Expr}, C.Typed → C.Models.Nonempty → e.WellTyped → e.width = 1 →
    (S.mayBeTrue C e = true ↔ ∃ m ∈ C.Models, e.eval m = .ofBool true)
  getValue : ∀ {C : ConstraintSet} {e : Expr}, C.Typed → C.Models.Nonempty → e.WellTyped →
    ∃ m ∈ C.Models, e.eval m = S.getValue C e

/-- The solver that knows all models and, for a value, prefers the one under `v`. -/
noncomputable def TimingSolver.favouring (v : Valuation) : TimingSolver :=
  open Classical in {
    mustBeFalse C e := decide (∀ m ∈ C.Models, e.eval m = .ofBool false)
    mayBeTrue C e := decide (∃ m ∈ C.Models, e.eval m = .ofBool true)
    getValue C e :=
      if ∃ m ∈ C.Models, e.eval m = e.eval v then e.eval v
      else if h : C.Models.Nonempty then e.eval h.some else .ofBool false }

theorem TimingSolver.favouring_getValue {v m : Valuation} {C : ConstraintSet} {e : Expr} (hm : m ∈ C.Models)
    (h : e.eval m = e.eval v) : (favouring v).getValue C e = e.eval v := if_pos ⟨m, hm, h⟩

theorem TimingSolver.favouring_exact (v : Valuation) : (favouring v).Exact where
  mustBeFalse _ _ _ _ := @decide_eq_true_iff _ (Classical.propDecidable _)
  mayBeTrue _ _ _ _ := @decide_eq_true_iff _ (Classical.propDecidable _)
  getValue := by
    intro C e _ hne _
    by_cases hv : ∃ m ∈ C.Models, e.eval m = e.eval v
    · obtain ⟨m, hm, heq⟩ := hv
      exact ⟨m, hm, heq.trans (favouring_getValue hm heq).symm⟩
    · have hval : (favouring v).getValue C e = e.eval hne.some := (if_neg hv).trans (dif_pos hne)
      exact ⟨hne.some, hne.some_mem, hval.symm⟩

section Bytes

variable {array : ExprArray} {i v : Nat} {C : ConstraintSet} {M : Set Valuation} {e : Expr}
  (useVisitorHash rewriteEqualities : Bool)

theorem require_represents (htyped : ConstraintSet.Typed (C ++ [e]))
    (hM : ∀ m, m ∈ M ↔ m ∈ C.Models ∧ e.eval m = .ofBool true)
    (hholds : ∀ m ∈ M, ConstraintSet.HoldsAt m (C ++ [e])) (hne : M.Nonempty) :
    ∃ C', require false useVisitorHash rewriteEqualities C e = .ok C' ∧ C'.Represents M := by
  obtain ⟨m₀, hm₀⟩ := hne
  obtain ⟨e', C', hC', href, hrep⟩ :=
    ConstraintManager.addConstraint_replaces false useVisitorHash rewriteEqualities htyped (hholds m₀ hm₀)
  have hagrees := ConstraintManager.addConstraint_agrees htyped hC'
  refine ⟨C', by rw [require, hC']; rfl, hagrees.typed, ?_, fun m hm => ?_⟩
  · ext m
    rw [hM]
    simp only [ConstraintSet.Models, Set.mem_ofPred_eq, hagrees.trueAt m trivial, ConstraintSet.trueAt_append,
      ConstraintSet.trueAt_singleton, and_assoc]
  · have hCe := ConstraintSet.holdsAt_append.mp (hholds m hm)
    have he' := ConstraintSet.holdsAt_singleton.mp hCe.2
    have htrue : ∀ x ∈ C, x.eval m = .ofBool true := fun x hx => (hCe.1 x hx).2
    refine hrep.holds m trivial (ConstraintSet.holdsAt_append.mpr ⟨hCe.1, ConstraintSet.holdsAt_singleton.mpr ?_⟩)
    exact ⟨href.defined m htrue he'.1, (href.eval m htrue fun _ => he'.1).trans he'.2⟩

theorem read_byte (h : array.IsByteArray) (hi : i < array.size) :
    ∃ read, ReadExpr.create false array .nil (.ofNat 32 i) = some read ∧ read.WellTyped ∧ read.width = 8 ∧
      ∀ m, read.Defined m ∧ read.eval m = ⟨array.range, m array i⟩ := by
  have hlt : i < 2 ^ 32 := h.domain ▸ hi.trans_le h.wellFormed.size_le
  have hindex : (APInt.ofNat 32 i).toNat = i := Nat.mod_eq_of_lt hlt
  have hwt : (Expr.read array .nil (.ofNat 32 i)).WellTyped := ⟨h.wellFormed, trivial, trivial, h.domain.symm⟩
  obtain ⟨read, hread, href⟩ := ReadExpr.create_builds false hwt
  refine ⟨read, hread, href.wellTyped, href.width.trans h.range, fun m => ⟨href.defined m ?_, ?_⟩⟩
  · refine ⟨trivial, trivial, ?_⟩
    rw [Expr.eval_ofNat, hindex]
    exact hi
  · rw [href.eval m nofun]
    simp only [Expr.eval, Expr.eval_ofNat, UpdateNode.lookup, ExprArray.initial, if_pos h.symbolic, hindex]

theorem byteIs_spec {read : Expr} (h : array.range = 8) (hwt : read.WellTyped) (hw : read.width = 8)
    (hread : ∀ m, read.Defined m ∧ read.eval m = ⟨array.range, m array i⟩) (hv : v < 256) :
    ∃ e, byteIs false read v = .ok e ∧ e.WellTyped ∧ e.width = 1 ∧
      ∀ m, e.Defined m ∧ e.eval m = .ofBool (decide ((m array i).toNat = v)) := by
  have hconst : (Expr.ofNat 8 v).WellTyped := trivial
  obtain ⟨e, he, href⟩ := EqExpr.create_builds false hwt hconst hw
  have hdefined : ∀ m, e.Defined m := fun m => href.defined m ⟨(hread m).1, (trivial : (Expr.ofNat 8 v).Defined m)⟩
  refine ⟨e, by rw [byteIs, he]; rfl, href.wellTyped, href.width, fun m => ⟨hdefined m, ?_⟩⟩
  rw [href.eval m nofun]
  simp only [Expr.eval, (hread m).2, Expr.eval_ofNat]
  have hval : (⟨array.range, m array i⟩ : APInt) = ⟨8, BitVec.ofNat 8 (m array i).toNat⟩ :=
    APInt.ext_toNat h (Nat.mod_eq_of_lt (h ▸ (m array i).isLt)).symm
  have hlt : (m array i).toNat < 2 ^ 8 := h ▸ (m array i).isLt
  rw [hval, APInt.ofNat, APInt.rel₂_mk, CmpKind.apply]
  congr 1
  rw [Bool.eq_iff_iff, beq_iff_eq, decide_eq_true_iff, ← BitVec.toNat_inj, BitVec.toNat_ofNat, BitVec.toNat_ofNat,
    Nat.mod_eq_of_lt hlt, Nat.mod_eq_of_lt hv]

theorem require_byte {m₀ : Valuation} (hC : C.Represents M) (he : e.WellTyped) (hw : e.width = 1) (hm₀ : m₀ ∈ M)
    (hbyte : ∀ m, e.Defined m ∧ e.eval m = .ofBool (decide ((m array i).toNat = (m₀ array i).toNat))) :
    ∃ C', require false useVisitorHash rewriteEqualities C e = .ok C' ∧
      C'.Represents {m ∈ M | m array i = m₀ array i} := by
  have htrue : ∀ m, e.eval m = .ofBool true ↔ m array i = m₀ array i := by
    intro m
    rw [(hbyte m).2, ← BitVec.toNat_inj]
    by_cases heq : (m array i).toNat = (m₀ array i).toNat <;> simp [heq, APInt.ofBool]
  have htyped := ConstraintSet.typed_append.mpr ⟨hC.typed, ConstraintSet.typed_singleton.mpr ⟨he, hw⟩⟩
  refine require_represents useVisitorHash rewriteEqualities htyped (fun m => ?_) (fun m hm => ?_) ⟨m₀, hm₀, rfl⟩
  · rw [hC.models, htrue]
    rfl
  · refine ConstraintSet.holdsAt_append.mpr ⟨hC.holds m hm.1, ConstraintSet.holdsAt_singleton.mpr ?_⟩
    exact ⟨(hbyte m).1, (htrue m).mpr hm.2⟩

end Bytes

/-- What a loop over some bytes makes of an assignment and of the models of the constraints: a byte is kept if a model
has it, or else it becomes the byte of some model. -/
inductive Patches : Set Valuation → List (ExprArray × Nat) → Assignment → Set Valuation → Assignment → Prop
  | nil {M : Set Valuation} {a : Assignment} : Patches M [] a M a
  | skip {M M' : Set Valuation} {a b : Assignment} {array : ExprArray} {i : Nat} {bytes : List (ExprArray × Nat)} :
    a.find array = none → Patches M bytes a M' b → Patches M ((array, i) :: bytes) a M' b
  | keep {M M' : Set Valuation} {a b : Assignment} {array : ExprArray} {i : Nat} {bytes : List (ExprArray × Nat)}
      {values : List Nat} {m : Valuation} :
    a.find array = some values → m ∈ M → m array i = a.valuation array i →
      Patches {m' ∈ M | m' array i = m array i} bytes a M' b → Patches M ((array, i) :: bytes) a M' b
  | change {M M' : Set Valuation} {a b : Assignment} {array : ExprArray} {i : Nat} {bytes : List (ExprArray × Nat)}
      {values : List Nat} {m : Valuation} :
    a.find array = some values → i < values.length → (∀ m' ∈ M, m' array i ≠ a.valuation array i) → m ∈ M →
      Patches {m' ∈ M | m' array i = m array i} bytes (a.setByte array i (m array i).toNat) M' b →
      Patches M ((array, i) :: bytes) a M' b

namespace Patches

variable {M M' : Set Valuation} {a b : Assignment} {bytes : List (ExprArray × Nat)} {array : ExprArray} {i : Nat}

theorem subset (h : Patches M bytes a M' b) : M' ⊆ M := by
  induction h with
  | nil => exact subset_rfl
  | skip _ _ ih => exact ih
  | keep _ _ _ _ ih | change _ _ _ _ _ ih => exact ih.trans (Set.sep_subset _ _)

theorem nonempty (h : Patches M bytes a M' b) (hne : M.Nonempty) : M'.Nonempty := by
  induction h with
  | nil => exact hne
  | skip _ _ ih => exact ih hne
  | keep _ hm _ _ ih | change _ _ _ hm _ ih => exact ih ⟨_, hm, rfl⟩

theorem isSome_find (h : Patches M bytes a M' b) (array : ExprArray) :
    (b.find array).isSome = (a.find array).isSome := by
  induction h with
  | nil => rfl
  | skip _ _ ih | keep _ _ _ _ ih => exact ih
  | change _ _ _ _ _ ih => rw [ih, Assignment.find_setByte, Option.isSome_map]

theorem full (h : Patches M bytes a M' b) (ha : a.Full) : b.Full := by
  induction h with
  | nil => exact ha
  | skip _ _ ih | keep _ _ _ _ ih => exact ih ha
  | @change _ _ a _ array i _ _ m hf _ _ _ _ ih =>
    exact ih (ha.setByte ((ha.isByteArray hf).toNat_lt _))

theorem valuation_patched {values : List Nat} {m : Valuation} (hf : a.find array = some values)
    (hi : i < values.length) : (a.setByte array i (m array i).toNat).valuation array i = m array i := by
  rw [Assignment.valuation_setByte_self hf hi, BitVec.ofNat_toNat, BitVec.setWidth_eq]

theorem keeps (h : Patches M bytes a M' b) (hne : M.Nonempty) (hall : ∀ m ∈ M, m array i = a.valuation array i) :
    ∀ m ∈ M', m array i = b.valuation array i := by
  induction h with
  | nil => exact hall
  | skip _ _ ih => exact ih hne hall
  | keep _ hm _ _ ih => exact ih ⟨_, hm, rfl⟩ fun m hm => hall m hm.1
  | @change _ _ a _ array' j _ _ m hf hj hno hm _ ih =>
    refine ih ⟨_, hm, rfl⟩ fun m' hm' => ?_
    -- the byte is another one, as a model has the old one
    have hother : array ≠ array' ∨ i ≠ j := by
      by_contra heq
      rw [not_or, not_not, not_not] at heq
      obtain ⟨rfl, rfl⟩ := heq
      exact hno m hm (hall m hm)
    rw [Assignment.valuation_setByte_of_ne hother]
    exact hall m' hm'.1

theorem agrees (h : Patches M bytes a M' b) (hne : M.Nonempty) {x : ExprArray × Nat} (hx : x ∈ bytes)
    (hbound : (a.find x.1).isSome = true) : ∀ m ∈ M', m x.1 x.2 = b.valuation x.1 x.2 := by
  induction h with
  | nil => cases hx
  | skip hf _ ih =>
    rcases List.mem_cons.mp hx with rfl | hx
    · rw [hf] at hbound
      cases hbound
    · exact ih hne hx hbound
  | keep _ hm heq hrest ih =>
    rcases List.mem_cons.mp hx with rfl | hx
    · exact hrest.keeps ⟨_, hm, rfl⟩ fun m' hm' => hm'.2.trans heq
    · exact ih ⟨_, hm, rfl⟩ hx hbound
  | change hf hi _ hm hrest ih =>
    rcases List.mem_cons.mp hx with rfl | hx
    · refine hrest.keeps ⟨_, hm, rfl⟩ fun m' hm' => hm'.2.trans ?_
      exact (valuation_patched hf hi).symm
    · refine ih ⟨_, hm, rfl⟩ hx ?_
      rwa [Assignment.find_setByte, Option.isSome_map]

end Patches

section Loop

variable {S : TimingSolver} {C : ConstraintSet} {M M' : Set Valuation} {a b : Assignment} {array : ExprArray} {i : Nat}
  {values : List Nat} {bytes : List (ExprArray × Nat)} (useVisitorHash rewriteEqualities : Bool)

/-- A byte is kept, or it becomes that of a model; the favouring solver chooses the byte that it favours, if a model
has it. -/
theorem patchByte_spec (hS : S.Exact) (hC : C.Represents M) (hne : M.Nonempty) (ha : a.Full)
    (hf : a.find array = some values) (hi : i < array.size) :
    (∃ C' m, patchByte false useVisitorHash rewriteEqualities S (C, a) (array, i) = .ok (C', a) ∧ m ∈ M ∧
      m array i = a.valuation array i ∧ C'.Represents {m' ∈ M | m' array i = m array i}) ∨
    ∃ C' m, patchByte false useVisitorHash rewriteEqualities S (C, a) (array, i) =
        .ok (C', a.setByte array i (m array i).toNat) ∧ m ∈ M ∧ (∀ m' ∈ M, m' array i ≠ a.valuation array i) ∧
      C'.Represents {m' ∈ M | m' array i = m array i} ∧
      ∀ v, S = .favouring v → (∃ m' ∈ M, m' array i = v array i) → m array i = v array i := by
  have harray := ha.isByteArray hf
  have hlen : i < values.length := (ha.length_of_find hf).symm ▸ hi
  have hseed := ha.toNat_valuation hf hlen
  obtain ⟨read, hread, hwt, hw, hbyte⟩ := read_byte harray hi
  have hlt : values[i] < 256 := hseed ▸ harray.toNat_lt _
  obtain ⟨isSeed, hisSeed, hst, hsw, hsv⟩ := byteIs_spec harray.range hwt hw hbyte hlt
  have hmodels : C.Models.Nonempty := hC.models.symm ▸ hne
  have hfalse := hS.mustBeFalse hC.typed hmodels hst hsw
  have hbind : ∀ {α β : Type} (x : α) (f : α → Except SeedFault β), (Except.ok x >>= f) = f x := fun _ _ => rfl
  by_cases hall : ∀ m ∈ M, m array i ≠ a.valuation array i
  · -- no model has the byte
    right
    obtain ⟨m, hm, hvalue⟩ := hS.getValue hC.typed hmodels hwt
    rw [(hbyte m).2] at hvalue
    have hmust : S.mustBeFalse C isSeed = true := by
      refine hfalse.mpr fun m hm => ?_
      rw [(hsv m).2, ← hseed]
      congr 1
      rw [decide_eq_false_iff_not, BitVec.toNat_inj]
      exact hall m (hC.models ▸ hm)
    obtain ⟨isValue, hisValue, hvt, hvw, hvv⟩ := byteIs_spec harray.range hwt hw hbyte (harray.toNat_lt (m array i))
    obtain ⟨C', hC', hrep⟩ :=
      require_byte useVisitorHash rewriteEqualities hC hvt hvw (hC.models ▸ hm) hvv
    refine ⟨C', m, ?_, hC.models ▸ hm, hall, hrep, ?_⟩
    · have hwidth : (S.getValue C read).width ≤ 8 := by rw [← hvalue]; exact harray.range.le
      have htoNat : (S.getValue C read).toNat = (m array i).toNat := by rw [← hvalue]; rfl
      simp only [patchByte, hread, SeedFault.assert, hbind, hf, List.getElem?_eq_getElem hlen, hisSeed, hmust,
        if_pos, hwidth, htoNat, hisValue, hC']
      rfl
    · rintro v rfl ⟨m', hm', heq⟩
      have hread' : read.eval m' = read.eval v := by rw [(hbyte m').2, (hbyte v).2, heq]
      rw [TimingSolver.favouring_getValue (hC.models.symm ▸ hm') hread', (hbyte v).2] at hvalue
      simpa using hvalue
  · -- the byte stays
    left
    obtain ⟨m, hm, hvalue⟩ : ∃ m ∈ M, m array i = a.valuation array i := by
      simpa only [not_forall, not_not, exists_prop] using hall
    have hmust : S.mustBeFalse C isSeed = false := by
      rw [Bool.eq_false_iff, ne_eq, hfalse]
      intro hno
      have hm' := hno m (hC.models.symm ▸ hm)
      rw [(hsv m).2, ← hseed, hvalue, decide_eq_true rfl] at hm'
      exact absurd hm' (by decide)
    have hsv' : ∀ m', isSeed.Defined m' ∧
        isSeed.eval m' = .ofBool (decide ((m' array i).toNat = (m array i).toNat)) := by
      rw [hvalue, hseed]
      exact hsv
    obtain ⟨C', hC', hrep⟩ := require_byte useVisitorHash rewriteEqualities hC hst hsw hm hsv'
    refine ⟨C', m, ?_, hm, hvalue, hrep⟩
    simp only [patchByte, hread, SeedFault.assert, hbind, hf, List.getElem?_eq_getElem hlen, hisSeed, hmust, hC']
    rfl

structure Readable (x : ExprArray × Nat) : Prop where
  wellFormed : x.1.WellFormed
  domain : x.1.domain = 32
  lt_size : x.2 < x.1.size

theorem patchByte_skip (hf : a.find array = none) (hi : Readable (array, i)) :
    patchByte false useVisitorHash rewriteEqualities S (C, a) (array, i) = .ok (C, a) := by
  have hwt : (Expr.read array .nil (.ofNat 32 i)).WellTyped := ⟨hi.wellFormed, trivial, trivial, hi.domain.symm⟩
  obtain ⟨read, hread, -⟩ := ReadExpr.create_builds false hwt
  simp only [patchByte, hread, SeedFault.assert, hf]
  rfl

theorem patchBytes_cons {s : ConstraintSet × Assignment} {x : ExprArray × Nat} {C' : ConstraintSet}
    (h : patchByte false useVisitorHash rewriteEqualities S s x = .ok (C', a)) :
    patchBytes false useVisitorHash rewriteEqualities S s (x :: bytes) =
      patchBytes false useVisitorHash rewriteEqualities S (C', a) bytes := by
  unfold patchBytes
  rw [List.foldlM_cons, h]
  rfl

theorem patchBytes_spec (hS : S.Exact) (hC : C.Represents M) (hne : M.Nonempty) (ha : a.Full)
    (hbytes : ∀ x ∈ bytes, Readable x) :
    ∃ C' M' b, patchBytes false useVisitorHash rewriteEqualities S (C, a) bytes = .ok (C', b) ∧
      Patches M bytes a M' b ∧ C'.Represents M' := by
  induction bytes generalizing C M a with
  | nil => exact ⟨C, M, a, rfl, .nil, hC⟩
  | cons x bytes ih =>
    obtain ⟨array, i⟩ := x
    obtain ⟨hx, hbytes⟩ := List.forall_mem_cons.mp hbytes
    cases hf : a.find array with
    | none =>
      obtain ⟨C', M', b, hrun, hpatch, hrep⟩ := ih hC hne ha hbytes
      refine ⟨C', M', b, ?_, .skip hf hpatch, hrep⟩
      rw [patchBytes_cons _ _ (patchByte_skip _ _ hf hx), hrun]
    | some values =>
      have hlen : i < values.length := (ha.length_of_find hf).symm ▸ hx.lt_size
      rcases patchByte_spec useVisitorHash rewriteEqualities hS hC hne ha hf hx.lt_size with
        ⟨C₁, m, hstep, hm, heq, hrep₁⟩ | ⟨C₁, m, hstep, hm, hno, hrep₁, -⟩
      · obtain ⟨C', M', b, hrun, hpatch, hrep⟩ := ih hrep₁ ⟨m, hm, rfl⟩ ha hbytes
        exact ⟨C', M', b, by rw [patchBytes_cons _ _ hstep, hrun], .keep hf hm heq hpatch, hrep⟩
      · have ha' : (a.setByte array i (m array i).toNat).Full := ha.setByte ((ha.isByteArray hf).toNat_lt _)
        obtain ⟨C', M', b, hrun, hpatch, hrep⟩ := ih hrep₁ ⟨m, hm, rfl⟩ ha' hbytes
        exact ⟨C', M', b, by rw [patchBytes_cons _ _ hstep, hrun], .change hf hlen hno hm hpatch, hrep⟩

theorem patchBytes_favouring (hpatch : Patches M bytes a M' b) (hC : C.Represents M) (hne : M.Nonempty)
    (ha : a.Full) (hbytes : ∀ x ∈ bytes, Readable x) :
    ∃ C', patchBytes false useVisitorHash rewriteEqualities (.favouring b.valuation) (C, a) bytes = .ok (C', b) := by
  induction hpatch generalizing C with
  | nil => exact ⟨C, rfl⟩
  | skip hf _ ih =>
    obtain ⟨hx, hbytes⟩ := List.forall_mem_cons.mp hbytes
    obtain ⟨C', hrun⟩ := ih hC hne ha hbytes
    exact ⟨C', by rw [patchBytes_cons _ _ (patchByte_skip _ _ hf hx), hrun]⟩
  | @keep M _ a b array i _ _ m hf hm heq _ ih =>
    obtain ⟨hx, hbytes⟩ := List.forall_mem_cons.mp hbytes
    rcases patchByte_spec useVisitorHash rewriteEqualities (TimingSolver.favouring_exact b.valuation) hC hne ha hf
      hx.lt_size with ⟨C₁, m₁, hstep, -, heq₁, hrep₁⟩ | ⟨_, _, -, -, hno, -⟩
    · rw [heq₁, ← heq] at hrep₁
      obtain ⟨C', hrun⟩ := ih hrep₁ ⟨m, hm, rfl⟩ ha hbytes
      exact ⟨C', by rw [patchBytes_cons _ _ hstep, hrun]⟩
    · exact absurd heq (hno m hm)
  | @change M _ a b array i _ _ m hf hi hno hm hrest ih =>
    obtain ⟨hx, hbytes⟩ := List.forall_mem_cons.mp hbytes
    -- the byte of `b` is the one that was chosen
    have hchosen : m array i = b.valuation array i := by
      obtain ⟨m', hm'⟩ := hrest.nonempty ⟨m, hm, rfl⟩
      have hkeeps := hrest.keeps ⟨m, hm, rfl⟩ fun m' hm' => hm'.2.trans (Patches.valuation_patched hf hi).symm
      exact (hrest.subset hm').2.symm.trans (hkeeps m' hm')
    rcases patchByte_spec useVisitorHash rewriteEqualities (TimingSolver.favouring_exact b.valuation) hC hne ha hf
      hx.lt_size with ⟨_, m₁, -, hm₁, heq₁, -⟩ | ⟨C₁, m₁, hstep, -, -, hrep₁, hfavour⟩
    · exact absurd heq₁ (hno m₁ hm₁)
    · have hsame : m₁ array i = m array i := (hfavour _ rfl ⟨m, hm, hchosen⟩).trans hchosen.symm
      rw [hsame] at hstep hrep₁
      have ha' : (a.setByte array i (m array i).toNat).Full := ha.setByte ((ha.isByteArray hf).toNat_lt _)
      obtain ⟨C', hrun⟩ := ih hrep₁ ⟨m, hm, rfl⟩ ha' hbytes
      exact ⟨C', by rw [patchBytes_cons _ _ hstep, hrun]⟩

end Loop

namespace Assignment

variable {a : Assignment} {e : Expr} {m₀ : Valuation}

theorem freeByte_initialSome : ExprEvaluator.InitialSome (a.freeByte false) := by
  intro root index hroot hlt
  have hread : (ReadExpr.create false root .nil (.ofNat root.domain index)).isSome = true := by
    obtain ⟨e, he, -⟩ := ReadExpr.create_builds false
      (⟨hroot, trivial, trivial, rfl⟩ : (Expr.read root .nil (.ofNat root.domain index)).WellTyped)
    exact he ▸ rfl
  unfold freeByte
  split
  · split
    · rfl
    · exact hread
  · exact hread

theorem Full.initialRefines (h : a.Full) :
    ExprEvaluator.InitialRefines false (· = a.valuation) (a.freeByte false) := by
  intro root index e' hroot _ hlt _ he'
  have hread : ReadExpr.create false root .nil (.ofNat root.domain index) = some e' →
      (Expr.read root .nil (.ofNat root.domain index)).RefinesOn false (· = a.valuation) e' := by
    intro hcreate
    obtain ⟨e, he, href⟩ := ReadExpr.create_builds false
      (⟨hroot, trivial, trivial, rfl⟩ : (Expr.read root .nil (.ofNat root.domain index)).WellTyped)
    obtain rfl := Option.some.inj (he.symm.trans hcreate)
    exact href.refinesOn
  unfold freeByte at he'
  split at he'
  · rename_i bytes hf
    split at he'
    · rename_i hindex
      obtain rfl := Option.some.inj he'
      refine ⟨trivial, rfl, fun _ _ _ => trivial, ?_⟩
      rintro m rfl -
      have hmod : (APInt.ofNat root.domain index).toNat = index := Nat.mod_eq_of_lt hlt
      simp only [Expr.eval, Expr.eval_ofNat, UpdateNode.lookup, ExprArray.initial,
        if_pos (h.isByteArray hf).symbolic, hmod, valuation, hf, Option.getD_some]
      simp [APInt.ofNat, List.getD_eq_getElem?_getD, hindex]
    · exact hread he'
  · exact hread he'

theorem Full.evaluateFree_spec (h : a.Full) (he : e.WellTyped) (hs : e.ShortIndices) (hd : e.Defined m₀) :
    ∃ e', a.evaluateFree false e = some e' ∧ e'.WellTyped ∧ e'.width = e.width ∧
      e'.eval a.valuation = e.eval a.valuation := by
  obtain ⟨e', he'⟩ := ExprEvaluator.visit_some h.initialRefines freeByte_initialSome he hs hd
  have href := ExprEvaluator.visit_refinesOn h.initialRefines he hs he'
  exact ⟨e', he', href.wellTyped, href.width, href.eval _ rfl nofun⟩

end Assignment

theorem Expr.readable_topReads {m : Valuation} : ∀ {e : Expr}, e.WellTyped →
    e.ForallArrays (fun array => array.domain = 32) → e.Defined m → ∀ re ∈ e.topReads,
    re.root.WellFormed ∧ re.root.domain = 32 ∧ (re.index.eval m).toNat < re.root.size
  | .constant _, _, _, _ => nofun
  | .notOptimized src, h, ha, hd => Expr.readable_topReads (e := src) h ha hd
  | .read root head index, h, ha, hd => by
    rw [topReads, List.forall_mem_cons]
    exact ⟨⟨h.1, ha.1, hd.2.2⟩, Expr.readable_topReads h.2.2.1 ha.2.2 hd.2.1⟩
  | .select c t f, h, ha, hd => by
    rw [topReads, List.forall_mem_append, List.forall_mem_append]
    exact ⟨Expr.readable_topReads h.1 ha.1 hd.1, Expr.readable_topReads h.2.1 ha.2.1 hd.2.1,
      Expr.readable_topReads h.2.2.1 ha.2.2 hd.2.2⟩
  | .concat l r, h, ha, hd => by
    rw [topReads, List.forall_mem_append]
    exact ⟨Expr.readable_topReads h.1 ha.1 hd.1, Expr.readable_topReads h.2 ha.2 hd.2⟩
  | .extract e _ _, h, ha, hd => Expr.readable_topReads (e := e) h.1 ha hd
  | .cast _ e _, h, ha, hd => Expr.readable_topReads (e := e) h.1 ha hd
  | .not e, h, ha, hd => Expr.readable_topReads (e := e) h ha hd
  | .binary _ l r, h, ha, hd => by
    rw [topReads, List.forall_mem_append]
    exact ⟨Expr.readable_topReads h.1 ha.1 hd.1, Expr.readable_topReads h.2.1 ha.2 hd.2.1⟩
  | .cmp _ l r, h, ha, hd => by
    rw [topReads, List.forall_mem_append]
    exact ⟨Expr.readable_topReads h.1 ha.1 hd.1, Expr.readable_topReads h.2.1 ha.2 hd.2⟩

theorem Expr.mem_directReads {condition : Expr} {x : ExprArray × Nat} :
    x ∈ condition.directReads ↔ ∃ re ∈ condition.topReads, re.byte? = some x := by
  have hfold : ∀ (xs reads : List (ExprArray × Nat)), x ∈ xs.foldl
      (fun reads x => if x ∈ reads then reads else reads.orderedInsert (byteLe · ·) x) reads ↔ x ∈ reads ∨ x ∈ xs := by
    intro xs
    induction xs with
    | nil => simp
    | cons y xs ih =>
      intro reads
      rw [List.foldl_cons, ih, List.mem_cons]
      split
      · rename_i hy
        constructor
        · rintro (h | h)
          · exact Or.inl h
          · exact Or.inr (Or.inr h)
        · rintro (h | rfl | h)
          · exact Or.inl h
          · exact Or.inl hy
          · exact Or.inr h
      · rw [List.mem_orderedInsert]
        tauto
  unfold directReads
  rw [hfold, List.mem_filterMap]
  simp

theorem Expr.readable_directReads {m : Valuation} {condition : Expr} (h : condition.WellTyped)
    (ha : condition.ForallArrays fun array => array.domain = 32) (hd : condition.Defined m) :
    ∀ x ∈ condition.directReads, Readable x := by
  intro x hx
  obtain ⟨⟨root, head, index⟩, hre, hx⟩ := mem_directReads.mp hx
  obtain ⟨hroot, hdom, hlt⟩ := Expr.readable_topReads h ha hd _ hre
  unfold ReadSite.byte? at hx
  split at hx
  · rename_i c hc
    obtain rfl := Option.some.inj hx
    dsimp only at hc hroot hdom hlt
    subst hc
    exact ⟨hroot, hdom, (Nat.mod_le _ _).trans_lt hlt⟩
  · cases hx

end CgsKlee
