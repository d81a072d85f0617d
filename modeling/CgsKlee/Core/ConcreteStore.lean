import CgsKlee.Core.ObjectRefinement
import CgsKlee.Core.Resolution

/-!
# The concrete store that external functions see

Before an external call the bytes of an object that are known to be symbolic get a value from the solver in the
concrete store.  A byte that is neither concrete nor known symbolic is kept in the update list only, and is not flushed:
the external function sees what the concrete store last held for it, which is zero in an object with symbolic contents.
-/

namespace CgsKlee

open Symbolic

variable {T : ExprTheory} {A : ArrayTheory T}

namespace ObjectState

/-- The body of the loop of `ObjectState::flushToConcreteStore`; the solver answers. -/
def flushByteToStore (B : Backend T) (constraints : List T.Expr) (os : ObjectState A) (i : Nat) :
    Option (ObjectState A) :=
  if (os.knownSymbolic i).isSome then do
    let (e, os) ← os.read8 i
    let ce := B.getValue constraints e
    some { os with concreteStore := Function.update os.concreteStore i (ce % 256) }
  else some os

def flushToConcreteStore (B : Backend T) (constraints : List T.Expr) (os : ObjectState A) : Option (ObjectState A) :=
  (List.range os.size).foldlM (flushByteToStore B constraints) os

def InUpdatesOnly (os : ObjectState A) (i : Nat) : Prop := os.isByteConcrete i = false ∧ os.knownSymbolic i = none

variable {B : Backend T} {cs : List T.Expr} {os : ObjectState A}

def withStore (os : ObjectState A) (store : Nat → Nat) : ObjectState A := { os with concreteStore := store }

@[simp] theorem isByteConcrete_withStore (os : ObjectState A) (store : Nat → Nat) (i : Nat) :
    (os.withStore store).isByteConcrete i = os.isByteConcrete i := rfl

@[simp] theorem knownSymbolic_withStore (os : ObjectState A) (store : Nat → Nat) (i : Nat) :
    (os.withStore store).knownSymbolic i = os.knownSymbolic i := rfl

/-- What the flush leaves in the concrete store: a value of the byte if it is known symbolic. -/
def flushedStore (B : Backend T) (cs : List T.Expr) (os : ObjectState A) (i : Nat) : Nat :=
  match os.knownSymbolic i with
  | some e => B.getValue cs e % 256
  | none => os.concreteStore i

theorem flushedStore_of_none {i : Nat} (h : os.knownSymbolic i = none) :
    flushedStore B cs os i = os.concreteStore i := by
  unfold flushedStore
  rw [h]

theorem flushedStore_of_some {i : Nat} {e : T.Expr} (h : os.knownSymbolic i = some e) :
    flushedStore B cs os i = B.getValue cs e % 256 := by
  unfold flushedStore
  rw [h]

theorem flushByteToStore_spec (B : Backend T) (cs : List T.Expr) {i : Nat} (hb : os.CoherentByte i)
    {store : Nat → Nat} (hs : store i = os.concreteStore i) :
    flushByteToStore B cs (os.withStore store) i =
      some (os.withStore (Function.update store i (flushedStore B cs os i))) := by
  unfold flushByteToStore
  cases hk : os.knownSymbolic i with
  | none =>
    rw [if_neg (by simp [hk]), flushedStore_of_none hk, ← hs, Function.update_eq_self]
  | some e =>
    have hc : os.isByteConcrete i = false := by
      by_contra hc
      rw [hb.exclusive (by simpa using hc)] at hk
      cases hk
    have hread : (os.withStore store).read8 i = some (e, os.withStore store) := by
      simp [read8, hc, hk]
    rw [if_pos (by simp [hk]), hread, flushedStore_of_some hk]
    rfl

theorem flushToConcreteStore_spec (h : os.Coherent) (B : Backend T) (cs : List T.Expr) :
    os.flushToConcreteStore B cs =
      some (os.withStore fun i => if i < os.size then flushedStore B cs os i else os.concreteStore i) := by
  have hloop : ∀ n ≤ os.size, (List.range n).foldlM (flushByteToStore B cs) os =
      some (os.withStore fun i => if i < n then flushedStore B cs os i else os.concreteStore i) := by
    intro n
    induction n with
    | zero =>
      intro _
      simp [withStore]
    | succ n ih =>
      intro hn
      rw [List.range_succ, List.foldlM_append, ih (by omega)]
      simp only [Option.bind_eq_bind, Option.bind_some, List.foldlM_cons, List.foldlM_nil, Option.pure_def]
      rw [flushByteToStore_spec B cs (h.byte n (by omega)) (by simp)]
      simp only [Option.bind_some]
      congr 2
      funext i
      rw [Function.update_apply]
      by_cases hi : i = n
      · simp [hi]
      · have hlt : i < n + 1 ↔ i < n := by omega
        simp [hi, hlt]
  exact hloop os.size (Nat.le_refl _)

end ObjectState

namespace ObjectOp

open ObjectState

/-- Every byte of the concrete store of `os'` is a value that the byte of `os` takes in a model of the constraints. -/
def SeesFeasibleBytes (cs : List T.Expr) (os os' : ObjectState A) : Prop :=
  ∀ i < os.size, ∃ e os₂, os.read8 i = some (e, os₂) ∧ ∃ m ∈ T.models cs, T.eval m e = os'.concreteStore i

variable {B : Backend T} {cs : List T.Expr}

/-- After any operations that are in bounds in a model of the constraints, the flush of an object leaves feasible bytes
if and only if the concrete store happens to hold a feasible value for each byte that is in the update list only. -/
theorem flushToConcreteStore_iff (hB : B.Exact) (ctx : Context) {m : T.Model} (hm : m ∈ T.models cs)
    (ops : List (ObjectOp A)) (ha : AllAllowed ctx m [] ops) :
    ∃ objects reads, run ctx [] ops = some (objects, reads) ∧ ∀ os ∈ objects,
      ∃ os', os.flushToConcreteStore B cs = some os' ∧ (SeesFeasibleBytes cs os os' ↔
        ∀ i < os.size, os.InUpdatesOnly i → ∃ m ∈ T.models cs, os.content m i = os.concreteStore i) := by
  obtain ⟨objects, reads, heq, hs, -⟩ := run_refines ctx (m := m) .nil ha
  refine ⟨objects, reads, heq, fun os hos => ?_⟩
  obtain ⟨_, -, hst⟩ := Loops.exists_of_forall₂ hs.flip hos
  have hc := hst.coherent
  refine ⟨_, flushToConcreteStore_spec hc B cs, ?_⟩
  -- a byte that is read has the value of the contents
  have hread : ∀ i < os.size, ∀ v, (∃ e os₂, os.read8 i = some (e, os₂) ∧ ∃ m ∈ T.models cs, T.eval m e = v) ↔
      ∃ m ∈ T.models cs, os.content m i = v := by
    intro i hi v
    obtain ⟨e, os₂, hr, -, -, hv⟩ := read8_spec hc hi
    simp only [hr, Option.some.injEq, Prod.mk.injEq]
    constructor
    · rintro ⟨_, _, ⟨rfl, rfl⟩, m', hm', hev⟩
      exact ⟨m', hm', by rw [← hev, hv, getD_bytes hi]⟩
    · rintro ⟨m', hm', hev⟩
      exact ⟨e, os₂, ⟨rfl, rfl⟩, m', hm', by rw [hv, getD_bytes hi, hev]⟩
  unfold SeesFeasibleBytes
  constructor
  · intro h i hi hup
    obtain ⟨m', hm', hev⟩ := (hread i hi _).1 (h i hi)
    simp only [withStore, if_pos hi, flushedStore_of_none hup.2] at hev
    exact ⟨m', hm', hev⟩
  · intro h i hi
    rw [hread i hi]
    simp only [withStore, if_pos hi]
    cases hcon : os.isByteConcrete i with
    | true =>
      -- the byte is the one in the concrete store
      rw [flushedStore_of_none ((hc.byte i hi).exclusive hcon)]
      exact ⟨m, hm, by simp [content, hcon]⟩
    | false =>
      cases hk : os.knownSymbolic i with
      | none =>
        rw [flushedStore_of_none hk]
        exact h i hi ⟨hcon, hk⟩
      | some e =>
        obtain ⟨m', hm', hev⟩ := hB.getValue (e := e) ⟨m, hm⟩
        have hlt : T.eval m' e < 256 := by
          have hlt := T.eval_lt m' e
          rwa [(hc.byte i hi).width e hk] at hlt
        refine ⟨m', hm', ?_⟩
        rw [flushedStore_of_some hk, ← hev, Nat.mod_eq_of_lt hlt]
        simp [content, hcon, hk]

/-- A symbolic byte with a value for each of the two models. -/
def oneByteArray : (shallowArrays 1).Array := ⟨1, fun m _ => BitVec.ofNat 8 m.val⟩

def byteIsOne : (shallow 1).Expr :=
  (shallow 1).eq ((shallowArrays 1).read oneByteArray [] ((shallow 1).const 0 32)) ((shallow 1).const 1 8)

/-- In an object with symbolic contents of which no byte has been written, the external function sees zero, also if the
byte has to be one. -/
theorem flushToConcreteStore_symbolic :
    ∃ os os', run target64 [] [.createSymbolic 1 oneByteArray] = some ([os], []) ∧
      os.flushToConcreteStore (shallowBackend 1) [byteIsOne] = some os' ∧ ¬SeesFeasibleBytes [byteIsOne] os os' := by
  refine ⟨_, _, rfl, rfl, fun h => ?_⟩
  obtain ⟨e, os₂, hread, m, hm, hev⟩ := h 0 (by decide)
  obtain ⟨rfl, -⟩ := Prod.mk.inj (Option.some.inj hread)
  have hone : (shallow 1).eval m byteIsOne = 1 := hm byteIsOne List.mem_cons_self
  have hne : ∀ m : Fin 2, (shallow 1).eval m byteIsOne = 1 →
      (shallow 1).eval m ((shallowArrays 1).read oneByteArray [] ((shallow 1).const 0 32)) ≠ 0 := by decide
  exact hne m hone hev

/-- The equivalence for this object. -/
theorem flushToConcreteStore_iff_symbolic :
    ∃ objects reads, run target64 [] [.createSymbolic 1 oneByteArray] = some (objects, reads) ∧ ∀ os ∈ objects,
      ∃ os', os.flushToConcreteStore (shallowBackend 1) [byteIsOne] = some os' ∧
        (SeesFeasibleBytes [byteIsOne] os os' ↔ ∀ i < os.size, os.InUpdatesOnly i →
          ∃ m ∈ (shallow 1).models [byteIsOne], os.content m i = os.concreteStore i) := by
  have hm : (1 : Fin 2) ∈ (shallow 1).models [byteIsOne] := by
    intro e he
    rw [List.mem_singleton.1 he]
    exact (by decide : (shallow 1).eval (1 : Fin 2) byteIsOne = 1)
  exact flushToConcreteStore_iff (shallowBackend_exact 1) target64 hm [.createSymbolic 1 oneByteArray]
    ⟨⟨by decide, rfl⟩, trivial⟩

end ObjectOp

end CgsKlee
