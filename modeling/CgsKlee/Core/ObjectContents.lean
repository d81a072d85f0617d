import CgsKlee.Core.ObjectState

/-!
# Object states are byte arrays

Under a model every byte of an object state has a value, wherever it is kept.  `Coherent` is the invariant of the
caches: a byte is not both concrete and known symbolic, a byte that the update list does not know is cached, and for
all others the update list agrees with the cache.  Every read returns what the byte array holds, and every write
changes the byte array as the concrete store of the same value does.
-/

namespace CgsKlee

open Symbolic FlatMemory

variable {T : ExprTheory} {A : ArrayTheory T}

/-- The byte at `i` that an update list describes; the contents of a constant array that is not created yet are
zero. -/
def UpdateList.byte (ul : UpdateList A) (m : T.Model) (i : Nat) : Nat :=
  T.lookup m ul.head (ul.root.elim (fun _ => 0) (A.byte m)) i

namespace ObjectState

def content (os : ObjectState A) (m : T.Model) (i : Nat) : Nat :=
  if os.isByteConcrete i then os.concreteStore i
  else (os.knownSymbolic i).elim (os.updates.byte m i) (T.eval m)

def bytes (os : ObjectState A) (m : T.Model) : List Nat := (List.range os.size).map (os.content m)

@[simp] theorem length_bytes (os : ObjectState A) (m : T.Model) : (os.bytes m).length = os.size := by simp [bytes]

theorem getD_bytes {os : ObjectState A} {m : T.Model} {i : Nat} (h : i < os.size) :
    (os.bytes m).getD i 0 = os.content m i := by
  simp [bytes, List.getD_eq_getElem?_getD, h]

theorem bytes_congr {os os' : ObjectState A} {m : T.Model} (hs : os'.size = os.size)
    (h : ∀ i < os.size, os'.content m i = os.content m i) : os'.bytes m = os.bytes m := by
  unfold bytes
  rw [hs]
  exact List.map_congr_left fun i hi => h i (List.mem_range.1 hi)

structure CoherentByte (os : ObjectState A) (i : Nat) : Prop where
  exclusive : os.isByteConcrete i = true → os.knownSymbolic i = none
  cached : os.isByteUnflushed i = true → os.isByteConcrete i = true ∨ (os.knownSymbolic i).isSome
  width : ∀ e, os.knownSymbolic i = some e → T.width e = 8
  store_lt : os.concreteStore i < 256
  /-- The update list agrees with the caches about the bytes it knows. -/
  flushed : os.isByteUnflushed i = false → ∀ m, os.content m i = os.updates.byte m i

structure Coherent (os : ObjectState A) : Prop where
  size_lt : os.size < 2 ^ 32
  byte : ∀ i < os.size, os.CoherentByte i
  width : ∀ u ∈ os.updates.head, T.width u.1 = 32 ∧ T.width u.2 = 8
  index_lt : ∀ u ∈ os.updates.head, ∀ v, T.constant? u.1 = some v → v < os.size
  root : ∀ a ∈ os.updates.root, A.size a = os.size

/-- An operation keeps the invariant, the size and whether the object is read only. -/
structure Keeps (os os' : ObjectState A) : Prop where
  coherent : os'.Coherent
  size : os'.size = os.size
  readOnly : os'.readOnly = os.readOnly

theorem Keeps.refl {os : ObjectState A} (h : os.Coherent) : os.Keeps os := ⟨h, rfl, rfl⟩

theorem Keeps.trans {os₁ os₂ os₃ : ObjectState A} (h : os₁.Keeps os₂) (h' : os₂.Keeps os₃) : os₁.Keeps os₃ :=
  ⟨h'.coherent, h'.size.trans h.size, h'.readOnly.trans h.readOnly⟩

theorem ofSize_coherent {size : Nat} {array : Option A.Array} (hs : size < 2 ^ 32)
    (ha : ∀ a ∈ array, A.size a = size) : (ofSize (A := A) size array).Coherent where
  size_lt := hs
  byte _ _ := ⟨fun _ => rfl, fun _ => .inl rfl, fun _ h => (by cases h), by simp [ofSize], fun h => (by cases h)⟩
  width u hu := by cases hu
  index_lt u hu := by cases hu
  root := ha

section Masks

variable (os : ObjectState A) (o i : Nat)

@[simp] theorem isByteConcrete_markByteConcrete :
    (os.markByteConcrete o).isByteConcrete i = if i = o then true else os.isByteConcrete i := by
  unfold isByteConcrete markByteConcrete
  cases os.concreteMask <;> simp [Function.update_apply]

@[simp] theorem isByteConcrete_markByteSymbolic :
    (os.markByteSymbolic o).isByteConcrete i = if i = o then false else os.isByteConcrete i := by
  unfold isByteConcrete markByteSymbolic
  cases os.concreteMask <;> simp [Function.update_apply]

@[simp] theorem isByteUnflushed_markByteUnflushed :
    (os.markByteUnflushed o).isByteUnflushed i = if i = o then true else os.isByteUnflushed i := by
  unfold isByteUnflushed markByteUnflushed
  cases os.unflushedMask <;> simp [Function.update_apply]

theorem isByteUnflushed_unsetUnflushed (h : os.unflushedMask.isSome) :
    (os.unsetUnflushed o).isByteUnflushed i = if i = o then false else os.isByteUnflushed i := by
  unfold isByteUnflushed unsetUnflushed
  cases hm : os.unflushedMask with
  | none => simp [hm] at h
  | some mask => simp [Function.update_apply]

@[simp] theorem isByteUnflushed_allocateUnflushedMask :
    os.allocateUnflushedMask.isByteUnflushed i = os.isByteUnflushed i := by
  unfold isByteUnflushed allocateUnflushedMask
  cases os.unflushedMask <;> rfl

theorem setKnownSymbolic_spec (e : Option T.Expr) :
    ∃ known, os.setKnownSymbolic o e = { os with knownSymbolics := known } ∧
      ∀ i, (os.setKnownSymbolic o e).knownSymbolic i = if i = o then e else os.knownSymbolic i := by
  unfold setKnownSymbolic knownSymbolic
  cases hk : os.knownSymbolics with
  | some known => exact ⟨_, rfl, fun i => by simp [Function.update_apply]⟩
  | none =>
    cases e with
    | none => exact ⟨none, by simp [← hk], fun i => by simp [hk]⟩
    | some e => exact ⟨_, rfl, fun i => by simp [Function.update_apply]⟩

end Masks

/-- The two objects keep the byte `i` in the same way. -/
private structure AgreesAt (os os' : ObjectState A) (i : Nat) : Prop where
  concrete : os'.isByteConcrete i = os.isByteConcrete i
  known : os'.knownSymbolic i = os.knownSymbolic i
  unflushed : os'.isByteUnflushed i = os.isByteUnflushed i
  store : os'.concreteStore i = os.concreteStore i
  updates : ∀ m, os'.updates.byte m i = os.updates.byte m i

private theorem AgreesAt.content {os os' : ObjectState A} {i : Nat} (h : AgreesAt os os' i) (m : T.Model) :
    os'.content m i = os.content m i := by
  unfold ObjectState.content
  rw [h.concrete, h.known, h.store, h.updates]

private theorem AgreesAt.coherent {os os' : ObjectState A} {i : Nat} (h : AgreesAt os os' i)
    (hc : os.CoherentByte i) : os'.CoherentByte i where
  exclusive := by
    rw [h.concrete, h.known]
    exact hc.exclusive
  cached := by
    rw [h.unflushed, h.concrete, h.known]
    exact hc.cached
  width := by
    rw [h.known]
    exact hc.width
  store_lt := by
    rw [h.store]
    exact hc.store_lt
  flushed := by
    intro hu m
    rw [h.content, h.updates]
    exact hc.flushed (h.unflushed ▸ hu) m

private theorem Coherent.change {os os' : ObjectState A} (h : os.Coherent) {i : Nat} (hs : os'.size = os.size)
    (hr : os'.readOnly = os.readOnly) (ho : ∀ j < os.size, j ≠ i → AgreesAt os os' j)
    (hi : i < os.size → os'.CoherentByte i) (hroot : os'.updates.root = os.updates.root)
    (hhead : ∀ u ∈ os'.updates.head, u ∈ os.updates.head ∨ T.width u.1 = 32 ∧ T.width u.2 = 8 ∧
      ∀ v, T.constant? u.1 = some v → v < os.size) : os.Keeps os' := by
  refine ⟨⟨by rw [hs]; exact h.size_lt, ?_, ?_, ?_, ?_⟩, hs, hr⟩
  · intro j hj
    rw [hs] at hj
    by_cases hji : j = i
    · rw [hji] at hj ⊢
      exact hi hj
    · exact (ho j hj hji).coherent (h.byte j hj)
  · intro u hu
    rcases hhead u hu with hu | ⟨h₁, h₂, -⟩
    · exact h.width u hu
    · exact ⟨h₁, h₂⟩
  · intro u hu v hv
    rw [hs]
    rcases hhead u hu with hu | ⟨-, -, h₃⟩
    · exact h.index_lt u hu v hv
    · exact h₃ v hv
  · intro a ha
    rw [hroot] at ha
    rw [hs]
    exact h.root a ha

private theorem concrete_spec {os os' : ObjectState A} (h : os.Coherent) {v : Nat} (hv : v < 256)
    (heq : os' = { os.makeConcrete with concreteStore := fun _ => v }) :
    os.Keeps os' ∧ ∀ m, os'.bytes m = List.replicate os.size v := by
  subst heq
  refine ⟨⟨⟨h.size_lt, fun i _ => ?_, h.width, h.index_lt, h.root⟩, rfl, rfl⟩, fun m => ?_⟩
  · exact ⟨fun _ => rfl, fun _ => .inl rfl, fun _ he => (by cases he), hv, fun hu => (by cases hu)⟩
  · apply List.ext_getElem
    · simp [makeConcrete]
    · intro i hi _
      simp [bytes, content, isByteConcrete, makeConcrete]

theorem initializeToZero_spec {os : ObjectState A} (h : os.Coherent) :
    os.Keeps os.initializeToZero ∧ ∀ m, os.initializeToZero.bytes m = List.replicate os.size 0 :=
  concrete_spec h (by decide) rfl

theorem initializeToRandom_spec {os : ObjectState A} (h : os.Coherent) :
    os.Keeps os.initializeToRandom ∧ ∀ m, os.initializeToRandom.bytes m = List.replicate os.size 0xAB :=
  concrete_spec h (by decide) rfl

theorem bytes_ofSize (size : Nat) (array : Option A.Array) (m : T.Model) :
    (ofSize size array).bytes m = List.replicate size 0 := by
  apply List.ext_getElem
  · simp [ofSize]
  · intro i hi _
    simp [bytes, content, isByteConcrete, ofSize]

/-- What `makeSymbolic` leaves behind at a byte below `n`; the mask is clear at all bytes once it is allocated. -/
private structure Symbolized (os : ObjectState A) (n : Nat) : Prop where
  concrete : ∀ i < n, os.isByteConcrete i = false
  known : os.knownSymbolics = none
  unflushed : 0 < n → ∀ i, os.isByteUnflushed i = false

private theorem makeByteSymbolic_spec {os : ObjectState A} {n : Nat} (h : os.Symbolized n)
    (hm : n = 0 → os.unflushedMask = none) :
    (os.makeByteSymbolic n).Symbolized (n + 1) ∧ (os.makeByteSymbolic n).unflushedMask.isSome := by
  have hset : (os.markByteSymbolic n).setKnownSymbolic n none = os.markByteSymbolic n := by
    simp [setKnownSymbolic, show (os.markByteSymbolic n).knownSymbolics = none from h.known]
  unfold makeByteSymbolic markByteFlushed
  rw [hset]
  have hconcrete : ∀ i < n + 1, (os.markByteSymbolic n).isByteConcrete i = false := by
    intro i hi
    rw [isByteConcrete_markByteSymbolic]
    split
    · rfl
    · exact h.concrete i (by omega)
  split
  · rename_i mask hmask
    refine ⟨⟨hconcrete, h.known, fun _ i => ?_⟩, rfl⟩
    have hn : 0 < n := by
      apply Nat.pos_of_ne_zero
      intro hn
      exact absurd (hm hn) (by rw [show os.unflushedMask = some mask from hmask]; simp)
    have hu := h.unflushed hn i
    rw [isByteUnflushed, show os.unflushedMask = some mask from hmask] at hu
    simp only [isByteUnflushed, Option.elim_some, Function.update_apply]
    split
    · rfl
    · exact hu
  · exact ⟨⟨hconcrete, h.known, fun _ _ => rfl⟩, rfl⟩

private theorem makeByteSymbolic_rest (os : ObjectState A) (n : Nat) :
    (os.makeByteSymbolic n).size = os.size ∧ (os.makeByteSymbolic n).updates = os.updates ∧
      (os.makeByteSymbolic n).concreteStore = os.concreteStore ∧
      (os.makeByteSymbolic n).readOnly = os.readOnly := by
  obtain ⟨known, heq, -⟩ := setKnownSymbolic_spec (os.markByteSymbolic n) n none
  unfold makeByteSymbolic markByteFlushed
  rw [heq]
  split <;> exact ⟨rfl, rfl, rfl, rfl⟩

private theorem makeSymbolic_loop (size : Nat) (array : A.Array) (n : Nat) :
    ∃ os : ObjectState A, (List.range n).foldl makeByteSymbolic (ofSize size (some array)) = os ∧
      os.Symbolized n ∧ (n = 0 → os.unflushedMask = none) ∧ os.size = size ∧ os.updates = ⟨some array, []⟩ ∧
      os.concreteStore = (fun _ => 0) ∧ os.readOnly = false := by
  induction n with
  | zero =>
    refine ⟨_, rfl, ⟨?_, rfl, ?_⟩, fun _ => rfl, rfl, rfl, rfl, rfl⟩
    · intro i hi
      omega
    · intro h
      omega
  | succ n ih =>
    obtain ⟨os, heq, hs, hm, hsize, hup, hstore, hro⟩ := ih
    obtain ⟨hs', -⟩ := makeByteSymbolic_spec hs hm
    obtain ⟨r₁, r₂, r₃, r₄⟩ := makeByteSymbolic_rest os n
    refine ⟨os.makeByteSymbolic n, ?_, hs', fun h => absurd h (by omega), r₁.trans hsize, r₂.trans hup,
      r₃.trans hstore, r₄.trans hro⟩
    rw [List.range_succ, List.foldl_append, heq]
    rfl

theorem ofArray_spec {size : Nat} {array : A.Array} (hs : size < 2 ^ 32) (ha : A.size array = size) :
    ∃ os, ofArray size array = some os ∧ os.Coherent ∧ os.size = size ∧ os.readOnly = false ∧
      ∀ m, os.bytes m = (List.range size).map (A.byte m array) := by
  obtain ⟨os, heq, hsym, -, hsize, hup, hstore, hro⟩ := makeSymbolic_loop (A := A) size array size
  have hcontent : ∀ m, ∀ i < size, os.content m i = A.byte m array i := by
    intro m i hi
    unfold content knownSymbolic UpdateList.byte
    rw [hsym.concrete i hi, hsym.known, hup]
    rfl
  refine ⟨os, ?_, ⟨?_, ?_, ?_, ?_, ?_⟩, hsize, hro, fun m => ?_⟩
  · simpa [ofArray, makeSymbolic, ofSize] using heq
  · rwa [hsize]
  · intro i hi
    rw [hsize] at hi
    have hknown : os.knownSymbolic i = none := by
      unfold knownSymbolic
      rw [hsym.known]
      rfl
    refine ⟨fun _ => hknown, fun hu => ?_, fun e he => ?_, ?_, fun _ m => ?_⟩
    · rw [hsym.unflushed (by omega) i] at hu
      cases hu
    · rw [hknown] at he
      cases he
    · rw [hstore]
      exact Nat.zero_lt_succ 255
    · rw [hcontent m i hi, hup]
      rfl
  · intro u hu
    rw [hup] at hu
    cases hu
  · intro u hu
    rw [hup] at hu
    cases hu
  · intro a h
    rw [hup] at h
    rw [hsize, ← Option.some.inj h, ha]
  · unfold bytes
    rw [hsize]
    exact List.map_congr_left fun i hi => hcontent m i (List.mem_range.1 hi)

structure Flushed (os os' : ObjectState A) : Prop extends os.Keeps os' where
  mask : os'.unflushedMask.isSome
  content : ∀ m, ∀ i < os.size, os'.content m i = os.content m i

theorem Flushed.trans {os₁ os₂ os₃ : ObjectState A} (h : os₁.Flushed os₂) (h' : os₂.Flushed os₃) :
    os₁.Flushed os₃ where
  toKeeps := h.toKeeps.trans h'.toKeeps
  mask := h'.mask
  content m i hi := (h'.content m i (h.size ▸ hi)).trans (h.content m i hi)

theorem Flushed.bytes {os os' : ObjectState A} (h : os.Flushed os') (m : T.Model) : os'.bytes m = os.bytes m :=
  bytes_congr h.size (h.content m)

private theorem byte_extend (os : ObjectState A) {i : Nat} (hi : i < 2 ^ 32) (e : T.Expr) (m : T.Model) (j : Nat) :
    UpdateList.byte (A := A) ⟨os.updates.root, (T.const i 32, e) :: os.updates.head⟩ m j =
      if i = j then T.eval m e else os.updates.byte m j := by
  unfold UpdateList.byte
  rw [ExprTheory.lookup, ExprTheory.eval_const, Nat.mod_eq_of_lt hi]

private def flushed (os : ObjectState A) (i : Nat) (e : T.Expr) : ObjectState A :=
  { os with updates := ⟨os.updates.root, (T.const i 32, e) :: os.updates.head⟩ }.unsetUnflushed i

private theorem extendUpdates_eq (os : ObjectState A) (i : Nat) {e : T.Expr} (he : T.width e = 8) :
    os.extendUpdates i e =
      some { os with updates := ⟨os.updates.root, (T.const i 32, e) :: os.updates.head⟩ } := by
  simp [extendUpdates, UpdateList.extend, he]

private theorem flushed_spec {os : ObjectState A} (h : os.Coherent) (hm : os.unflushedMask.isSome) {i : Nat}
    (hi : i < os.size) {e : T.Expr} (he : T.width e = 8) (hv : ∀ m, T.eval m e = os.content m i) :
    os.Flushed (os.flushed i e) ∧
      ∀ j, (os.flushed i e).isByteUnflushed j = if j = i then false else os.isByteUnflushed j := by
  have hlt : i < 2 ^ 32 := hi.trans h.size_lt
  have hunset : ∀ j, (os.flushed i e).isByteUnflushed j = if j = i then false else os.isByteUnflushed j :=
    fun j => isByteUnflushed_unsetUnflushed _ i j hm
  have hother : ∀ j, j ≠ i → AgreesAt os (os.flushed i e) j := by
    intro j hj
    refine ⟨rfl, rfl, by rw [hunset, if_neg hj], rfl, fun m => ?_⟩
    exact (byte_extend os hlt e m j).trans (if_neg (Ne.symm hj))
  have hcontent : ∀ m, (os.flushed i e).content m i = os.content m i := by
    intro m
    unfold ObjectState.content
    by_cases hc : os.isByteConcrete i = true
    · rw [if_pos hc, if_pos (show (os.flushed i e).isByteConcrete i = true from hc)]
      rfl
    · rw [if_neg hc, if_neg (show ¬(os.flushed i e).isByteConcrete i = true from hc)]
      -- a byte that is in no cache is the one that the update list already has
      cases hk : os.knownSymbolic i with
      | some e' => rw [show (os.flushed i e).knownSymbolic i = some e' from hk]; rfl
      | none =>
        rw [show (os.flushed i e).knownSymbolic i = none from hk]
        refine ((byte_extend os hlt e m i).trans (if_pos rfl)).trans ?_
        rw [hv m, ObjectState.content, if_neg hc, hk]
  have hb := h.byte i hi
  refine ⟨⟨h.change rfl rfl (fun j _ hj => hother j hj) (fun _ => ?_) rfl ?_, ?_, ?_⟩, hunset⟩
  · refine ⟨hb.exclusive, ?_, hb.width, hb.store_lt, fun _ m => ?_⟩
    · rw [hunset, if_pos rfl]
      intro hf
      cases hf
    · rw [hcontent, ← hv m]
      exact ((byte_extend os hlt e m i).trans (if_pos rfl)).symm
  · intro u hu
    rcases List.mem_cons.1 hu with rfl | hu
    · refine .inr ⟨by simp, he, fun v hc => ?_⟩
      rw [T.constant?_const, Nat.mod_eq_of_lt hlt] at hc
      exact Option.some.inj hc ▸ hi
    · exact .inl hu
  · simpa [flushed, unsetUnflushed] using hm
  · intro m j _
    by_cases hj : j = i
    · rw [hj]
      exact hcontent m
    · exact (hother j hj).content m

private theorem cached_byte {os : ObjectState A} (h : os.Coherent) {i : Nat} (hi : i < os.size) :
    (os.isByteConcrete i = true → T.width (T.const (os.concreteStore i) 8) = 8 ∧
      ∀ m, T.eval m (T.const (os.concreteStore i) 8) = os.content m i) ∧
    (os.isByteConcrete i = false → ∀ e, os.knownSymbolic i = some e →
      T.width e = 8 ∧ ∀ m, T.eval m e = os.content m i) := by
  have hb := h.byte i hi
  constructor
  · intro hc
    have hlt : os.concreteStore i < 2 ^ 8 := hb.store_lt
    refine ⟨by simp, fun m => ?_⟩
    rw [ExprTheory.eval_const, Nat.mod_eq_of_lt hlt, ObjectState.content, if_pos hc]
  · intro hc e he
    refine ⟨hb.width e he, fun m => ?_⟩
    simp [ObjectState.content, hc, he]

theorem flushByteForRead_spec {os : ObjectState A} (h : os.Coherent) (hm : os.unflushedMask.isSome) {i : Nat}
    (hi : i < os.size) :
    ∃ os', os.flushByteForRead i = some os' ∧ os.Flushed os' ∧
      ∀ j, os'.isByteUnflushed j = if j = i then false else os.isByteUnflushed j := by
  unfold flushByteForRead
  by_cases hu : os.isByteUnflushed i = true
  · rw [if_pos hu]
    obtain ⟨hconcrete, hknown⟩ := cached_byte h hi
    by_cases hc : os.isByteConcrete i = true
    · obtain ⟨hw, hv⟩ := hconcrete hc
      rw [if_pos hc, extendUpdates_eq os i hw]
      exact ⟨_, rfl, flushed_spec h hm hi hw hv⟩
    · rw [if_neg hc]
      obtain ⟨e, he⟩ := Option.isSome_iff_exists.1 (((h.byte i hi).cached hu).resolve_left hc)
      obtain ⟨hw, hv⟩ := hknown (by simpa using hc) e he
      simp only [he, extendUpdates_eq os i hw]
      exact ⟨_, rfl, flushed_spec h hm hi hw hv⟩
  · rw [if_neg hu]
    refine ⟨os, rfl, ⟨Keeps.refl h, hm, fun _ _ _ => rfl⟩, fun j => ?_⟩
    split
    · rename_i hj
      rw [hj]
      simpa using hu
    · rfl

def Uncached (os : ObjectState A) (i : Nat) : Prop :=
  os.isByteUnflushed i = false ∧ os.isByteConcrete i = false ∧ os.knownSymbolic i = none

private theorem drop_spec {os os' : ObjectState A} (h : os.Coherent) (hm : os.unflushedMask.isSome) {i : Nat}
    (hu : os.isByteUnflushed i = false) (hs : os'.size = os.size) (hr : os'.readOnly = os.readOnly)
    (hstore : os'.concreteStore = os.concreteStore) (hmask : os'.unflushedMask = os.unflushedMask)
    (hup : os'.updates = os.updates)
    (hc : ∀ j, os'.isByteConcrete j = if j = i then false else os.isByteConcrete j)
    (hk : ∀ j, os'.knownSymbolic j = if j = i then none else os.knownSymbolic j) :
    os.Flushed os' ∧ os'.Uncached i ∧ ∀ j, os.Uncached j → os'.Uncached j := by
  have hunfl : ∀ j, os'.isByteUnflushed j = os.isByteUnflushed j := fun j => by
    unfold isByteUnflushed
    rw [hmask]
  have hother : ∀ j, j ≠ i → AgreesAt os os' j := fun j hj =>
    ⟨by rw [hc, if_neg hj], by rw [hk, if_neg hj], hunfl j, by rw [hstore], fun m => by rw [hup]⟩
  have hci := (hc i).trans (if_pos rfl)
  have hki := (hk i).trans (if_pos rfl)
  have hcontent : ∀ m, os'.content m i = os.updates.byte m i := by
    intro m
    simp [ObjectState.content, hci, hki, hup]
  refine ⟨⟨h.change hs hr (fun j _ hj => hother j hj) (fun hi => ?_) (by rw [hup]) ?_, by rwa [hmask], ?_⟩, ?_, ?_⟩
  · refine ⟨fun _ => hki, ?_, by simp [hki], by rw [hstore]; exact (h.byte i hi).store_lt, fun _ m => ?_⟩
    · rw [hunfl, hu]
      intro hf
      cases hf
    · rw [hcontent, hup]
  · intro u hu
    rw [hup] at hu
    exact .inl hu
  · intro m j hj
    by_cases hji : j = i
    · subst hji
      rw [hcontent]
      exact ((h.byte j hj).flushed hu m).symm
    · exact (hother j hji).content m
  · exact ⟨(hunfl i).trans hu, hci, hki⟩
  · rintro j ⟨hju, hjc, hjk⟩
    refine ⟨(hunfl j).trans hju, ?_, ?_⟩
    · rw [hc, hjc, ite_self]
    · rw [hk, hjk, ite_self]

private theorem drop_concrete {os : ObjectState A} (h : os.Coherent) (hm : os.unflushedMask.isSome) {i : Nat}
    (hi : i < os.size) (hu : os.isByteUnflushed i = false) (hc : os.isByteConcrete i = true) :
    os.Flushed (os.markByteSymbolic i) ∧ (os.markByteSymbolic i).Uncached i ∧
      ∀ j, os.Uncached j → (os.markByteSymbolic i).Uncached j := by
  refine drop_spec h hm hu rfl rfl rfl rfl rfl (isByteConcrete_markByteSymbolic os i) fun j => ?_
  split
  · rename_i hj
    rw [hj]
    exact (h.byte i hi).exclusive hc
  · rfl

private theorem drop_known {os : ObjectState A} (h : os.Coherent) (hm : os.unflushedMask.isSome) {i : Nat}
    (hu : os.isByteUnflushed i = false) (hc : os.isByteConcrete i = false) :
    os.Flushed (os.setKnownSymbolic i none) ∧ (os.setKnownSymbolic i none).Uncached i ∧
      ∀ j, os.Uncached j → (os.setKnownSymbolic i none).Uncached j := by
  obtain ⟨known, heq, hk⟩ := setKnownSymbolic_spec os i none
  refine drop_spec h hm hu ?_ ?_ ?_ ?_ ?_ (fun j => ?_) hk
  any_goals rw [heq]
  split
  · rename_i hj
    rw [hj]
    exact hc
  · rfl

theorem unsetUnflushed_setKnownSymbolic (os : ObjectState A) (i j : Nat) (e : Option T.Expr) :
    (os.setKnownSymbolic i e).unsetUnflushed j = (os.unsetUnflushed j).setKnownSymbolic i e := by
  cases hk : os.knownSymbolics with
  | some known => simp [setKnownSymbolic, unsetUnflushed, hk]
  | none => cases e <;> simp [setKnownSymbolic, unsetUnflushed, hk]

theorem flushByteForWrite_spec {os : ObjectState A} (h : os.Coherent) (hm : os.unflushedMask.isSome) {i : Nat}
    (hi : i < os.size) :
    ∃ os', os.flushByteForWrite i = some os' ∧ os.Flushed os' ∧ os'.Uncached i ∧
      ∀ j, os.Uncached j → os'.Uncached j := by
  obtain ⟨hconcrete, hknown⟩ := cached_byte h hi
  unfold flushByteForWrite
  by_cases hu : os.isByteUnflushed i = true
  · rw [if_pos hu]
    have hkeep : ∀ {e}, (∀ j, (os.flushed i e).isByteUnflushed j = if j = i then false else os.isByteUnflushed j) →
        ∀ j, os.Uncached j → (os.flushed i e).Uncached j := by
      rintro e hun j ⟨hju, hjc, hjk⟩
      exact ⟨by rw [hun, hju, ite_self], hjc, hjk⟩
    by_cases hc : os.isByteConcrete i = true
    · obtain ⟨hw, hv⟩ := hconcrete hc
      rw [if_pos hc, extendUpdates_eq os i hw]
      obtain ⟨hf, hun⟩ := flushed_spec h hm hi hw hv
      obtain ⟨hd, hi', hj⟩ := drop_concrete hf.coherent hf.mask (i := i) (hf.size ▸ hi) (by simp [hun]) hc
      exact ⟨_, rfl, hf.trans hd, hi', fun j hj' => hj j (hkeep hun j hj')⟩
    · rw [if_neg hc]
      obtain ⟨e, he⟩ := Option.isSome_iff_exists.1 (((h.byte i hi).cached hu).resolve_left hc)
      obtain ⟨hw, hv⟩ := hknown (by simpa using hc) e he
      obtain ⟨hf, hun⟩ := flushed_spec h hm hi hw hv
      obtain ⟨hd, hi', hj⟩ := drop_known hf.coherent hf.mask (i := i) (by simp [hun])
        (show (os.flushed i e).isByteConcrete i = false from Bool.eq_false_iff.2 hc)
      simp only [he, extendUpdates_eq os i hw]
      refine ⟨_, rfl, ?_⟩
      simp only [unsetUnflushed_setKnownSymbolic]
      exact ⟨hf.trans hd, hi', fun j hj' => hj j (hkeep hun j hj')⟩
  · rw [if_neg hu]
    have hu' : os.isByteUnflushed i = false := by simpa using hu
    by_cases hc : os.isByteConcrete i = true
    · rw [if_pos hc]
      exact ⟨_, rfl, drop_concrete h hm hi hu' hc⟩
    · rw [if_neg hc]
      have hc' : os.isByteConcrete i = false := by simpa using hc
      cases hk : os.knownSymbolic i with
      | some e => exact ⟨_, rfl, drop_known h hm hu' hc'⟩
      | none => exact ⟨os, rfl, ⟨Keeps.refl h, hm, fun _ _ _ => rfl⟩, ⟨hu', hc', hk⟩, fun _ hj => hj⟩

private theorem allocateUnflushedMask_flushed {os : ObjectState A} (h : os.Coherent) :
    os.Flushed os.allocateUnflushedMask := by
  have hagree : ∀ i, AgreesAt os os.allocateUnflushedMask i := fun i =>
    ⟨rfl, rfl, isByteUnflushed_allocateUnflushedMask os i, rfl, fun _ => rfl⟩
  refine ⟨⟨⟨h.size_lt, fun i hi => (hagree i).coherent (h.byte i hi), h.width, h.index_lt, h.root⟩, rfl, rfl⟩, rfl,
    fun m i _ => (hagree i).content m⟩

private theorem foldlM_flush {step : ObjectState A → Nat → Option (ObjectState A)} {P : ObjectState A → Nat → Prop}
    (hstep : ∀ {os : ObjectState A}, os.Coherent → os.unflushedMask.isSome → ∀ {i}, i < os.size →
      ∃ os', step os i = some os' ∧ os.Flushed os' ∧ P os' i ∧ ∀ j, P os j → P os' j)
    (l : List Nat) {os : ObjectState A} (h : os.Coherent) (hm : os.unflushedMask.isSome) (hl : ∀ i ∈ l, i < os.size) :
    ∃ os', l.foldlM step os = some os' ∧ os.Flushed os' ∧ (∀ i ∈ l, P os' i) ∧ ∀ j, P os j → P os' j := by
  induction l generalizing os with
  | nil => exact ⟨os, rfl, ⟨Keeps.refl h, hm, fun _ _ _ => rfl⟩, by simp, fun _ hj => hj⟩
  | cons i l ih =>
    obtain ⟨os₁, h₁, hf₁, hp₁, hj₁⟩ := hstep h hm (hl i (by simp))
    obtain ⟨os₂, h₂, hf₂, hp₂, hj₂⟩ := ih hf₁.coherent hf₁.mask fun j hj => hf₁.size ▸ hl j (by simp [hj])
    refine ⟨os₂, ?_, hf₁.trans hf₂, ?_, fun j hj => hj₂ j (hj₁ j hj)⟩
    · simp only [List.foldlM_cons, h₁, Option.bind_eq_bind, Option.bind_some, h₂]
    · intro j hj
      rcases List.mem_cons.1 hj with rfl | hj
      · exact hj₂ j hp₁
      · exact hp₂ j hj

theorem flushRangeForRead_spec {os : ObjectState A} (h : os.Coherent) :
    ∃ os', os.flushRangeForRead 0 os.size = some os' ∧ os.Flushed os' ∧
      ∀ i < os.size, os'.isByteUnflushed i = false := by
  have ha := allocateUnflushedMask_flushed h
  obtain ⟨os', h', hf, hp, -⟩ := foldlM_flush (P := fun os i => os.isByteUnflushed i = false)
    (fun {os} h hm {i} hi => by
      obtain ⟨os', h', hf, hu⟩ := flushByteForRead_spec h hm hi
      exact ⟨os', h', hf, by rw [hu, if_pos rfl], fun j hj => by rw [hu, hj, ite_self]⟩)
    (List.range' 0 os.size) ha.coherent ha.mask fun i hi => by
      have := List.mem_range'_1.1 hi
      rw [ha.size]
      omega
  exact ⟨os', h', ha.trans hf, fun i hi => hp i (List.mem_range'_1.2 ⟨Nat.zero_le i, by omega⟩)⟩

theorem flushRangeForWrite_spec {os : ObjectState A} (h : os.Coherent) :
    ∃ os', os.flushRangeForWrite 0 os.size = some os' ∧ os.Flushed os' ∧ ∀ i < os.size, os'.Uncached i := by
  have ha := allocateUnflushedMask_flushed h
  obtain ⟨os', h', hf, hp, -⟩ := foldlM_flush (P := Uncached) flushByteForWrite_spec
    (List.range' 0 os.size) ha.coherent ha.mask fun i hi => by
      have := List.mem_range'_1.1 hi
      rw [ha.size]
      omega
  exact ⟨os', h', ha.trans hf, fun i hi => hp i (List.mem_range'_1.2 ⟨Nat.zero_le i, by omega⟩)⟩

private theorem lookup_congr {m : T.Model} {us : List (T.Expr × T.Expr)} {f g : Nat → Nat} {i : Nat}
    (h : f i = g i) : T.lookup m us f i = T.lookup m us g i := by
  induction us with
  | nil => exact h
  | cons u us ih => rw [ExprTheory.lookup, ExprTheory.lookup, ih]

private theorem pullConcreteWrites_spec (contents : List Nat) (writes : List (T.Expr × T.Expr))
    (hw : ∀ u ∈ writes, T.width u.2 = 8)
    (hi : ∀ u ∈ writes, ∀ v, T.constant? u.1 = some v → v < contents.length) :
    ∃ contents' rest, pullConcreteWrites contents writes = some (contents', rest) ∧
      contents'.length = contents.length ∧ (∀ u ∈ rest, u ∈ writes) ∧
      ∀ m, ∀ i < contents.length, T.lookup m rest.reverse (contents'.getD · 0 % 256) i =
        T.lookup m writes.reverse (contents.getD · 0 % 256) i := by
  induction writes generalizing contents with
  | nil => exact ⟨contents, [], rfl, rfl, by simp, fun _ _ _ => rfl⟩
  | cons u writes ih =>
    obtain ⟨index, value⟩ := u
    unfold pullConcreteWrites
    split
    · rename_i j v hj hv
      have hjlt : j < contents.length := hi (index, value) (by simp) j hj
      rw [if_pos hjlt]
      obtain ⟨contents', rest, heq, hlen, hmem, hlook⟩ := ih (contents.set j v) (fun u hu => hw u (by simp [hu]))
        fun u hu v hc => by
          rw [List.length_set]
          exact hi u (by simp [hu]) v hc
      rw [List.length_set] at hlen hlook
      refine ⟨contents', rest, heq, hlen, fun u hu => by simp [hmem u hu], fun m i hilt => ?_⟩
      rw [hlook m i hilt, List.reverse_cons, ExprTheory.lookup_append]
      -- the first write is now in the contents
      apply lookup_congr
      have hvlt : v < 256 := by
        have := T.eval_lt m value
        rwa [hw (index, value) (by simp), T.eval_of_constant? hv m] at this
      simp only [ExprTheory.lookup, T.eval_of_constant? hj m, T.eval_of_constant? hv m, List.getD_eq_getElem?_getD]
      by_cases hji : j = i
      · rw [if_pos hji, ← hji, List.getElem?_set_self hjlt, Option.getD_some, Nat.mod_eq_of_lt hvlt]
      · rw [if_neg hji, List.getElem?_set_ne hji]
    · exact ⟨contents, _, rfl, rfl, fun _ hu => hu, fun _ _ _ => rfl⟩

theorem getUpdates_spec {os : ObjectState A} (h : os.Coherent) :
    ∃ root os', os.getUpdates = some (root, os') ∧ os'.updates.root = some root ∧ os.Keeps os' ∧
      (∀ i < os.size, ∀ m, os'.updates.byte m i = os.updates.byte m i) ∧
      ∀ m, ∀ i < os.size, os'.content m i = os.content m i := by
  unfold getUpdates
  cases hroot : os.updates.root with
  | some root => exact ⟨root, os, rfl, hroot, Keeps.refl h, fun _ _ _ => rfl, fun _ _ _ => rfl⟩
  | none =>
    obtain ⟨contents, rest, heq, hlen, hmem, hlook⟩ := pullConcreteWrites_spec (List.replicate os.size 0)
      os.updates.head.reverse (fun u hu => (h.width u (List.mem_reverse.1 hu)).2)
      fun u hu v hv => by simpa using h.index_lt u (List.mem_reverse.1 hu) v hv
    rw [List.length_replicate] at hlen hlook
    simp only [heq, Option.bind_eq_bind, Option.bind_some]
    have hbyte : ∀ i < os.size, ∀ m,
        UpdateList.byte (A := A) ⟨some (A.constArray contents), rest.reverse⟩ m i = os.updates.byte m i := by
      intro i hi m
      unfold UpdateList.byte
      have hl := hlook m i hi
      rw [List.reverse_reverse] at hl
      rw [hroot]
      refine (lookup_congr ?_).trans (hl.trans (lookup_congr ?_))
      · exact A.byte_constArray m contents i
      · simp [List.getD_eq_getElem?_getD, hi]
    have hagree : ∀ i < os.size, AgreesAt os
        { os with updates := ⟨some (A.constArray contents), rest.reverse⟩ } i := fun i hi =>
      ⟨rfl, rfl, rfl, rfl, hbyte i hi⟩
    have hrest : ∀ u ∈ rest.reverse, u ∈ os.updates.head := fun u hu =>
      List.mem_reverse.1 (hmem u (List.mem_reverse.1 hu))
    refine ⟨_, _, rfl, rfl, ⟨⟨h.size_lt, ?_, ?_, ?_, ?_⟩, rfl, rfl⟩, hbyte, fun m i hi => (hagree i hi).content m⟩
    · exact fun i hi => (hagree i hi).coherent (h.byte i hi)
    · exact fun u hu => h.width u (hrest u hu)
    · exact fun u hu => h.index_lt u (hrest u hu)
    · intro a ha
      obtain rfl := Option.some.inj ha
      simp [hlen]

structure Reads (os os' : ObjectState A) : Prop extends os.Keeps os' where
  bytes : ∀ m, os'.bytes m = os.bytes m

theorem Reads.trans {os₁ os₂ os₃ : ObjectState A} (h : os₁.Reads os₂) (h' : os₂.Reads os₃) : os₁.Reads os₃ :=
  ⟨h.toKeeps.trans h'.toKeeps, fun m => (h'.bytes m).trans (h.bytes m)⟩

theorem readUpdates_spec {os : ObjectState A} (h : os.Coherent) (index : T.Expr) :
    ∃ e os', os.readUpdates index = some (e, os') ∧ os.Reads os' ∧ T.width e = 8 ∧
      ∀ m, T.eval m index < os.size → T.eval m e = os.updates.byte m (T.eval m index) := by
  obtain ⟨root, os', heq, hroot, hk, hbyte, hcontent⟩ := getUpdates_spec h
  unfold readUpdates
  rw [heq]
  refine ⟨_, _, rfl, ⟨hk, fun m => bytes_congr hk.size (hcontent m)⟩, by simp, fun m hm => ?_⟩
  rw [A.eval_read m (fun u hu => (hk.coherent.width u hu).2)
    (by rwa [hk.coherent.root root hroot, hk.size]), ← hbyte _ hm m]
  simp [UpdateList.byte, hroot]

theorem read8_spec {os : ObjectState A} (h : os.Coherent) {i : Nat} (hi : i < os.size) :
    ∃ e os', os.read8 i = some (e, os') ∧ os.Reads os' ∧ T.width e = 8 ∧
      ∀ m, T.eval m e = (os.bytes m).getD i 0 := by
  obtain ⟨hconcrete, hknown⟩ := cached_byte h hi
  simp only [getD_bytes hi]
  unfold read8
  by_cases hc : os.isByteConcrete i = true
  · rw [if_pos hc]
    exact ⟨_, _, rfl, ⟨Keeps.refl h, fun _ => rfl⟩, hconcrete hc⟩
  · rw [if_neg hc]
    cases hk : os.knownSymbolic i with
    | some e => exact ⟨_, _, rfl, ⟨Keeps.refl h, fun _ => rfl⟩, hknown (Bool.eq_false_iff.2 hc) e hk⟩
    | none =>
      have hu : ¬os.isByteUnflushed i = true := fun hu => by
        have := (h.byte i hi).cached hu
        simp [hc, hk] at this
      simp only [if_neg hu]
      obtain ⟨e, os', heq, hr, hw, hv⟩ := readUpdates_spec h (T.const i 32)
      refine ⟨e, os', heq, hr, hw, fun m => ?_⟩
      have hidx : T.eval m (T.const i 32) = i := by
        rw [ExprTheory.eval_const, Nat.mod_eq_of_lt (hi.trans h.size_lt)]
      rw [hv m (by rwa [hidx]), hidx]
      exact ((h.byte i hi).flushed (Bool.eq_false_iff.2 hu) m).symm

theorem read8Symbolic_spec {os : ObjectState A} (h : os.Coherent) {offset : T.Expr} (hc : T.constant? offset = none) :
    ∃ e os', os.read8Symbolic offset = some (e, os') ∧ os.Reads os' ∧ T.width e = 8 ∧
      ∀ m, T.eval m offset % 2 ^ 32 < os.size → T.eval m e = (os.bytes m).getD (T.eval m offset % 2 ^ 32) 0 := by
  obtain ⟨os₁, h₁, hf, hu⟩ := flushRangeForRead_spec h
  obtain ⟨e, os₂, h₂, hr, hw, hv⟩ := readUpdates_spec hf.coherent (T.zext offset 32)
  have hfr : os.Reads os₁ := ⟨hf.toKeeps, hf.bytes⟩
  refine ⟨e, os₂, ?_, hfr.trans hr, hw, fun m hm => ?_⟩
  · simp [read8Symbolic, hc, h₁, h₂]
  · have hvm := hv m
    rw [T.eval_zext, hf.size] at hvm
    rw [hvm hm, getD_bytes hm, ← hf.content m _ hm]
    exact ((hf.coherent.byte _ (hf.size ▸ hm)).flushed (hu _ hm) m).symm

private theorem bytes_set (os os' : ObjectState A) {m : T.Model} (hs : os'.size = os.size) {p v : Nat}
    (h : ∀ j < os.size, os'.content m j = if j = p then v else os.content m j) :
    os'.bytes m = (os.bytes m).set p v := by
  apply List.ext_getElem
  · simp [hs]
  · intro j hj hj'
    have hjs : j < os.size := by simpa using hj'
    rw [List.getElem_set]
    simp only [ObjectState.bytes, List.getElem_map, List.getElem_range, h j hjs, eq_comm]

private theorem cache_spec (os os' : ObjectState A) (h : os.Coherent) {i : Nat} {c : Bool} {k : Option T.Expr}
    (hs : os'.size = os.size) (hr : os'.readOnly = os.readOnly) (hup : os'.updates = os.updates)
    (hstore : ∀ j, j ≠ i → os'.concreteStore j = os.concreteStore j)
    (hlt : i < os.size → os'.concreteStore i < 256)
    (hc : ∀ j, os'.isByteConcrete j = if j = i then c else os.isByteConcrete j)
    (hk : ∀ j, os'.knownSymbolic j = if j = i then k else os.knownSymbolic j)
    (hu : ∀ j, os'.isByteUnflushed j = if j = i then true else os.isByteUnflushed j)
    (hck : c = !k.isSome) (hw : ∀ e ∈ k, T.width e = 8) :
    os.Keeps os' ∧ ∀ m, os'.bytes m = (os.bytes m).set i (os'.content m i) := by
  have hother : ∀ j, j ≠ i → AgreesAt os os' j := fun j hj =>
    ⟨by rw [hc, if_neg hj], by rw [hk, if_neg hj], by rw [hu, if_neg hj], hstore j hj, fun m => by rw [hup]⟩
  refine ⟨h.change hs hr (fun j _ hj => hother j hj) (fun hi => ?_) (by rw [hup]) ?_, fun m => ?_⟩
  · refine ⟨?_, ?_, ?_, hlt hi, by simp [hu]⟩
    · simp [hc, hk, hck]
    · cases k <;> simp [hc, hk, hck]
    · intro e he
      exact hw e (by simpa [hk] using he)
  · intro u hmem
    rw [hup] at hmem
    exact .inl hmem
  · refine bytes_set os os' hs fun j _ => ?_
    by_cases hj : j = i
    · rw [if_pos hj, hj]
    · rw [if_neg hj]
      exact (hother j hj).content m

theorem write8Concrete_spec {os : ObjectState A} (h : os.Coherent) (i value : Nat) :
    os.Keeps (os.write8Concrete i value) ∧
      ∀ m, (os.write8Concrete i value).bytes m = (os.bytes m).set i (value % 256) := by
  obtain ⟨known, heq, hk⟩ := setKnownSymbolic_spec
    { os with concreteStore := Function.update os.concreteStore i (value % 256) } i none
  have hw : os.write8Concrete i value =
      { os with
        concreteStore := Function.update os.concreteStore i (value % 256)
        concreteMask := os.concreteMask.map (Function.update · i true)
        knownSymbolics := known
        unflushedMask := os.unflushedMask.map (Function.update · i true) } := by
    simp only [write8Concrete, heq, markByteConcrete, markByteUnflushed]
  have hc : ∀ j, (os.write8Concrete i value).isByteConcrete j = if j = i then true else os.isByteConcrete j := by
    intro j
    rw [hw]
    exact isByteConcrete_markByteConcrete os i j
  have hstore : (os.write8Concrete i value).concreteStore i = value % 256 := by simp [hw]
  obtain ⟨hkeep, hbytes⟩ := cache_spec os (os.write8Concrete i value) h (c := true) (k := none)
    (by rw [hw]) (by rw [hw]) (by rw [hw]) (fun j hj => by simp [hw, Function.update_of_ne hj])
    (fun _ => hstore ▸ Nat.mod_lt _ (by decide)) hc hk
    (fun j => by rw [hw]; exact isByteUnflushed_markByteUnflushed os i j) rfl (by simp)
  refine ⟨hkeep, fun m => ?_⟩
  rw [hbytes, ObjectState.content, hc, if_pos rfl, if_pos rfl, hstore]

theorem write8_spec {os : ObjectState A} (h : os.Coherent) (i : Nat) {value : T.Expr} (hv : T.width value = 8) :
    os.Keeps (os.write8 i value) ∧ ∀ m, (os.write8 i value).bytes m = (os.bytes m).set i (T.eval m value) := by
  unfold write8
  cases hc : T.constant? value with
  | some v =>
    refine ⟨(write8Concrete_spec h i v).1, fun m => ?_⟩
    have hlt : v < 256 := by
      have hv' := T.eval_lt m value
      rwa [hv, T.eval_of_constant? hc m] at hv'
    simp only [(write8Concrete_spec h i v).2, T.eval_of_constant? hc m, Nat.mod_eq_of_lt hlt]
  | none =>
    obtain ⟨known, heq, hk⟩ := setKnownSymbolic_spec os i (some value)
    have hk' : ∀ j, ({ os with knownSymbolics := known } : ObjectState A).knownSymbolic j =
        if j = i then some value else os.knownSymbolic j := heq ▸ hk
    simp only [heq]
    obtain ⟨hkeep, hbytes⟩ := cache_spec os
      ((({ os with knownSymbolics := known } : ObjectState A).markByteSymbolic i).markByteUnflushed i) h
      (c := false) (k := some value) rfl rfl rfl (fun _ _ => rfl) (fun hi => (h.byte i hi).store_lt)
      (isByteConcrete_markByteSymbolic os i) hk' (isByteUnflushed_markByteUnflushed os i) rfl (by simpa using hv)
    refine ⟨hkeep, fun m => ?_⟩
    rw [hbytes]
    congr 1
    have hknown := (hk' i).trans (if_pos rfl)
    have hconcrete := (isByteConcrete_markByteSymbolic os i i).trans (if_pos rfl)
    refine (if_neg (Bool.eq_false_iff.1 hconcrete)).trans ?_
    exact congrArg (Option.elim · _ _) hknown

theorem write8Symbolic_spec {os : ObjectState A} (h : os.Coherent) {offset value : T.Expr}
    (hc : T.constant? offset = none) (hv : T.width value = 8) (hin : ∃ m, T.eval m offset % 2 ^ 32 < os.size) :
    ∃ os', os.write8Symbolic offset value = some os' ∧ os.Keeps os' ∧
      ∀ m, os'.bytes m = (os.bytes m).set (T.eval m offset % 2 ^ 32) (T.eval m value) := by
  obtain ⟨os₁, h₁, hf, hu⟩ := flushRangeForWrite_spec h
  have hext : os₁.updates.extend (T.zext offset 32) value =
      some ⟨os₁.updates.root, (T.zext offset 32, value) :: os₁.updates.head⟩ := by
    simp [UpdateList.extend, hv]
  have hbyte : ∀ m j, UpdateList.byte (A := A) ⟨os₁.updates.root, (T.zext offset 32, value) :: os₁.updates.head⟩ m j =
      if T.eval m offset % 2 ^ 32 = j then T.eval m value else os₁.updates.byte m j := by
    intro m j
    unfold UpdateList.byte
    rw [ExprTheory.lookup, T.eval_zext]
  refine ⟨{ os₁ with updates := ⟨os₁.updates.root, (T.zext offset 32, value) :: os₁.updates.head⟩ }, ?_, ?_, ?_⟩
  · simp [write8Symbolic, hc, h₁, hext]
  · have hc₁ := hf.coherent
    refine ⟨⟨hc₁.size_lt, ?_, ?_, ?_, hc₁.root⟩, hf.size, hf.readOnly⟩
    · -- no byte is cached
      intro j hj
      obtain ⟨hju, hjc, hjk⟩ := hu j (hf.size ▸ hj)
      have hb := hc₁.byte j hj
      refine ⟨hb.exclusive, hb.cached, hb.width, hb.store_lt, fun _ m => ?_⟩
      have hjc' : ¬os₁.isByteConcrete j = true := by simp [hjc]
      refine (if_neg hjc').trans ?_
      exact congrArg (Option.elim · _ _) hjk
    · intro u hmem
      rcases List.mem_cons.1 hmem with rfl | hmem
      · exact ⟨by simp, hv⟩
      · exact hc₁.width u hmem
    · intro u hmem v hcv
      rcases List.mem_cons.1 hmem with rfl | hmem
      · obtain ⟨m, hm⟩ := hin
        rw [← T.eval_of_constant? hcv m, T.eval_zext]
        exact hf.size ▸ hm
      · exact hc₁.index_lt u hmem v hcv
  · intro m
    rw [← hf.bytes m]
    refine bytes_set os₁ _ (by rfl) fun j hj => ?_
    obtain ⟨-, hjc, hjk⟩ := hu j (hf.size ▸ hj)
    have hcontent : ∀ ul : UpdateList A, ObjectState.content { os₁ with updates := ul } m j = ul.byte m j := by
      intro ul
      have hjc' : ¬os₁.isByteConcrete j = true := by simp [hjc]
      exact (if_neg hjc').trans (congrArg (Option.elim · _ _) hjk)
    rw [hcontent, hbyte]
    refine if_congr eq_comm rfl ?_
    exact (hcontent os₁.updates).symm

end ObjectState

end CgsKlee
