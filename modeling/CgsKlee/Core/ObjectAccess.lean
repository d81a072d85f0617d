import CgsKlee.Core.ObjectContents

/-!
# Loads and stores of object states

A read of an object state at an offset in bounds has the value that a load of its byte array has, and a write makes
its byte array that of the store, for either endianness and for constant and symbolic offsets.
-/

namespace CgsKlee

open Symbolic FlatMemory

variable {T : ExprTheory} {A : ArrayTheory T}

theorem bytesForWidth_one : bytesForWidth 1 = 1 := rfl

theorem bytesForWidth_mul (n : Nat) : bytesForWidth (8 * n) = n := by
  unfold bytesForWidth
  omega

theorem bytesForWidth_pos {w : Nat} (h : ByteSized w) : 0 < bytesForWidth w := by
  rcases h with rfl | ⟨n, hn, rfl⟩
  · decide
  · rwa [bytesForWidth_mul]

namespace ObjectState

private def ReadsByte (byteAt : ObjectState A → Nat → Option (T.Expr × ObjectState A)) (pos : T.Model → Nat → Nat)
    (size n : Nat) : Prop :=
  ∀ os : ObjectState A, os.Coherent → os.size = size → ∀ i < n, ∃ e os', byteAt os i = some (e, os') ∧ os.Reads os' ∧
    T.width e = 8 ∧ ∀ m, pos m i < size → T.eval m e = (os.bytes m).getD (pos m i) 0

variable {os : ObjectState A} {offset value : T.Expr}

private theorem readBytes_spec (byteAt : ObjectState A → Nat → Option (T.Expr × ObjectState A))
    (pos : T.Model → Nat → Nat) (h : os.Coherent) (n : Nat)
    (hb : ReadsByte byteAt pos os.size (n + 1)) :
    ∃ e os', readBytes byteAt (n + 1) os = some (e, os') ∧ os.Reads os' ∧ T.width e = 8 * (n + 1) ∧
      ∀ m, (∀ i < n + 1, pos m i < os.size) →
        T.eval m e = wordOf (fun i => (os.bytes m).getD (pos m i) 0) (n + 1) := by
  induction n with
  | zero =>
    obtain ⟨e, os', heq, hr, hw, hv⟩ := hb os h rfl 0 (by omega)
    refine ⟨e, os', heq, hr, hw, fun m hm => ?_⟩
    rw [hv m (hm 0 (by omega))]
    simp [wordOf]
  | succ n ih =>
    obtain ⟨res, os₁, h₁, hr₁, hw₁, hv₁⟩ := ih fun os h hs i hi => hb os h hs i (by omega)
    obtain ⟨byte, os₂, h₂, hr₂, hw₂, hv₂⟩ := hb os₁ hr₁.coherent hr₁.size (n + 1) (by omega)
    refine ⟨T.concat byte res, os₂, ?_, hr₁.trans hr₂, ?_, fun m hm => ?_⟩
    · simp [readBytes, h₁, h₂]
    · rw [T.width_concat, hw₁, hw₂]
      omega
    · rw [T.eval_concat, hw₁, hv₂ m (hm _ (by omega)), hv₁ m fun i hi => hm i (by omega), hr₁.bytes]
      rfl

private theorem readWidth_spec (byteAt : ObjectState A → Nat → Option (T.Expr × ObjectState A))
    (pos : T.Model → Nat → Nat) (ctx : Context) (h : os.Coherent) {w : Nat} (hw : ByteSized w)
    (hb : ReadsByte byteAt pos os.size (bytesForWidth w)) :
    ∃ e os', readWidth byteAt ctx os w = some (e, os') ∧ os.Reads os' ∧ T.width e = w ∧
      ∀ m off, off + bytesForWidth w ≤ os.size → (∀ i < bytesForWidth w, pos m i = off + i) →
        T.eval m e = load ctx.isLittleEndian (os.bytes m) off w := by
  rcases hw with rfl | ⟨n, hn, rfl⟩
  · obtain ⟨e, os', heq, hr, -, hv⟩ := hb os h rfl 0 (by decide)
    refine ⟨T.extract e 0 1, os', ?_, hr, by simp, fun m off hoff hpos => ?_⟩
    · simp [readWidth, heq]
    · rw [bytesForWidth_one] at hoff hpos
      rw [T.eval_extract, hv m (by rw [hpos 0 (by omega)]; omega), hpos 0 (by omega)]
      simp [load]
  · rw [bytesForWidth_mul] at hb ⊢
    obtain ⟨k, rfl⟩ : ∃ k, n = k + 1 := ⟨n - 1, by omega⟩
    have hdiv : 8 * (k + 1) / 8 = k + 1 := by omega
    obtain ⟨e, os', heq, hr, hwe, hv⟩ := readBytes_spec
      (fun os i => byteAt os (byteIndex ctx.isLittleEndian (k + 1) i))
      (fun m i => pos m (byteIndex ctx.isLittleEndian (k + 1) i)) h k fun os h hs i hi => hb os h hs _ (byteIndex_lt _ hi)
    refine ⟨e, os', ?_, hr, hwe, fun m off hoff hpos => ?_⟩
    · unfold readWidth
      rw [if_neg (by omega), hdiv, if_pos (by omega)]
      exact heq
    · have hp : ∀ i < k + 1, pos m (byteIndex ctx.isLittleEndian (k + 1) i) =
          off + byteIndex ctx.isLittleEndian (k + 1) i := fun i hi => hpos _ (byteIndex_lt _ hi)
      rw [hv m fun i hi => by
        have := byteIndex_lt ctx.isLittleEndian hi
        rw [hp i hi]
        omega]
      unfold load
      rw [if_neg (by omega), hdiv]
      exact wordOf_congr fun i hi => by rw [hp i hi]

private theorem eval_offsetExpr {m : T.Model} {w i size : Nat} (hs : size < 2 ^ 32)
    (hm : T.eval m offset + bytesForWidth w ≤ size) (hi : i < bytesForWidth w) :
    T.eval m (offsetExpr (T.zext offset 32) w i) % 2 ^ 32 = T.eval m offset + i := by
  unfold offsetExpr
  split
  · rename_i hone
    rw [hone, bytesForWidth_one] at hi
    rw [T.eval_zext]
    omega
  · rw [T.eval_add m (by simp), T.eval_zext, ExprTheory.eval_const, T.width_zext]
    omega

private theorem constant?_offsetExpr (h : T.constant? offset = none) (w i : Nat) :
    T.constant? (offsetExpr offset w i) = none := by
  unfold offsetExpr
  split
  · exact h
  · exact T.constant?_add_const h

theorem readAt_spec (ctx : Context) (h : os.Coherent) {offset w : Nat} (hw : ByteSized w)
    (hin : offset + bytesForWidth w ≤ os.size) :
    ∃ e os', os.readAt ctx offset w = some (e, os') ∧ os.Reads os' ∧ T.width e = w ∧
      ∀ m, T.eval m e = load ctx.isLittleEndian (os.bytes m) offset w := by
  obtain ⟨e, os', heq, hr, hwe, hval⟩ := readWidth_spec (fun os i => os.read8 (offset + i)) (fun _ i => offset + i)
    ctx h hw fun os' h' hs i hi => by
      obtain ⟨e, os₂, h₂, hr, hwe, hval⟩ := read8_spec h' (i := offset + i) (by omega)
      exact ⟨e, os₂, h₂, hr, hwe, fun m _ => hval m⟩
  exact ⟨e, os', heq, hr, hwe, fun m => hval m offset hin fun _ _ => rfl⟩

/-- A read at an offset that is in bounds in some model succeeds, and in all models in which it is in bounds the value
is that of the load. -/
theorem read_spec (ctx : Context) (h : os.Coherent) {w : Nat} (hw : ByteSized w)
    (hin : ∃ m, T.eval m offset + bytesForWidth w ≤ os.size) :
    ∃ e os', os.read ctx offset w = some (e, os') ∧ os.Reads os' ∧ T.width e = w ∧
      ∀ m, T.eval m offset + bytesForWidth w ≤ os.size →
        T.eval m e = load ctx.isLittleEndian (os.bytes m) (T.eval m offset) w := by
  have hsize := h.size_lt
  unfold read
  cases hc : T.constant? (T.zext offset 32) with
  | some v =>
    have hv : ∀ m, T.eval m offset + bytesForWidth w ≤ os.size → T.eval m offset = v := by
      intro m hm
      have hz := T.eval_of_constant? hc m
      rw [T.eval_zext] at hz
      omega
    obtain ⟨m₀, hm₀⟩ := hin
    obtain ⟨e, os', heq, hr, hwe, hval⟩ := readAt_spec ctx h hw (hv m₀ hm₀ ▸ hm₀)
    refine ⟨e, os', by simp only [hc, heq], hr, hwe, fun m hm => ?_⟩
    rw [hv m hm]
    exact hval m
  | none =>
    obtain ⟨e, os', heq, hr, hwe, hval⟩ := readWidth_spec
      (fun os i => os.read8Symbolic (offsetExpr (T.zext offset 32) w i))
      (fun m i => T.eval m (offsetExpr (T.zext offset 32) w i) % 2 ^ 32) ctx h hw fun os' h' hs i hi => by
        obtain ⟨e, os₂, h₂, hr, hwe, hval⟩ := read8Symbolic_spec h' (constant?_offsetExpr hc w i)
        exact ⟨e, os₂, h₂, hr, hwe, fun m hm => hval m (hs ▸ hm)⟩
    exact ⟨e, os', by simp only [hc, heq], hr, hwe, fun m hm => hval m _ hm fun i hi => eval_offsetExpr hsize hm hi⟩

private theorem writeBytes_spec (writeByte : ObjectState A → Nat → Option (ObjectState A)) (pos : T.Model → Nat → Nat)
    (value : T.Model → Nat) (h : os.Coherent) (n : Nat)
    (hb : ∀ os₁ : ObjectState A, os₁.Coherent → os₁.size = os.size → ∀ i < n, ∃ os₂, writeByte os₁ i = some os₂ ∧
      os₁.Keeps os₂ ∧ ∀ m, os₂.bytes m = (os₁.bytes m).set (pos m i) (byteOf (value m) i)) :
    ∃ os', writeBytes writeByte n os = some os' ∧ os.Keeps os' ∧
      ∀ m, os'.bytes m = writeWord (os.bytes m) (pos m) (value m) n := by
  induction n with
  | zero => exact ⟨os, rfl, Keeps.refl h, fun _ => rfl⟩
  | succ n ih =>
    obtain ⟨os₁, h₁, hk₁, hv₁⟩ := ih fun os h hs i hi => hb os h hs i (by omega)
    obtain ⟨os₂, h₂, hk₂, hv₂⟩ := hb os₁ hk₁.coherent hk₁.size n (by omega)
    refine ⟨os₂, by simp [writeBytes, h₁, h₂], hk₁.trans hk₂, fun m => ?_⟩
    rw [hv₂, hv₁]
    rfl

private theorem writeWord_congr {bytes : List Nat} {p q : Nat → Nat} {value n : Nat} (h : ∀ i < n, p i = q i) :
    writeWord bytes p value n = writeWord bytes q value n := by
  induction n with
  | zero => rfl
  | succ n ih => rw [writeWord, writeWord, ih fun i hi => h i (by omega), h n (Nat.lt_succ_self n)]

private def storeAt (ctx : Context) (bytes : List Nat) (pos : Nat → Nat) (w value : Nat) : List Nat :=
  if w = 1 then bytes.set (pos 0) value
  else writeWord bytes (fun i => pos (byteIndex ctx.isLittleEndian (w / 8) i)) value (w / 8)

private theorem storeAt_eq (ctx : Context) {bytes : List Nat} {pos : Nat → Nat} {w value off : Nat} (hw : ByteSized w)
    (h : ∀ i < bytesForWidth w, pos i = off + i) :
    storeAt ctx bytes pos w value = store ctx.isLittleEndian bytes off w value := by
  rcases hw with rfl | ⟨n, hn, rfl⟩
  · have h0 := h 0 (by decide)
    simp [storeAt, store, h0]
  · rw [bytesForWidth_mul] at h
    unfold storeAt store
    have hdiv : 8 * n / 8 = n := by omega
    rw [if_neg (by omega), if_neg (by omega), hdiv]
    exact writeWord_congr fun i hi => h _ (byteIndex_lt _ hi)

private theorem writeWidth_spec (writeByte : ObjectState A → Nat → T.Expr → Option (ObjectState A))
    (pos : T.Model → Nat → Nat) (ctx : Context) (h : os.Coherent)
    (hw : ByteSized (T.width value))
    (hb : ∀ os₁ : ObjectState A, os₁.Coherent → os₁.size = os.size → ∀ i < bytesForWidth (T.width value),
      ∀ e, T.width e = 8 → ∃ os₂, writeByte os₁ i e = some os₂ ∧ os₁.Keeps os₂ ∧
        ∀ m, os₂.bytes m = (os₁.bytes m).set (pos m i) (T.eval m e)) :
    ∃ os', writeWidth writeByte ctx os value = some os' ∧ os.Keeps os' ∧
      ∀ m, os'.bytes m = storeAt ctx (os.bytes m) (pos m) (T.width value) (T.eval m value) := by
  unfold writeWidth storeAt
  rcases hw with hone | ⟨n, hn, hwn⟩
  · have hpos : 0 < bytesForWidth (T.width value) := by
      rw [hone]
      decide
    obtain ⟨os', heq, hk, hv⟩ := hb os h rfl 0 hpos (T.zext value 8) (by simp)
    refine ⟨os', by simp [hone, heq], hk, fun m => ?_⟩
    have hlt := T.eval_lt m value
    rw [hone] at hlt
    rw [hv, T.eval_zext, if_pos hone, Nat.mod_eq_of_lt (by omega)]
  · have hdiv : T.width value / 8 = n := by omega
    have hbytes : bytesForWidth (T.width value) = n := by
      rw [hwn]
      exact bytesForWidth_mul n
    obtain ⟨os', heq, hk, hv⟩ := writeBytes_spec
      (fun os i => writeByte os (byteIndex ctx.isLittleEndian n i) (T.extract value (8 * i) 8))
      (fun m i => pos m (byteIndex ctx.isLittleEndian n i)) (fun m => T.eval m value) h n fun os₁ h₁ hs i hi => by
        obtain ⟨os₂, h₂, hk, hv⟩ := hb os₁ h₁ hs (byteIndex ctx.isLittleEndian n i)
          (by rw [hbytes]; exact byteIndex_lt _ hi) (T.extract value (8 * i) 8) (by simp)
        exact ⟨os₂, h₂, hk, fun m => by rw [hv, T.eval_extract]; rfl⟩
    refine ⟨os', ?_, hk, fun m => ?_⟩
    · simp only [hdiv]
      rw [if_neg (by omega), if_pos (by omega)]
      exact heq
    · rw [if_neg (by omega), hdiv]
      exact hv m

private theorem writeConcrete_spec (ctx : Context) (h : os.Coherent) (n offset value : Nat) :
    ∃ os', writeConcrete ctx n os offset value = some os' ∧ os.Keeps os' ∧
      ∀ m, os'.bytes m = writeWord (os.bytes m) (fun i => offset + byteIndex ctx.isLittleEndian n i) value n :=
  writeBytes_spec _ (fun _ i => offset + byteIndex ctx.isLittleEndian n i) (fun _ => value) h n fun os₁ h₁ _ i _ => by
    obtain ⟨hk, hv⟩ := write8Concrete_spec h₁ (offset + byteIndex ctx.isLittleEndian n i) (byteOf value i)
    refine ⟨_, rfl, hk, fun m => ?_⟩
    rw [hv, byteOf, Nat.mod_mod]

private theorem writeConcrete_storeAt (ctx : Context) (h : os.Coherent) {n offset v : Nat} (hc : T.constant? value = some v) (hw : T.width value = 8 * n) :
    ∃ os', writeConcrete ctx n os offset v = some os' ∧ os.Keeps os' ∧
      ∀ m, os'.bytes m = storeAt ctx (os.bytes m) (fun i => offset + i) (T.width value) (T.eval m value) := by
  obtain ⟨os', heq, hk, hv⟩ := writeConcrete_spec ctx h n offset v
  have hdiv : T.width value / 8 = n := by omega
  refine ⟨os', heq, hk, fun m => ?_⟩
  rw [hv, storeAt, if_neg (by omega), hdiv, T.eval_of_constant? hc m]

private theorem writeAt_storeAt (ctx : Context) (h : os.Coherent) (offset : Nat)
    (hw : ByteSized (T.width value)) :
    ∃ os', os.writeAt ctx offset value = some os' ∧ os.Keeps os' ∧
      ∀ m, os'.bytes m = storeAt ctx (os.bytes m) (fun i => offset + i) (T.width value) (T.eval m value) := by
  have hwidth : T.width value = 1 ∨ 8 ∣ T.width value := by
    rcases hw with h1 | ⟨n, -, hn⟩
    · exact .inl h1
    · exact .inr ⟨n, hn⟩
  unfold writeAt
  split
  · rename_i v hc h1
    obtain ⟨hk, hv⟩ := write8Concrete_spec h offset v
    refine ⟨_, rfl, hk, fun m => ?_⟩
    have hlt := T.eval_lt m value
    rw [h1, T.eval_of_constant? hc m] at hlt
    rw [hv, storeAt, if_pos h1, T.eval_of_constant? hc m, Nat.mod_eq_of_lt (by omega), Nat.add_zero]
  · omega
  · omega
  · rename_i v hc h8
    obtain ⟨hk, hv⟩ := write8Concrete_spec h offset v
    refine ⟨_, rfl, hk, fun m => ?_⟩
    rw [hv, storeAt, if_neg (by omega), h8, T.eval_of_constant? hc m]
    simp [writeWord, byteOf, byteIndex]
  · rename_i v hc h16
    exact writeConcrete_storeAt ctx h hc h16
  · rename_i v hc h32
    exact writeConcrete_storeAt ctx h hc h32
  · rename_i v hc h64
    exact writeConcrete_storeAt ctx h hc h64
  · exact writeWidth_spec _ (fun _ i => offset + i) ctx h hw fun os₁ h₁ _ i _ e he =>
      ⟨_, rfl, write8_spec h₁ (offset + i) he⟩

theorem writeAt_spec (ctx : Context) (h : os.Coherent) (offset : Nat)
    (hw : ByteSized (T.width value)) :
    ∃ os', os.writeAt ctx offset value = some os' ∧ os.Keeps os' ∧
      ∀ m, os'.bytes m = store ctx.isLittleEndian (os.bytes m) offset (T.width value) (T.eval m value) := by
  obtain ⟨os', heq, hk, hv⟩ := writeAt_storeAt ctx h offset hw
  exact ⟨os', heq, hk, fun m => (hv m).trans (storeAt_eq ctx hw fun _ _ => rfl)⟩

/-- A write at an offset that is in bounds in some model succeeds, and in all models in which it is in bounds the
bytes are those after the store. -/
theorem write_spec (ctx : Context) (h : os.Coherent)
    (hw : ByteSized (T.width value)) (hin : ∃ m, T.eval m offset + bytesForWidth (T.width value) ≤ os.size) :
    ∃ os', os.write ctx offset value = some os' ∧ os.Keeps os' ∧
      ∀ m, T.eval m offset + bytesForWidth (T.width value) ≤ os.size →
        os'.bytes m = store ctx.isLittleEndian (os.bytes m) (T.eval m offset) (T.width value) (T.eval m value) := by
  have hsize := h.size_lt
  unfold write
  cases hc : T.constant? (T.zext offset 32) with
  | some v =>
    obtain ⟨os', heq, hk, hv⟩ := writeAt_spec ctx h v hw
    refine ⟨os', by simp only [hc, heq], hk, fun m hm => ?_⟩
    have hvm : T.eval m offset = v := by
      have hz := T.eval_of_constant? hc m
      rw [T.eval_zext] at hz
      omega
    rw [hv, hvm]
  | none =>
    obtain ⟨m₀, hm₀⟩ := hin
    obtain ⟨os', heq, hk, hv⟩ := writeWidth_spec
      (fun os i e => os.write8Symbolic (offsetExpr (T.zext offset 32) (T.width value) i) e)
      (fun m i => T.eval m (offsetExpr (T.zext offset 32) (T.width value) i) % 2 ^ 32) ctx h hw
      fun os₁ h₁ hs i hi e he => write8Symbolic_spec h₁ (constant?_offsetExpr hc _ i) he ⟨m₀, by
        rw [eval_offsetExpr hsize hm₀ hi, hs]
        omega⟩
    refine ⟨os', by simp only [hc, heq], hk, fun m hm => ?_⟩
    rw [hv]
    exact storeAt_eq ctx hw fun i hi => eval_offsetExpr hsize hm hi

end ObjectState

end CgsKlee
