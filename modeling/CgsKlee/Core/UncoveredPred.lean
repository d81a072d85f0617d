import CgsKlee.Core.Types
import CgsKlee.Lib.TruncatedCompare
import Mathlib.Data.List.Induction

/-!
# The uncovered side of a branch

Three places of the source have to agree on what it takes to cover the other side of a `br` on a comparison of a
variable with a constant: `Executor::setModule` loads the predicate of the comparison and drops its sign
(`BDDep.ofBr`), the `br` handler of `Executor::executeInstruction` turns the predicate and the values it sees into
the predicate of the side that was not taken (`BDDep.record`, two tables, one for each position of the constant),
and `CGSSearcher::isNewStoreValue` compares stored values with the constant under that predicate (`BDDep.findNew`).
All values are cut to a C `int` on the way (`signedOf`).

The main result `uncoveredSide_iff` says exactly when the three places together single out the values that take the
other side.  Every `record` with the constant on the left also reverses the stored predicate, so the number of
earlier recordings of the branch matters.
-/

namespace CgsKlee

open TruncatedCompare

/-- `(signed)(CE->getZExtValue())`. -/
def signedOf {w : Nat} (x : BitVec w) : Signed := (x.setWidth 64).setWidth 32

def Pred.getUnsignedPredicate : Pred → Pred
  | .sgt => .ugt
  | .sge => .uge
  | .slt => .ult
  | .sle => .ule
  | p => p

/-- The `ICmp` case of `Executor::executeInstruction` on constant operands. -/
def Pred.icmp {w : Nat} (p : Pred) (left right : BitVec w) : Bool :=
  match p with
  | .eq => left == right
  | .ne => left != right
  | .ugt => right.ult left
  | .uge => right.ule left
  | .ult => left.ult right
  | .ule => left.ule right
  | .sgt => right.slt left
  | .sge => right.sle left
  | .slt => left.slt right
  | .sle => left.sle right

/-- The `switch` over `unCoveredPred` in `CGSSearcher::isNewStoreValue`. -/
def Pred.holds (p : Pred) (value constant : Signed) : Bool :=
  match p with
  | .eq => value == constant
  | .ne => value != constant
  | .sgt | .ugt => decide (value.toInt > constant.toInt)
  | .slt | .ult => decide (value.toInt < constant.toInt)
  | .sge | .uge => decide (value.toInt ≥ constant.toInt)
  | .sle | .ule => decide (value.toInt ≤ constant.toInt)

/-- The table of the `br` handler for a constant on the right: `unCoveredPred` for `icmp pred c1, c2`. -/
def unCoveredRight (pred : Pred) (c1 c2 : Signed) : Pred :=
  match pred with
  | .eq => if c1 = c2 then .ne else .eq
  | .ne => if c1 ≠ c2 then .eq else .ne
  | .ugt => if c1.toInt > c2.toInt then .ule else .ugt
  | .ult => if c1.toInt < c2.toInt then .uge else .ult
  | .uge => if c1.toInt ≥ c2.toInt then .ult else .uge
  | .ule => if c1.toInt ≤ c2.toInt then .ugt else .ule
  | .sgt => if c1.toInt > c2.toInt then .sle else .sgt
  | .slt => if c1.toInt < c2.toInt then .sge else .slt
  | .sge => if c1.toInt ≥ c2.toInt then .slt else .sge
  | .sle => if c1.toInt ≤ c2.toInt then .sgt else .sle

/-- The table of the `br` handler for a constant on the left: `unCoveredPred` and the new `pred` for
`icmp pred c1, c2`. -/
def unCoveredLeft (pred : Pred) (c1 c2 : Signed) : Pred × Pred :=
  match pred with
  | .eq => (if c2 = c1 then .ne else .eq, .eq)
  | .ne => (if c2 ≠ c1 then .eq else .ne, .ne)
  | .ugt => (if c2.toInt < c1.toInt then .uge else .ult, .ult)
  | .ult => (if c2.toInt > c1.toInt then .ule else .ugt, .ugt)
  | .uge => (if c2.toInt ≤ c1.toInt then .ugt else .ule, .ule)
  | .ule => (if c2.toInt ≥ c1.toInt then .ult else .uge, .uge)
  | .sgt => (if c2.toInt < c1.toInt then .sge else .slt, .slt)
  | .slt => (if c2.toInt > c1.toInt then .sle else .sgt, .sgt)
  | .sge => (if c2.toInt ≤ c1.toInt then .sgt else .sle, .sle)
  | .sle => (if c2.toInt ≥ c1.toInt then .slt else .sge, .sge)

namespace BDDep

/-- The entry that `Executor::setModule` makes for a `br` on an `icmp` with predicate `pred`. -/
def ofBr (pred : Pred) (stores : List StoreID) : BDDep :=
  { type := .br, stores := stores, pred := pred.getUnsignedPredicate }

/-- The part of the `br` handler that records the runtime values `c1`, `c2` of the two operands and the uncovered
predicate; `const1`, `const2` say which operand is a `ConstantInt`.  Anything but exactly one constant fails an
assertion. -/
def record (d : BDDep) (const1 const2 : Bool) (c1 c2 : Signed) : Option BDDep :=
  match const1, const2 with
  | false, true =>
    some { d with var := c1, constant := c2, unCoveredPred := some (unCoveredRight d.pred c1 c2) }
  | true, false =>
    some { d with
      var := c2, constant := c1, unCoveredPred := some (unCoveredLeft d.pred c1 c2).1,
      pred := (unCoveredLeft d.pred c1 c2).2 }
  | _, _ => none

/-- The value that `CGSSearcher::isNewStoreValue` tests and caches: the recorded operation is applied to it if the
branch is a `br`. -/
def testedValue (d : BDDep) (value : Signed) : Signed :=
  match d.type, d.arithOp with
  | .br, some .and => value &&& d.arithVar
  | .br, some .or => value ||| d.arithVar
  | _, _ => value

/-- The test of `CGSSearcher::isNewStoreValue` behind its caches: whether `value` satisfies the uncovered condition
of the branch. -/
def findNew (d : BDDep) (value : Signed) : Bool :=
  match d.type with
  | .switch => decide (value ∈ d.unCoveredValues)
  | .br =>
    match d.unCoveredPred with
    | some p => p.holds (d.testedValue value) d.constant
    | none => false

/-- Record a branch once for every value of its variable in `xs`, the variable on the left iff `varLeft`, the other
operand the constant `k`. -/
def recordAll {w : Nat} (d : BDDep) (varLeft : Bool) (k : BitVec w) (xs : List (BitVec w)) : Option BDDep :=
  xs.foldlM (fun d x =>
    if varLeft then d.record false true (signedOf x) (signedOf k)
    else d.record true false (signedOf k) (signedOf x)) d

end BDDep

/-- Whether the branch on `icmp p v, k` (`icmp p k, v` if the variable is on the right) goes to its first
successor. -/
def takesTrue {w : Nat} (p : Pred) (varLeft : Bool) (k v : BitVec w) : Bool :=
  if varLeft then p.icmp v k else p.icmp k v

/-- After the branch has been recorded for the values `earlier` and then `x`, its entry singles out the values that
take the side that `x` did not take. -/
def UncoveredSideLaw {w : Nat} (p : Pred) (stores : List StoreID) (varLeft : Bool) (k : BitVec w)
    (earlier : List (BitVec w)) (x : BitVec w) : Prop :=
  ∃ d, (BDDep.ofBr p stores).recordAll varLeft k (earlier ++ [x]) = some d ∧
    ∀ v : BitVec w, d.findNew (signedOf v) = true ↔ takesTrue p varLeft k v ≠ takesTrue p varLeft k x

/-- The predicate in the entry is reversed when the branch is recorded once more after `n` recordings. -/
def Exchanged (varLeft : Bool) (n : Nat) : Prop := varLeft = false ∧ n % 2 = 1

instance (varLeft : Bool) (n : Nat) : Decidable (Exchanged varLeft n) := inferInstanceAs (Decidable (_ ∧ _))

/-- The comparisons whose uncovered side is recorded correctly: equality up to 32 bits, unsigned order up to 31
bits, signed order at 32 bits, the two orders only while the predicate is not reversed (and, at width 1, signed
order only while it is). -/
def SideDecided (p : Pred) (w : Nat) (varLeft : Bool) (n : Nat) : Prop :=
  match p with
  | .eq | .ne => w ≤ 32
  | .ugt | .uge | .ult | .ule => w ≤ 31 ∧ ¬ Exchanged varLeft n
  | .sgt | .sge | .slt | .sle => (w = 32 ∧ ¬ Exchanged varLeft n) ∨ (w = 1 ∧ Exchanged varLeft n)

private def swapped : Pred → Pred
  | .ugt => .ult
  | .uge => .ule
  | .ult => .ugt
  | .ule => .uge
  | .sgt => .slt
  | .sge => .sle
  | .slt => .sgt
  | .sle => .sge
  | p => p

private theorem swapped_swapped (p : Pred) : swapped (swapped p) = p := by cases p <;> rfl

/-- Both tables record the negation of the predicate, read with the variable on the left, or the predicate itself,
according to the value seen. -/
private theorem unCoveredRight_holds (p : Pred) (x k v : Signed) :
    (unCoveredRight p x k).holds v k = (p.holds v k != p.holds x k) := by
  rw [Bool.eq_iff_iff, bne_iff_ne]
  cases p <;> simp only [unCoveredRight] <;> split <;> rename_i h <;>
    simp only [Pred.holds, ne_eq, decide_eq_true_eq, beq_iff_eq, bne_iff_ne, decide_eq_decide, beq_eq_beq] <;>
    grind

private theorem unCoveredLeft_holds (p : Pred) (x k v : Signed) :
    (unCoveredLeft p k x).1.holds v k = ((swapped p).holds v k != (swapped p).holds x k) := by
  rw [Bool.eq_iff_iff, bne_iff_ne]
  cases p <;> simp only [unCoveredLeft, swapped] <;> split <;> rename_i h <;>
    simp only [Pred.holds, ne_eq, decide_eq_true_eq, beq_iff_eq, bne_iff_ne, decide_eq_decide, beq_eq_beq] <;>
    grind

private theorem unCoveredLeft_pred (p : Pred) (k x : Signed) : (unCoveredLeft p k x).2 = swapped p := by
  cases p <;> rfl

/-- The predicate in the entry after `n` recordings. -/
private def storedPred (p : Pred) (varLeft : Bool) (n : Nat) : Pred :=
  if varLeft then p.getUnsignedPredicate else swapped^[n] p.getUnsignedPredicate

private theorem recordAll_append {w : Nat} (d : BDDep) (varLeft : Bool) (k x : BitVec w) (xs : List (BitVec w)) :
    d.recordAll varLeft k (xs ++ [x]) = (d.recordAll varLeft k xs).bind fun d =>
      if varLeft then d.record false true (signedOf x) (signedOf k)
      else d.record true false (signedOf k) (signedOf x) := by
  simp [BDDep.recordAll, List.foldlM_append]

private theorem recordAll_pred {w : Nat} (p : Pred) (stores : List StoreID) (varLeft : Bool) (k : BitVec w)
    (xs : List (BitVec w)) :
    ∃ d, (BDDep.ofBr p stores).recordAll varLeft k xs = some d ∧ d.type = .br ∧ d.arithOp = none ∧
      d.pred = storedPred p varLeft xs.length := by
  induction xs using List.reverseRecOn with
  | nil => exact ⟨BDDep.ofBr p stores, rfl, rfl, rfl, by cases varLeft <;> rfl⟩
  | append_singleton xs x ih =>
    obtain ⟨d, hd, ht, ha, hp⟩ := ih
    rw [recordAll_append, hd]
    cases varLeft
    · refine ⟨_, rfl, ht, ha, ?_⟩
      show (unCoveredLeft d.pred (signedOf k) (signedOf x)).2 = _
      rw [unCoveredLeft_pred, hp]
      simp [storedPred, Function.iterate_succ_apply']
    · exact ⟨_, rfl, ht, ha, hp⟩

/-- The predicate that the entry decides after one more recording, with the variable on the left. -/
private def decidedPred (p : Pred) (varLeft : Bool) (n : Nat) : Pred :=
  if varLeft then storedPred p varLeft n else swapped (storedPred p varLeft n)

private theorem uncoveredSideLaw_iff_holds {w : Nat} (p : Pred) (stores : List StoreID) (varLeft : Bool)
    (k : BitVec w) (earlier : List (BitVec w)) (x : BitVec w) :
    UncoveredSideLaw p stores varLeft k earlier x ↔ ∀ v : BitVec w,
      ((decidedPred p varLeft earlier.length).holds (signedOf v) (signedOf k) ≠
          (decidedPred p varLeft earlier.length).holds (signedOf x) (signedOf k) ↔
        takesTrue p varLeft k v ≠ takesTrue p varLeft k x) := by
  obtain ⟨d, hd, ht, ha, hp⟩ := recordAll_pred p stores varLeft k earlier
  have key : ∃ d', (BDDep.ofBr p stores).recordAll varLeft k (earlier ++ [x]) = some d' ∧
      ∀ v : BitVec w, d'.findNew (signedOf v) =
        ((decidedPred p varLeft earlier.length).holds (signedOf v) (signedOf k) !=
          (decidedPred p varLeft earlier.length).holds (signedOf x) (signedOf k)) := by
    rw [recordAll_append, hd]
    cases varLeft
    · refine ⟨_, rfl, fun v => ?_⟩
      simp only [BDDep.findNew, BDDep.testedValue, ht, ha, unCoveredLeft_holds, decidedPred, hp]
      rfl
    · refine ⟨_, rfl, fun v => ?_⟩
      simp only [BDDep.findNew, BDDep.testedValue, ht, ha, unCoveredRight_holds, decidedPred, hp]
      rfl
  obtain ⟨d', hd', hf⟩ := key
  constructor
  · rintro ⟨d'', hd'', h⟩ v
    rw [hd'] at hd''
    cases hd''
    rw [← h v, hf v, bne_iff_ne]
  · intro h
    exact ⟨d', hd', fun v => by rw [hf v, bne_iff_ne, h v]⟩

private theorem holds_self (p : Pred) (k : Signed) {w : Nat} (c : BitVec w) (varLeft : Bool) (n : Nat) :
    (decidedPred p varLeft n).holds k k = takesTrue p varLeft c c := by
  have hsw : ∀ q : Pred, (swapped q).holds k k = q.holds k k := by intro q; cases q <;> simp [swapped, Pred.holds]
  have hit : ∀ (q : Pred) (n : Nat), (swapped^[n] q).holds k k = q.holds k k := by
    intro q n
    induction n generalizing q with
    | zero => rfl
    | succ n ih => rw [Function.iterate_succ_apply, ih, hsw]
  have hu : p.getUnsignedPredicate.holds k k = takesTrue p varLeft c c := by
    cases p <;> cases varLeft <;>
      simp [Pred.getUnsignedPredicate, Pred.holds, takesTrue, Pred.icmp, BitVec.ult, BitVec.ule, BitVec.slt,
        BitVec.sle]
  cases varLeft
  · simp only [decidedPred, storedPred, Bool.false_eq_true, if_false, hsw, hit, hu]
  · simp only [decidedPred, storedPred, if_true, hu]

private theorem uncoveredSideLaw_iff_agree {w : Nat} (p : Pred) (stores : List StoreID) (varLeft : Bool)
    (k : BitVec w) (earlier : List (BitVec w)) (x : BitVec w) :
    UncoveredSideLaw p stores varLeft k earlier x ↔ ∀ v : BitVec w,
      (decidedPred p varLeft earlier.length).holds (signedOf v) (signedOf k) = takesTrue p varLeft k v := by
  rw [uncoveredSideLaw_iff_holds]
  have hk := holds_self p (signedOf k) k varLeft earlier.length
  constructor
  · intro h v
    have h1 := h k
    have h2 := h v
    rw [hk] at h1
    revert h1 h2
    generalize (decidedPred p varLeft earlier.length).holds (signedOf x) (signedOf k) = a
    generalize (decidedPred p varLeft earlier.length).holds (signedOf v) (signedOf k) = b
    generalize takesTrue p varLeft k k = c
    generalize takesTrue p varLeft k x = d
    generalize takesTrue p varLeft k v = e
    revert a b c d e
    decide
  · intro h v
    rw [h v, h x]

private theorem takesTrue_eq {w : Nat} (p : Pred) (varLeft : Bool) (k v : BitVec w) :
    takesTrue p varLeft k v = (if varLeft then p else swapped p).icmp v k := by
  cases varLeft <;> cases p <;> simp [takesTrue, swapped, Pred.icmp, Bool.beq_comm, bne]

private theorem swapped_getUnsignedPredicate (p : Pred) :
    (swapped p).getUnsignedPredicate = swapped p.getUnsignedPredicate := by cases p <;> rfl

private theorem decidedPred_eq (p : Pred) (varLeft : Bool) (n : Nat) :
    decidedPred p varLeft n =
      if Exchanged varLeft n then swapped (if varLeft then p else swapped p).getUnsignedPredicate
      else (if varLeft then p else swapped p).getUnsignedPredicate := by
  cases varLeft
  · have hit : ∀ (q : Pred) (n : Nat), swapped^[n] q = if n % 2 = 1 then swapped q else q := by
      intro q n
      induction n with
      | zero => rfl
      | succ n ih =>
        rw [Function.iterate_succ_apply', ih]
        rcases Nat.mod_two_eq_zero_or_one n with h | h <;>
          simp [h, Nat.add_mod, swapped_swapped]
    simp only [decidedPred, storedPred, Bool.false_eq_true, if_false, hit, Exchanged, true_and,
      swapped_getUnsignedPredicate]
    split <;> rfl
  · simp [decidedPred, storedPred, Exchanged]

private theorem toInt_signedOf {w : Nat} (hw : w ≤ 64) (v : BitVec w) : (signedOf v).toInt = low v.toNat := by
  have : signedOf v = BitVec.ofNat 32 v.toNat := by
    apply BitVec.eq_of_toNat_eq
    have h1 := v.isLt
    have h2 : 2 ^ w ≤ 2 ^ 64 := Nat.pow_le_pow_right (by omega) hw
    simp only [signedOf, BitVec.toNat_setWidth, BitVec.toNat_ofNat]
    omega
  rw [this, low]

private theorem toInt_eq_sgn {w : Nat} (v : BitVec w) : v.toInt = sgn w v.toNat := by
  rw [BitVec.toInt_eq_toNat_cond, sgn]

private theorem forall_bitVec_iff {w : Nat} (P : Nat → Prop) : (∀ v : BitVec w, P v.toNat) ↔ ∀ n < 2 ^ w, P n := by
  constructor
  · intro h n hn
    have := h (BitVec.ofNat w n)
    rwa [BitVec.toNat_ofNat, Nat.mod_eq_of_lt hn] at this
  · exact fun h v => h v.toNat v.isLt

private theorem unsigned_order_agree_iff {w : Nat} (hw : 0 < w) (hw' : w ≤ 64) {q : Pred} (k : BitVec w) (sw : Bool)
    (hq : q = .ult ∨ q = .ule ∨ q = .uge ∨ q = .ugt) :
    (∀ v : BitVec w, (if sw then swapped q else q).holds (signedOf v) (signedOf k) = q.icmp v k) ↔
      w ≤ 31 ∧ sw = false := by
  have ht := fun v : BitVec w => toInt_signedOf hw' v
  rcases hq with rfl | rfl | rfl | rfl
  · rw [← unsigned_agree_iff hw k.isLt false sw, ← forall_bitVec_iff]
    refine forall_congr' fun v => ?_
    cases sw <;> simp [swapped, Pred.holds, Pred.icmp, Cmp, BitVec.ult, ht]
  · rw [← unsigned_agree_iff hw k.isLt true sw, ← forall_bitVec_iff]
    refine forall_congr' fun v => ?_
    cases sw <;> simp [swapped, Pred.holds, Pred.icmp, Cmp, BitVec.ule, ht]
  · rw [← unsigned_agree_iff hw k.isLt false sw, ← forall_bitVec_iff]
    refine forall_congr' fun v => ?_
    cases sw <;> simp [swapped, Pred.holds, Pred.icmp, Cmp, BitVec.ule, ht] <;> omega
  · rw [← unsigned_agree_iff hw k.isLt true sw, ← forall_bitVec_iff]
    refine forall_congr' fun v => ?_
    cases sw <;> simp [swapped, Pred.holds, Pred.icmp, Cmp, BitVec.ult, ht] <;> omega

private theorem signed_order_agree_iff {w : Nat} (hw : 0 < w) (hw' : w ≤ 64) {q : Pred} (k : BitVec w) (sw : Bool)
    (hq : q = .slt ∨ q = .sle ∨ q = .sge ∨ q = .sgt) :
    (∀ v : BitVec w, (if sw then swapped q.getUnsignedPredicate else q.getUnsignedPredicate).holds
        (signedOf v) (signedOf k) = q.icmp v k) ↔
      (w = 32 ∧ sw = false) ∨ (w = 1 ∧ sw = true) := by
  have ht := fun v : BitVec w => toInt_signedOf hw' v
  rcases hq with rfl | rfl | rfl | rfl
  · rw [← signed_agree_iff hw k.isLt false sw, ← forall_bitVec_iff]
    refine forall_congr' fun v => ?_
    cases sw <;>
      simp [swapped, Pred.getUnsignedPredicate, Pred.holds, Pred.icmp, Cmp, BitVec.slt, ht, toInt_eq_sgn]
  · rw [← signed_agree_iff hw k.isLt true sw, ← forall_bitVec_iff]
    refine forall_congr' fun v => ?_
    cases sw <;>
      simp [swapped, Pred.getUnsignedPredicate, Pred.holds, Pred.icmp, Cmp, BitVec.sle, ht, toInt_eq_sgn]
  · rw [← signed_agree_iff hw k.isLt false sw, ← forall_bitVec_iff]
    refine forall_congr' fun v => ?_
    cases sw <;>
      simp [swapped, Pred.getUnsignedPredicate, Pred.holds, Pred.icmp, Cmp, BitVec.sle, ht, toInt_eq_sgn] <;> omega
  · rw [← signed_agree_iff hw k.isLt true sw, ← forall_bitVec_iff]
    refine forall_congr' fun v => ?_
    cases sw <;>
      simp [swapped, Pred.getUnsignedPredicate, Pred.holds, Pred.icmp, Cmp, BitVec.slt, ht, toInt_eq_sgn] <;> omega

private theorem eq_agree_iff {w : Nat} (hw' : w ≤ 64) (k : BitVec w) :
    (∀ v : BitVec w, (signedOf v = signedOf k ↔ v = k)) ↔ w ≤ 32 := by
  have hval : ∀ v : BitVec w, (signedOf v = signedOf k ↔ low v.toNat = low k.toNat) := fun v => by
    rw [← toInt_signedOf hw', ← toInt_signedOf hw', BitVec.toInt_inj]
  simp only [hval]
  constructor
  · intro h
    by_contra hlt
    -- a number that differs from `k` by one period
    have hp : 2 ^ 33 ≤ 2 ^ w := Nat.pow_le_pow_right (by omega) (by omega)
    have hk := k.isLt
    have key : ∀ n < 2 ^ w, low n = low k.toNat → n = k.toNat := fun n hn he => by
      have := (h (BitVec.ofNat w n)).1 (by rwa [BitVec.toNat_ofNat, Nat.mod_eq_of_lt hn])
      rw [← this, BitVec.toNat_ofNat, Nat.mod_eq_of_lt hn]
    by_cases h1 : k.toNat < 4294967296
    · have := key (k.toNat + 4294967296 * 1) (by omega) (low_add_period _ _)
      omega
    · have hl := low_add_period (k.toNat - 4294967296) 1
      rw [show k.toNat - 4294967296 + 4294967296 * 1 = k.toNat by omega] at hl
      have := key (k.toNat - 4294967296) (by omega) hl.symm
      omega
  · intro h v
    have hp : 2 ^ w ≤ 4294967296 := Nat.pow_le_pow_right (n := 2) (j := 32) (by omega) h
    have h1 := v.isLt
    have h2 := k.isLt
    refine ⟨fun he => BitVec.eq_of_toNat_eq (low_inj_of_lt (by omega) (by omega) he), fun he => by rw [he]⟩

private theorem holds_agree_iff {w : Nat} (hw : 0 < w) (hw' : w ≤ 64) (q : Pred) (k : BitVec w) (sw : Bool) :
    (∀ v : BitVec w, (if sw then swapped q.getUnsignedPredicate else q.getUnsignedPredicate).holds
        (signedOf v) (signedOf k) = q.icmp v k) ↔
      match q with
      | .eq | .ne => w ≤ 32
      | .ugt | .uge | .ult | .ule => w ≤ 31 ∧ sw = false
      | .sgt | .sge | .slt | .sle => (w = 32 ∧ sw = false) ∨ (w = 1 ∧ sw = true) := by
  cases q
  case eq =>
    rw [← eq_agree_iff hw' k]
    refine forall_congr' fun v => ?_
    cases sw <;> simp [swapped, Pred.getUnsignedPredicate, Pred.holds, Pred.icmp]
  case ne =>
    rw [← eq_agree_iff hw' k]
    refine forall_congr' fun v => ?_
    cases sw <;> simp [swapped, Pred.getUnsignedPredicate, Pred.holds, Pred.icmp, bne]
  case ult | ule | uge | ugt => exact unsigned_order_agree_iff hw hw' k sw (by decide)
  case slt | sle | sge | sgt => exact signed_order_agree_iff hw hw' k sw (by decide)

/-- For every width up to 64, every comparison of a variable with a constant `k` and every history of recordings, the
entry of the branch singles out the values that take the side not taken by the last recorded value iff the
comparison is one of `SideDecided`. -/
theorem uncoveredSide_iff {w : Nat} (hw : 0 < w) (hw' : w ≤ 64) (p : Pred) (stores : List StoreID) (varLeft : Bool)
    (k : BitVec w) (earlier : List (BitVec w)) (x : BitVec w) :
    UncoveredSideLaw p stores varLeft k earlier x ↔ SideDecided p w varLeft earlier.length := by
  have key := holds_agree_iff hw hw' (if varLeft then p else swapped p) k
    (decide (Exchanged varLeft earlier.length))
  simp only [decide_eq_true_eq] at key
  rw [uncoveredSideLaw_iff_agree]
  simp only [takesTrue_eq, decidedPred_eq]
  rw [key]
  cases varLeft <;> cases p <;> simp [swapped, SideDecided]

/-- The law at a signed comparison of 32 bits that is recorded for the first time. -/
theorem uncoveredSide_iff_slt_32 :
    UncoveredSideLaw (w := 32) .slt [] true 7 [] 3 ↔ SideDecided .slt 32 true 0 :=
  uncoveredSide_iff (by decide) (by decide) .slt [] true 7 [] 3

/-- A `br` on `icmp ugt i32 v, 1`, recorded for `v = 0`: the value `0x80000000` takes the other side, and the entry
does not single it out. -/
theorem not_uncoveredSide_ugt_32 : ¬ UncoveredSideLaw (w := 32) .ugt [] true 1 [] 0 := by
  rintro ⟨d, hd, h⟩
  have hd' : some { BDDep.ofBr .ugt [] with var := 0, constant := 1, unCoveredPred := some .ugt } = some d := by
    rw [← hd]; decide
  cases hd'
  exact absurd ((h 0x80000000).2 (by decide)) (by decide)

end CgsKlee
