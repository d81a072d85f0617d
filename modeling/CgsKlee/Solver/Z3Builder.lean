import CgsKlee.Solver.BuilderSound

/-!
# Z3Builder

The backend for Z3.  Divisions by powers of two become shifts, remainders extracts; nothing else is expanded.  The
contents of a constant array are not written into it but asserted: `constant_array_assertions`.
-/

namespace CgsKlee

open Smt

namespace Z3Builder

/-- `bvSExtConst`: above 64 bits there are ones or zeros. -/
def bvSExtConst (width value : Nat) : SolverTerm :=
  if width ≤ 64 then bvConst64 width value
  else if value >>> 63 ≠ 0 then .concat (.const (width - 64) (2 ^ (width - 64) - 1)) (bvConst64 64 value)
  else .concat (.const (width - 64) 0) (bvConst64 64 value)

def bvMinusOne (width : Nat) : SolverTerm := bvSExtConst width (2 ^ 64 - 1)

def eqExpr (a b : SolverTerm) : SolverTerm := .eq a b

/-- The loop and the end of a variable shift; the conditions compare the whole amount. -/
def bvVarShift (shifted : Nat → SolverTerm) (cases : Nat) (res expr shift : SolverTerm) : Option SolverTerm :=
  (shiftCases (fun i => some (eqExpr shift (bvConst32 expr.bvLength i))) shifted cases res).map
    fun res => shiftOrZero shift res expr.bvLength

def bvVarLeftShift (expr shift : SolverTerm) : Option SolverTerm :=
  bvVarShift (bvLeftShift expr) expr.bvLength (bvZero expr.bvLength) expr shift

def bvVarRightShift (expr shift : SolverTerm) : Option SolverTerm :=
  bvVarShift (bvRightShift expr) expr.bvLength (bvZero expr.bvLength) expr shift

def bvVarArithRightShift (expr shift : SolverTerm) : Option SolverTerm :=
  let width := expr.bvLength
  let signedBool := bvBoolExtract expr (width - 1)
  let byConstant := fun i => constructAShrByConstant bvMinusOne expr i signedBool
  bvVarShift byConstant (width - 1) (byConstant (width - 1)) expr shift

/-- `iffExpr`, which asserts that both are truth values. -/
def iffExpr (lhs rhs : SolverTerm) : Option SolverTerm := if lhs.isBool && rhs.isBool then some (.iff lhs rhs) else none

def bvSignExtend (src : SolverTerm) (width : Nat) : Option SolverTerm :=
  if src.bvLength ≤ width then some (.signExtend src width) else none

def zeroExtend (src : SolverTerm) (srcWidth width : Nat) : Option SolverTerm :=
  if srcWidth < width then some (.concat (bvZero (width - srcWidth)) src) else none

def op (o : BvOp) (width : Nat) (left right : SolverTerm) : Option SolverTerm :=
  let result := .op o left right
  if result.bvLength = width then some result else none

def udivConstant (c : APInt) (_ : Nat) (left : SolverTerm) : Option (Option SolverTerm) :=
  if c.width ≤ 64 ∧ Bits64.isPowerOfTwo c.toNat = true then
    some ((Bits64.indexOfSingleBit c.toNat).map (bvRightShift left))
  else none

def uremConstant (c : APInt) (width : Nat) (left : SolverTerm) : Option (Option SolverTerm) :=
  if c.width ≤ 64 ∧ Bits64.isPowerOfTwo c.toNat = true then
    some do
      let bits ← Bits64.indexOfSingleBit c.toNat
      if bits = 0 then some (bvZero width)
      else if bits < width then some (.concat (bvZero (width - bits)) (bvExtract left (bits - 1) 0))
      else none
  else none

def arrayAssertions (root : ExprArray) (array : ArrayTerm) : List SolverTerm :=
  (List.range root.size).map fun i =>
    eqExpr (.read array (bvConst32 root.domain i)) (constructConstant ⟨root.range, root.constantValues.getD i 0⟩)

def initialArray (root : ExprArray) (array : ArrayTerm) : BuilderM ArrayTerm := fun s =>
  if root.isSymbolicArray = false ∧ (s.constantArrayAssertions.lookup root).isNone = true then
    some (array, { s with
      constantArrayAssertions := (root, arrayAssertions root array) :: s.constantArrayAssertions })
  else some (array, s)

def backend (useConstructHash : Bool) : Backend where
  useConstructHash := useConstructHash
  bvMinusOne := bvMinusOne
  iffExpr := iffExpr
  zeroExtend := zeroExtend
  bvSignExtend := bvSignExtend
  op := op
  bvVarLeftShift := bvVarLeftShift
  bvVarRightShift := bvVarRightShift
  bvVarArithRightShift := bvVarArithRightShift
  mulConstant := fun _ _ _ => none
  udivConstant := udivConstant
  sdivConstant := fun _ _ _ => none
  uremConstant := uremConstant
  initialArray := initialArray

theorem bvMinusOne_isMinusOne : IsMinusOne bvMinusOne := by
  intro env w hw
  unfold bvMinusOne bvSExtConst
  by_cases h64 : w ≤ 64
  · rw [if_pos h64]
    refine (Means.const hw (2 ^ 64 - 1)).congr ?_
    have hdvd : (2 : Int) ^ w ∣ 2 ^ 64 := pow_dvd_pow 2 h64
    refine Int.modEq_iff_dvd.mpr ?_
    simpa using hdvd
  · rw [if_neg h64, if_pos (by decide)]
    have hhigh : Means env (.const (w - 64) (2 ^ (w - 64) - 1)) (w - 64) (2 ^ (w - 64) - 1 : Nat) :=
      Means.const (by omega) _
    have hlow : Means env (bvConst64 64 (2 ^ 64 - 1)) 64 (2 ^ 64 - 1) := Means.const (by omega) (2 ^ 64 - 1)
    have h := hhigh.concat hlow (by omega) (by omega)
    rw [show w - 64 + 64 = w by omega] at h
    refine h.congr (Int.modEq_iff_dvd.mpr ⟨-1, ?_⟩)
    have hpow : (2 : Int) ^ w = 2 ^ (w - 64) * 2 ^ 64 := by rw [← pow_add, show w - 64 + 64 = w by omega]
    rw [hpow]
    push_cast [Nat.one_le_two_pow]
    ring

theorem cond_holds {w : Nat} {amount : SolverTerm} (hamount : amount.bvLength = w) (env : Interpretation)
    (y : APInt) (hy : Denotes env amount y) {n : Nat} (hn : n ≤ w) :
    ∃ y' : Nat, (∀ i < n, Holds env (eqExpr amount (bvConst32 w i)) (decide (y' = i))) ∧ (y.toNat < w → y' = y.toNat) := by
  have hyw : y.width = w := hy.bvLength.symm.trans hamount
  refine ⟨y.toNat, fun i hi => ?_, fun _ => rfl⟩
  have hmy : Means env amount w y.toNat := by
    have h := hy.means
    rwa [hyw] at h
  have hylt : y.toNat < 2 ^ y.width := y.toNat_lt
  rw [hyw] at hylt
  have hpow : w < 2 ^ w := Nat.lt_two_pow_self
  have hilt : i < 2 ^ w := by omega
  have h := hmy.eq (Means.const (by omega : 0 < w) i) (by omega) (by exact_mod_cast hylt) (by omega)
    (by exact_mod_cast hilt)
  rwa [show decide ((y.toNat : Int) = i) = decide (y.toNat = i) by simp] at h

theorem bvVarLeftShift_isVarShift : IsVarShift bvVarLeftShift shiftLeft := by
  intro w e amount hw he hamount
  unfold bvVarLeftShift bvVarShift
  rw [he]
  exact varShift_spec hw Nat.lt_two_pow_self hamount (fun _ _ => rfl) (fun env y hy => cond_holds hamount env y hy (le_refl w))
    (fun _ => bvLength_bvLeftShift he (by omega)) (fun env a ha i => (Backend.bvLeftShift_isConstantShift hw he).2 env a ha)
    (.inl ⟨rfl, rfl⟩) (fun a i hi => if_neg (by omega)) he

theorem bvVarRightShift_isVarShift : IsVarShift bvVarRightShift shiftRight := by
  intro w e amount hw he hamount
  unfold bvVarRightShift bvVarShift
  rw [he]
  exact varShift_spec hw Nat.lt_two_pow_self hamount (fun _ _ => rfl) (fun env y hy => cond_holds hamount env y hy (le_refl w))
    (fun _ => bvLength_bvRightShift he (by omega)) (fun env a ha i => (Backend.bvRightShift_isConstantShift hw he).2 env a ha)
    (.inl ⟨rfl, rfl⟩) (fun a i hi => if_neg (by omega)) he

theorem bvVarArithRightShift_isVarShift : IsVarShift bvVarArithRightShift arithShiftRight := by
  intro w e amount hw he hamount
  unfold bvVarArithRightShift bvVarShift
  rw [he]
  exact varShift_spec hw Nat.lt_two_pow_self hamount (fun _ _ => rfl) (fun env y hy => cond_holds hamount env y hy (by omega))
    (fun _ => bvLength_constructAShrByConstant bvMinusOne_isMinusOne he (by omega))
    (fun env a ha i => Backend.ashrByConstant_denotes bvMinusOne_isMinusOne hw he ha) (.inr ⟨rfl, rfl⟩)
    (fun a i hi => if_neg (by omega)) he

theorem udivConstant_isSpecialCase :
    IsSpecialCase udivConstant (fun c => c.toNat ≠ 0) fun c a => .map₂ BvOp.udiv.apply a c := by
  intro c w t r hw hcw hne ht hr
  unfold udivConstant at hr
  split at hr
  · rename_i hpower
    obtain ⟨l, hl, hc, hindex⟩ := Backend.exists_power hcw hpower.1 hpower.2
    rw [hindex] at hr
    obtain rfl := Option.some.inj hr
    obtain ⟨hlen, hvalue⟩ := Backend.udivByPower_spec (by omega) hcw hc ht
    exact ⟨bvRightShift t l, rfl, hlen, fun env a => hvalue env a⟩
  · cases hr

theorem uremConstant_isSpecialCase :
    IsSpecialCase uremConstant (fun c => c.toNat ≠ 0) fun c a => .map₂ BvOp.urem.apply a c := by
  intro c w t r hw hcw hne ht hr
  unfold uremConstant at hr
  split at hr
  · rename_i hpower
    obtain ⟨l, hl, hc, hindex⟩ := Backend.exists_power hcw hpower.1 hpower.2
    obtain ⟨hone, hpow⟩ := Backend.uremByPower_spec hl hcw hc ht
    rw [hindex] at hr
    obtain rfl := Option.some.inj hr
    by_cases hl0 : l = 0
    · exact ⟨bvZero w, if_pos hl0, bvLength_bvZero (by omega), fun env a => hone hl0 env a⟩
    · obtain ⟨hlen, hvalue⟩ := hpow hl0
      exact ⟨_, (if_neg hl0).trans (if_pos hl), hlen, fun env a => hvalue env a⟩
  · cases hr

theorem read_element (env : Interpretation) {root : ExprArray} (name : String) (hroot : root.WellFormed)
    (hindexed : root.Indexed) {i : Nat} (hi : i < root.size) :
    Denotes env (.read (.var name root.domain root.range) (bvConst32 root.domain i)) (.ofNat root.range (env name i)) := by
  obtain ⟨hdomain, hrange⟩ := hindexed
  have hilt : i < 2 ^ root.domain := hi.trans_le hroot.size_le
  have hidx : Means env (bvConst32 root.domain i) root.domain i := Means.const (by omega) i
  have hvar : (ArrayTerm.var name root.domain root.range).denote env =
      some fun i => .ofNat root.range (env name i) := ArrayTerm.denote_var (by omega) (by omega)
  have hread := Denotes.read hvar hidx rfl
  have hnat : (bits root.domain i).toNat = i := by
    have hint : ((bits root.domain i).toNat : Int) = i := toNat_bits_of_lt (by omega) (by exact_mod_cast hilt)
    exact_mod_cast hint
  rwa [hnat] at hread

theorem arrayAssertions_holds (env : Interpretation) {root : ExprArray} (name : String) (hroot : root.WellFormed)
    (hindexed : root.Indexed) (h : ∀ t ∈ arrayAssertions root (.var name root.domain root.range), Holds env t true) {i : Nat}
    (hi : i < root.size) : APInt.ofNat root.range (env name i) = ⟨root.range, root.constantValues.getD i 0⟩ := by
  have hasserted := h _ (List.mem_map.mpr ⟨i, List.mem_range.mpr hi, rfl⟩)
  have hread := read_element env name hroot hindexed hi
  have hconst : Denotes env (constructConstant ⟨root.range, root.constantValues.getD i 0⟩)
      ⟨root.range, root.constantValues.getD i 0⟩ := constructConstant_denotes hindexed.2
  have heq := Denotes.eq hread hconst rfl
  have htrue := Option.some.inj (heq.symm.trans hasserted)
  injection htrue with htrue
  exact beq_iff_eq.mp htrue

theorem arrayAssertions_of_contents {env : Interpretation} {root : ExprArray} {name : String} (hroot : root.WellFormed)
    (hindexed : root.Indexed) (h : ∀ i < root.size, env name i = (root.constantValues.getD i 0).toNat) :
    ∀ t ∈ arrayAssertions root (.var name root.domain root.range), Holds env t true := by
  intro t ht
  obtain ⟨hdomain, hrange⟩ := hindexed
  obtain ⟨i, hi, rfl⟩ := List.mem_map.mp ht
  rw [List.mem_range] at hi
  have hconst : Denotes env (constructConstant ⟨root.range, root.constantValues.getD i 0⟩)
      ⟨root.range, root.constantValues.getD i 0⟩ := constructConstant_denotes hrange
  have hread := read_element env name hroot ⟨hdomain, hrange⟩ hi
  rw [ofNat_eq_element (h i hi)] at hread
  have heq := Denotes.eq hread hconst rfl
  rwa [beq_self_eq_true] at heq

theorem initialArray_isInitialArray : IsInitialArray initialArray := by
  intro root name s hroot hindexed hfresh
  have hdenote : ∀ env : Interpretation, (ArrayTerm.var name root.domain root.range).denote env =
      some fun i => .ofNat root.range (env name i) := fun env =>
    ArrayTerm.denote_var (by have h := hindexed.1; omega) (by have h := hindexed.2; omega)
  unfold initialArray
  by_cases hsym : root.isSymbolicArray = false
  · have hnone : s.constantArrayAssertions.lookup root = none := by
      refine List.lookup_eq_none_iff.mpr fun p hp => ?_
      exact bne_iff_ne.mpr (hfresh p hp).symm
    rw [if_pos ⟨hsym, by rw [hnone]; rfl⟩]
    refine ⟨.var name root.domain root.range, _, rfl, fun p hp => .tail _ hp, fun p hp => ?_, rfl, rfl, rfl,
      fun env m hcontents hassert => ⟨_, hdenote env, fun i _ => ?_⟩⟩
    · rcases List.mem_cons.mp hp with rfl | hp
      · refine .inr ⟨rfl, fun env m hcontents => arrayAssertions_of_contents hroot hindexed fun i hi => ?_⟩
        rw [hcontents i, ExprArray.contents_constant hsym hi]
      · exact .inl hp
    · by_cases hi : i < root.size
      · rw [ExprArray.contents_constant hsym hi]
        exact arrayAssertions_holds env name hroot hindexed (hassert _ (.head _) rfl) hi
      · rw [ExprArray.contents_free (.inr (by omega))]
        exact ofNat_eq_element (hcontents i (.inr (by omega)))
  · rw [if_neg (fun h => hsym h.1)]
    have hsym' : root.isSymbolicArray = true := by simpa using hsym
    refine ⟨.var name root.domain root.range, _, rfl, List.Subset.refl _, fun p hp => .inl hp, rfl, rfl, rfl,
      fun env m hcontents _ => ⟨_, hdenote env, fun i _ => ?_⟩⟩
    rw [ExprArray.contents_free (.inl hsym')]
    exact ofNat_eq_element (hcontents i (.inl hsym'))

theorem backend_sound (useConstructHash : Bool) : (backend useConstructHash).Sound where
  minusOne := bvMinusOne_isMinusOne
  iff := fun hl hr => if_pos (by rw [hl, hr]; rfl)
  zeroExtend := fun h => if_pos h
  signExtend := fun h => if_pos h
  op := fun hl _ => if_pos hl
  varLeftShift := bvVarLeftShift_isVarShift
  varRightShift := bvVarRightShift_isVarShift
  varArithRightShift := bvVarArithRightShift_isVarShift
  mul := fun _ _ _ _ h => by cases h
  udiv := udivConstant_isSpecialCase
  sdiv := fun _ _ _ _ h => by cases h
  urem := uremConstant_isSpecialCase
  initialArray := initialArray_isInitialArray

end Z3Builder

end CgsKlee
