import CgsKlee.Solver.BuilderSound

/-!
# STPBuilder

The backend for STP.  A multiplication by a constant becomes shifts that are added and subtracted; divisions and
remainders by powers of two become shifts and extracts, and with `optimizeDivides` those of 32 bits by other constants
a multiplication.  The contents of a constant array are written into it.
-/

namespace CgsKlee

open Smt

namespace STPBuilder

def bvSExtConst (width value : Nat) : SolverTerm :=
  if width ≤ 64 then bvConst64 width value else .signExtend (bvConst64 64 value) width

def bvMinusOne (width : Nat) : SolverTerm := bvSExtConst width (2 ^ 64 - 1)

/-- `eqExpr`, which asserts that both have the same length. -/
def eqExpr (a b : SolverTerm) : Option SolverTerm := if a.bvLength = b.bvLength then some (.eq a b) else none

/-- The operations of STP that are given the width of their operands. -/
def op (o : BvOp) (width : Nat) (left right : SolverTerm) : Option SolverTerm :=
  if left.bvLength = width ∧ right.bvLength = width then some (.op o left right) else none

/-- `extractPartialShiftValue`: the bits of the amount that the width has, and their number. -/
def extractPartialShiftValue (shift : SolverTerm) (width : Nat) : SolverTerm × Nat :=
  let shiftBits := width.size
  (bvExtract shift (shiftBits - 1) 0, shiftBits)

/-- The loop and the end of a variable shift. -/
def bvVarShift (shifted : Nat → SolverTerm) (cases : Nat) (res expr shift : SolverTerm) : Option SolverTerm :=
  let width := expr.bvLength
  let (shift_ext, shiftBits) := extractPartialShiftValue shift width
  (shiftCases (fun i => eqExpr shift_ext (bvConst32 shiftBits i)) shifted cases res).map
    fun res => shiftOrZero shift res width

def bvVarLeftShift (expr shift : SolverTerm) : Option SolverTerm :=
  bvVarShift (bvLeftShift expr) expr.bvLength (bvZero expr.bvLength) expr shift

def bvVarRightShift (expr shift : SolverTerm) : Option SolverTerm :=
  bvVarShift (bvRightShift expr) expr.bvLength (bvZero expr.bvLength) expr shift

def bvVarArithRightShift (expr shift : SolverTerm) : Option SolverTerm :=
  let width := expr.bvLength
  let signedBool := bvBoolExtract expr (width - 1)
  let byConstant := fun i => constructAShrByConstant bvMinusOne expr i signedBool
  bvVarShift byConstant (width - 1) (byConstant (width - 1)) expr shift

def mulByConstantStep (expr : SolverTerm) (width add sub j : Nat) (res : Option SolverTerm) : Option (Option SolverTerm) :=
  if add.testBit j || sub.testBit j then
    -- assert: invalid mult constants
    if add.testBit j && sub.testBit j then none
    else
      let shifted := bvLeftShift expr j
      if add.testBit j then
        match res with
        | some res => (op .add width res shifted).map some
        | none => some (some shifted)
      else
        match res with
        | some res => (op .sub width res shifted).map some
        | none => some (some (.bvNeg shifted))
  else some res

def mulByConstantLoop (expr : SolverTerm) (width add sub : Nat) : Nat → Option SolverTerm → Option (Option SolverTerm)
  | 0, res => some res
  | j + 1, res => do
    let res ← mulByConstantStep expr width add sub j res
    mulByConstantLoop expr width add sub j res

/-- `constructMulByConstant`: `expr*x == expr*(add-sub) == expr*add - expr*sub`. -/
def constructMulByConstant (expr : SolverTerm) (width x : Nat) : Option SolverTerm := do
  let (add, sub) ← ComputeMultConstants64 x
  let add := Bits64.truncateToNBits add width
  let sub := Bits64.truncateToNBits sub width
  let res ← mulByConstantLoop expr width add sub 64 none
  some (res.getD (bvZero width))

def constructUDivByConstant (expr_n : SolverTerm) (width d : Nat) : Option SolverTerm :=
  if width = 32 then do
    let (mprime, sh1, sh2) ← ComputeUDivConstants32 d
    let expr_sh1 := bvConst32 32 sh1
    let expr_sh2 := bvConst32 32 sh2
    let expr_n_64 := .concat (bvZero 32) expr_n
    let t1_64bits ← constructMulByConstant expr_n_64 64 mprime
    let t1 := .extract t1_64bits 63 32
    let n_minus_t1 ← op .sub width expr_n t1
    let shift_sh1 ← bvVarRightShift n_minus_t1 expr_sh1
    let plus_t1 ← op .add width shift_sh1 t1
    bvVarRightShift plus_t1 expr_sh2
  else none

def constructSDivByConstant (expr_n : SolverTerm) (width : Nat) (d : Int) : Option SolverTerm :=
  if width = 32 then do
    let (mprime, dsign, shpost) ← ComputeSDivConstants32 d
    let expr_dsign := bvConst32 32 (dsign % 2 ^ 32).toNat
    let expr_shpost := bvConst32 32 shpost
    let expr_n_64 := .signExtend expr_n 64
    let mult_64 ← constructMulByConstant expr_n_64 64 (mprime % 2 ^ 64).toNat
    let mulsh := .extract mult_64 63 32
    let n_plus_mulsh ← op .add width expr_n mulsh
    let extend_npm := .signExtend n_plus_mulsh 64
    let shift_npm ← bvVarRightShift extend_npm expr_shpost
    let shift_shpost := .extract shift_npm 31 0
    let is_signed := bvBoolExtract expr_n 31
    let xsign_of_n := .ite is_signed (bvMinusOne 32) (bvZero 32)
    let q0 ← op .sub width shift_shpost xsign_of_n
    let q0_xor_dsign := .op .xor q0 expr_dsign
    op .sub width q0_xor_dsign expr_dsign
  else none

def mulConstant (c : APInt) (width : Nat) (right : SolverTerm) : Option (Option SolverTerm) :=
  if c.width ≤ 64 then some (constructMulByConstant right width c.toNat) else none

def udivConstant (optimizeDivides : Bool) (c : APInt) (width : Nat) (left : SolverTerm) : Option (Option SolverTerm) :=
  if c.width ≤ 64 then
    if Bits64.isPowerOfTwo c.toNat then some ((Bits64.indexOfSingleBit c.toNat).map (bvRightShift left))
    else if optimizeDivides = true ∧ width = 32 then some (constructUDivByConstant left width (c.toNat % 2 ^ 32))
    else none
  else none

/-- `Expr::SDiv` by a constant that is neither `1` nor `-1`. -/
def sdivConstant (optimizeDivides : Bool) (c : APInt) (width : Nat) (left : SolverTerm) : Option (Option SolverTerm) :=
  if optimizeDivides = true ∧ c ≠ .ofNat c.width 1 ∧ c ≠ ⟨c.width, BitVec.allOnes c.width⟩ ∧ width = 32 then
    -- assert: value may be out of range
    some (if c.width ≤ 32 then constructSDivByConstant left width ((c.toNat : Int).bmod (2 ^ 32)) else none)
  else none

def uremConstant (optimizeDivides : Bool) (c : APInt) (width : Nat) (left : SolverTerm) : Option (Option SolverTerm) :=
  if c.width ≤ 64 then
    if Bits64.isPowerOfTwo c.toNat then
      some do
        let bits ← Bits64.indexOfSingleBit c.toNat
        if bits = 0 then some (bvZero width)
        else some (.concat (bvZero (width - bits)) (bvExtract left (bits - 1) 0))
    else if optimizeDivides = true ∧ width = 32 then
      some do
        let quotient ← constructUDivByConstant left width (c.toNat % 2 ^ 32)
        let quot_times_divisor ← constructMulByConstant quotient width c.toNat
        op .sub width left quot_times_divisor
    else none
  else none

/-- The part of `getInitialArray` for an array that is not in the table: the contents of a constant array are written,
the first element first. -/
def initialArray (root : ExprArray) (array : ArrayTerm) : BuilderM ArrayTerm := fun s =>
  if root.isSymbolicArray then some (array, s)
  else
    some ((List.range root.size).foldl (fun prev i =>
      .write prev (constructConstant (.ofNat root.domain i))
        (constructConstant ⟨root.range, root.constantValues.getD i 0⟩)) array, s)

def backend (useConstructHash optimizeDivides : Bool) : Backend where
  useConstructHash := useConstructHash
  bvMinusOne := bvMinusOne
  iffExpr := fun left right => some (.iff left right)
  zeroExtend := fun src srcWidth width => some (.concat (bvZero (width - srcWidth)) src)
  bvSignExtend := fun src width => some (.signExtend src width)
  op := op
  bvVarLeftShift := bvVarLeftShift
  bvVarRightShift := bvVarRightShift
  bvVarArithRightShift := bvVarArithRightShift
  mulConstant := mulConstant
  udivConstant := udivConstant optimizeDivides
  sdivConstant := sdivConstant optimizeDivides
  uremConstant := uremConstant optimizeDivides
  initialArray := initialArray

theorem bvMinusOne_isMinusOne : IsMinusOne bvMinusOne := by
  intro env w hw
  unfold bvMinusOne bvSExtConst
  by_cases h64 : w ≤ 64
  · rw [if_pos h64]
    refine (Means.const hw (2 ^ 64 - 1)).congr ?_
    have hdvd : (2 : Int) ^ w ∣ 2 ^ 64 := pow_dvd_pow 2 h64
    refine Int.modEq_iff_dvd.mpr ?_
    simpa using hdvd
  · rw [if_neg h64]
    have hconst : Means env (bvConst64 64 (2 ^ 64 - 1)) 64 (2 ^ 64 - 1 : Nat) := Means.const (by omega) _
    have hlow : Means env (bvConst64 64 (2 ^ 64 - 1)) 64 (-1) := hconst.congr (by decide)
    exact hlow.signExtend (by omega) (by omega) (by omega) (by omega)

section Shifts

variable {w v : Nat} {e amount : SolverTerm}

theorem cond_holds (hv : w.size ≤ v) (hamount : amount.bvLength = v) (hw : 1 < w) (env : Interpretation) (y : APInt)
    (hy : Denotes env amount y) {n : Nat} (hn : n ≤ w) :
    ∃ y' : Nat, (∀ i < n, Holds env (.eq (bvExtract amount (w.size - 1) 0) (bvConst32 w.size i)) (decide (y' = i))) ∧
      (y.toNat < w → y' = y.toNat) := by
  have hpow : w < 2 ^ w.size := Nat.lt_size_self w
  have hpos : 0 < w.size := Nat.size_pos.mpr (by omega)
  have hyw : y.width = v := hy.bvLength.symm.trans hamount
  have hext := hy.means.extract (by omega : 0 ≤ w.size - 1) (by omega)
  rw [pow_zero, Int.ediv_one, show w.size - 1 - 0 + 1 = w.size by omega] at hext
  have hlow : Means env (bvExtract amount (w.size - 1) 0) w.size (y.toNat % 2 ^ w.size : Nat) := by
    refine hext.congr ?_
    push_cast
    exact (Int.mod_modEq _ _).symm
  have hlt : y.toNat % 2 ^ w.size < 2 ^ w.size := Nat.mod_lt _ (by positivity)
  refine ⟨y.toNat % 2 ^ w.size, fun i hi => ?_, fun hyw => Nat.mod_eq_of_lt (by omega)⟩
  have hilt : i < 2 ^ w.size := by omega
  have h := hlow.eq (Means.const hpos i) (by omega) (by exact_mod_cast hlt) (by omega) (by exact_mod_cast hilt)
  rwa [show decide (((y.toNat % 2 ^ w.size : Nat) : Int) = i) = decide (y.toNat % 2 ^ w.size = i) by
    simp only [Nat.cast_inj]] at h

theorem eqExpr_cond (hw : 1 < w) (i : Nat) : eqExpr (bvExtract amount (w.size - 1) 0) (bvConst32 w.size i) =
    some (.eq (bvExtract amount (w.size - 1) 0) (bvConst32 w.size i)) := by
  have hpos : 0 < w.size := Nat.size_pos.mpr (by omega)
  refine if_pos ?_
  show w.size - 1 - 0 + 1 = w.size
  omega

theorem bvVarRightShift_spec (hw : 1 < w) (hv : w.size ≤ v) (he : e.bvLength = w) (hamount : amount.bvLength = v) :
    ∃ t, bvVarRightShift e amount = some t ∧ t.bvLength = w ∧
      ∀ (env : Interpretation) (a y : APInt), Denotes env e a → Denotes env amount y →
        Denotes env t (shiftRight a y.toNat) := by
  have hlt : w < 2 ^ v := (Nat.lt_size_self w).trans_le (Nat.pow_le_pow_right (by omega) hv)
  unfold bvVarRightShift bvVarShift extractPartialShiftValue
  rw [he]
  exact varShift_spec hw hlt hamount (fun i _ => eqExpr_cond hw i)
    (fun env y hy => cond_holds hv hamount hw env y hy (le_refl w)) (fun _ => bvLength_bvRightShift he (by omega))
    (fun env a ha i => (Backend.bvRightShift_isConstantShift hw he).2 env a ha) (.inl ⟨rfl, rfl⟩)
    (fun a i hi => if_neg (by omega)) he

theorem size_le_self (w : Nat) : w.size ≤ w := Nat.size_le.mpr Nat.lt_two_pow_self

theorem bvVarRightShift_isVarShift : IsVarShift bvVarRightShift shiftRight := fun hw he hamount =>
  bvVarRightShift_spec hw (size_le_self _) he hamount

theorem bvVarLeftShift_isVarShift : IsVarShift bvVarLeftShift shiftLeft := by
  intro w e amount hw he hamount
  unfold bvVarLeftShift bvVarShift extractPartialShiftValue
  rw [he]
  exact varShift_spec hw Nat.lt_two_pow_self hamount (fun i _ => eqExpr_cond hw i)
    (fun env y hy => cond_holds (size_le_self w) hamount hw env y hy (le_refl w))
    (fun _ => bvLength_bvLeftShift he (by omega))
    (fun env a ha i => (Backend.bvLeftShift_isConstantShift hw he).2 env a ha) (.inl ⟨rfl, rfl⟩)
    (fun a i hi => if_neg (by omega)) he

theorem bvVarArithRightShift_isVarShift : IsVarShift bvVarArithRightShift arithShiftRight := by
  intro w e amount hw he hamount
  unfold bvVarArithRightShift bvVarShift extractPartialShiftValue
  rw [he]
  exact varShift_spec hw Nat.lt_two_pow_self hamount (fun i _ => eqExpr_cond hw i)
    (fun env y hy => cond_holds (size_le_self w) hamount hw env y hy (by omega))
    (fun _ => bvLength_constructAShrByConstant bvMinusOne_isMinusOne he (by omega))
    (fun env a ha i => Backend.ashrByConstant_denotes bvMinusOne_isMinusOne hw he ha) (.inr ⟨rfl, rfl⟩)
    (fun a i hi => if_neg (by omega)) he

end Shifts

section Multiplication

variable {w add sub : Nat} {expr : SolverTerm}

theorem op_eq {o : BvOp} {l r : SolverTerm} (hl : l.bvLength = w) (hr : r.bvLength = w) : op o w l r = some (.op o l r) :=
  if_pos ⟨hl, hr⟩

def upperBits (add sub j : Nat) : Int := ((add / 2 ^ j * 2 ^ j : Nat) : Int) - (sub / 2 ^ j * 2 ^ j : Nat)

theorem div_two_pow_mul (a j : Nat) :
    a / 2 ^ j * 2 ^ j = a / 2 ^ (j + 1) * 2 ^ (j + 1) + if a.testBit j then 2 ^ j else 0 := by
  have hbit : a / 2 ^ j % 2 = if a.testBit j then 1 else 0 := by
    rw [Nat.testBit_eq_decide_div_mod_eq]
    by_cases h : a / 2 ^ j % 2 = 1
    · simp [h]
    · rw [if_neg (by simpa using h)]
      omega
  have hdiv : a / 2 ^ (j + 1) = a / 2 ^ j / 2 := by rw [pow_succ, Nat.div_div_eq_div_mul]
  have hsplit : a / 2 ^ j = a / 2 ^ j / 2 * 2 + a / 2 ^ j % 2 := (Nat.div_add_mod' _ _).symm
  rw [hdiv, pow_succ]
  conv_lhs => rw [hsplit, hbit]
  split <;> ring

def MulAcc (expr : SolverTerm) (w add sub j : Nat) : Option SolverTerm → Prop
  | none => upperBits add sub j = 0
  | some t => t.bvLength = w ∧
      ∀ {env : Interpretation} {z : Int}, Means env expr w z → Means env t w (z * upperBits add sub j)

theorem mulByConstantStep_spec (hw : 0 < w) (he : expr.bvLength = w) {j : Nat}
    (hdisjoint : (add.testBit j && sub.testBit j) = false) {res : Option SolverTerm} (h : MulAcc expr w add sub (j + 1) res) :
    ∃ res', mulByConstantStep expr w add sub j res = some res' ∧ MulAcc expr w add sub j res' := by
  have hadd := div_two_pow_mul add j
  have hsub := div_two_pow_mul sub j
  have hlen : (bvLeftShift expr j).bvLength = w := bvLength_bvLeftShift he hw
  have hshift : ∀ {env : Interpretation} {z : Int}, Means env expr w z → Means env (bvLeftShift expr j) w (z * 2 ^ j) :=
    fun hz => bvLeftShift_means hz hw
  unfold mulByConstantStep
  cases ha : add.testBit j with
  | true =>
    have hs : sub.testBit j = false := by simpa [ha] using hdisjoint
    rw [ha, if_pos rfl] at hadd
    rw [hs, if_neg (by simp), Nat.add_zero] at hsub
    have hupper : upperBits add sub j = upperBits add sub (j + 1) + 2 ^ j := by
      unfold upperBits
      rw [hadd, hsub]
      push_cast
      ring
    rw [hs]
    cases res with
    | none =>
      refine ⟨some (bvLeftShift expr j), rfl, hlen, fun hz => ?_⟩
      rw [hupper, show upperBits add sub (j + 1) = 0 from h, Int.zero_add]
      exact hshift hz
    | some t =>
      refine ⟨some (.op .add t (bvLeftShift expr j)), ?_, h.1, fun hz => ?_⟩
      · show (op .add w t (bvLeftShift expr j)).map some = _
        rw [op_eq h.1 hlen]
        rfl
      · rw [hupper, Int.mul_add]
        exact (h.2 hz).add (hshift hz)
  | false =>
    rw [ha, if_neg (by simp), Nat.add_zero] at hadd
    cases hs : sub.testBit j with
    | true =>
      rw [hs, if_pos rfl] at hsub
      have hupper : upperBits add sub j = upperBits add sub (j + 1) - 2 ^ j := by
        unfold upperBits
        rw [hadd, hsub]
        push_cast
        ring
      cases res with
      | none =>
        refine ⟨some (.bvNeg (bvLeftShift expr j)), rfl, hlen, fun hz => ?_⟩
        rw [hupper, show upperBits add sub (j + 1) = 0 from h, Int.zero_sub, Int.mul_neg]
        exact (hshift hz).neg
      | some t =>
        refine ⟨some (.op .sub t (bvLeftShift expr j)), ?_, h.1, fun hz => ?_⟩
        · show (op .sub w t (bvLeftShift expr j)).map some = _
          rw [op_eq h.1 hlen]
          rfl
        · rw [hupper, Int.mul_sub]
          exact (h.2 hz).sub (hshift hz)
    | false =>
      rw [hs, if_neg (by simp), Nat.add_zero] at hsub
      have hupper : upperBits add sub j = upperBits add sub (j + 1) := by
        unfold upperBits
        rw [hadd, hsub]
      refine ⟨res, rfl, ?_⟩
      cases res with
      | none => exact hupper.trans h
      | some t =>
        refine ⟨h.1, fun hz => ?_⟩
        rw [hupper]
        exact h.2 hz

theorem mulByConstantLoop_spec (hw : 0 < w) (he : expr.bvLength = w)
    (hdisjoint : ∀ j, (add.testBit j && sub.testBit j) = false) {j : Nat} {res : Option SolverTerm}
    (h : MulAcc expr w add sub j res) :
    ∃ res', mulByConstantLoop expr w add sub j res = some res' ∧ MulAcc expr w add sub 0 res' := by
  induction j generalizing res with
  | zero => exact ⟨res, rfl, h⟩
  | succ j ih =>
    obtain ⟨res₁, hstep, h₁⟩ := mulByConstantStep_spec hw he (hdisjoint j) h
    obtain ⟨res', hloop, h'⟩ := ih h₁
    refine ⟨res', ?_, h'⟩
    rw [mulByConstantLoop, hstep]
    exact hloop

theorem constructMulByConstant_spec (hw : 0 < w) (hw' : w ≤ 64) (he : expr.bvLength = w) {x : Nat} (hx : x < 2 ^ 64) :
    ∃ t, constructMulByConstant expr w x = some t ∧ t.bvLength = w ∧
      ∀ {env : Interpretation} {z : Int}, Means env expr w z → Means env t w (z * x) := by
  obtain ⟨add, sub, hconst, hadd, hsub, hdisjoint, hsum⟩ := ComputeMultConstants64_spec hx
  have htrunc : Bits64.truncateToNBits add w = add % 2 ^ w := Bits64.truncateToNBits_eq hw'
  have htrunc' : Bits64.truncateToNBits sub w = sub % 2 ^ w := Bits64.truncateToNBits_eq hw'
  have hinit : MulAcc expr w (add % 2 ^ w) (sub % 2 ^ w) 64 none := by
    have hpow : 2 ^ w ≤ 2 ^ 64 := Nat.pow_le_pow_right (by omega) hw'
    have hpos : 0 < 2 ^ w := by positivity
    have hlt : add % 2 ^ w < 2 ^ w := Nat.mod_lt _ hpos
    have hlt' : sub % 2 ^ w < 2 ^ w := Nat.mod_lt _ hpos
    show upperBits _ _ 64 = 0
    unfold upperBits
    rw [Nat.div_eq_of_lt (by omega), Nat.div_eq_of_lt (by omega)]
    rfl
  have hdisjoint' : ∀ j, ((add % 2 ^ w).testBit j && (sub % 2 ^ w).testBit j) = false := fun j => by
    have h := hdisjoint j
    rw [Nat.testBit_mod_two_pow, Nat.testBit_mod_two_pow]
    cases hj : decide (j < w) <;> simp [h]
  obtain ⟨res, hloop, hacc⟩ := mulByConstantLoop_spec hw he hdisjoint' hinit
  -- the truncated constants still differ by the factor
  have hmod : upperBits (add % 2 ^ w) (sub % 2 ^ w) 0 ≡ x [ZMOD 2 ^ w] := by
    have hdvd : (2 : Int) ^ w ∣ 2 ^ 64 := pow_dvd_pow 2 hw'
    have hx' : (x : Int) ≡ add - sub [ZMOD 2 ^ w] := hsum.of_dvd hdvd
    refine Int.ModEq.trans ?_ hx'.symm
    unfold upperBits
    simp only [pow_zero, Nat.div_one, Nat.mul_one]
    push_cast
    exact (Int.mod_modEq _ _).sub (Int.mod_modEq _ _)
  refine ⟨res.getD (bvZero w), ?_, ?_, fun {env z} hz => ?_⟩
  · unfold constructMulByConstant
    rw [hconst]
    dsimp only [bind, Option.bind_some]
    rw [htrunc, htrunc', hloop]
    rfl
  · cases res with
    | none => exact bvLength_bvZero hw
    | some t => exact hacc.1
  · cases res with
    | none =>
      refine (bvZero_means hw).congr ?_
      have hzero : upperBits (add % 2 ^ w) (sub % 2 ^ w) 0 = 0 := hacc
      rw [hzero] at hmod
      have h := hmod.mul_left z
      rwa [Int.mul_zero] at h
    | some t => exact (hacc.2 hz).congr (hmod.mul_left z)

end Multiplication

section Division

variable {expr : SolverTerm} {d : Nat}

theorem shiftByConstant_spec {w s : Nat} {e : SolverTerm} (hw : 1 < w) (hw' : w.size ≤ 32) (hs : s < 2 ^ 32)
    (he : e.bvLength = w) :
    ∃ t, bvVarRightShift e (bvConst32 32 s) = some t ∧ t.bvLength = w ∧
      ∀ {env : Interpretation} {z : Int}, 0 ≤ z → z < 2 ^ w → Means env e w z → Means env t w (z / 2 ^ s) := by
  obtain ⟨t, hrun, hlen, hvalue⟩ := bvVarRightShift_spec hw hw' he (rfl : (bvConst32 32 s).bvLength = 32)
  refine ⟨t, hrun, hlen, fun {env z} hz hz' hmeans => ?_⟩
  have hamount : Means env (bvConst32 32 s) 32 s := Means.const (by omega) s
  have h := hvalue env _ _ hmeans hamount
  have htoNat : (bits 32 (s : Int)).toNat = s := by
    have hint : ((bits 32 (s : Int)).toNat : Int) = s := toNat_bits_of_lt (by omega) (by exact_mod_cast hs)
    exact_mod_cast hint
  rw [htoNat, shiftRight_bits hz hz'] at h
  exact h

theorem constructUDivByConstant_spec (he : expr.bvLength = 32) (hd : 0 < d) (hd' : d < 2 ^ 32) :
    ∃ t, constructUDivByConstant expr 32 d = some t ∧ t.bvLength = 32 ∧
      ∀ {env : Interpretation} {n : Nat}, n < 2 ^ 32 → Means env expr 32 n → Means env t 32 (n / d : Nat) := by
  obtain ⟨mprime, sh1, sh2, hconst, hmprime, hsh1, hsh2, hquot⟩ := ComputeUDivConstants32_spec hd hd'
  have hlen64 : (SolverTerm.concat (bvZero 32) expr).bvLength = 64 := by
    show (bvZero 32).bvLength + expr.bvLength = 64
    rw [bvLength_bvZero (by omega), he]
  obtain ⟨t₁, hmul, hlen₁, hvalue₁⟩ := constructMulByConstant_spec (by omega) (le_refl 64) hlen64
    (by omega : mprime < 2 ^ 64)
  have hsub : op .sub 32 expr (.extract t₁ 63 32) = some (.op .sub expr (.extract t₁ 63 32)) := op_eq he rfl
  obtain ⟨t₂, hshift₁, hlen₂, hvalue₂⟩ := shiftByConstant_spec (e := .op .sub expr (.extract t₁ 63 32)) (by omega)
    (by decide) (by omega : sh1 < 2 ^ 32) he
  have hadd : op .add 32 t₂ (.extract t₁ 63 32) = some (.op .add t₂ (.extract t₁ 63 32)) := op_eq hlen₂ rfl
  obtain ⟨t₃, hshift₂, hlen₃, hvalue₃⟩ := shiftByConstant_spec (e := .op .add t₂ (.extract t₁ 63 32)) (by omega)
    (by decide) (by omega : sh2 < 2 ^ 32) hlen₂
  refine ⟨t₃, ?_, hlen₃, fun {env n} hn hmeans => ?_⟩
  · unfold constructUDivByConstant
    rw [if_pos rfl, hconst]
    dsimp only [bind, Option.bind_some]
    rw [hmul]
    dsimp only [Option.bind_some]
    rw [hsub]
    dsimp only [Option.bind_some]
    rw [hshift₁]
    dsimp only [Option.bind_some]
    rw [hadd]
    exact hshift₂
  · obtain ⟨hle, hlt, heq⟩ := hquot n hn
    -- the upper half of the product
    have hzero : Means env (bvZero 32) 32 0 := bvZero_means (by omega)
    have hconcat : Means env (.concat (bvZero 32) expr) 64 n := by
      have h := hzero.concat hmeans (by omega) (by exact_mod_cast hn)
      simpa using h
    have hupper : Means env (.extract t₁ 63 32) 32 (n * mprime / 2 ^ 32 : Nat) := by
      have h := (hvalue₁ hconcat).extract (by omega : 32 ≤ 63) (by omega)
      push_cast
      exact h
    generalize n * mprime / 2 ^ 32 = t at hupper hle hlt heq
    have hdiff : Means env (.op .sub expr (.extract t₁ 63 32)) 32 (n - t : Nat) := by
      have h := hmeans.sub hupper
      rwa [← Nat.cast_sub hle] at h
    have hshifted := hvalue₂ (by omega) (by omega) hdiff
    have hsum : Means env (.op .add t₂ (.extract t₁ 63 32)) 32 ((n - t) / 2 ^ sh1 + t : Nat) := by
      have h := hshifted.add hupper
      push_cast
      exact h
    have h := hvalue₃ (Int.natCast_nonneg _) (by exact_mod_cast hlt) hsum
    rw [← heq]
    push_cast at h ⊢
    exact h

theorem signed_quotient {env : Interpretation} {q : SolverTerm} {n d : Int} {D : Nat} (hD : D = d.natAbs)
    (hq : Means env q 32 (n.tdiv D)) :
    Means env (.op .sub (.op .xor q (bvConst32 32 ((if d < 0 then -1 else 0) % 2 ^ 32 : Int).toNat))
      (bvConst32 32 ((if d < 0 then -1 else 0) % 2 ^ 32 : Int).toNat)) 32 (n.tdiv d) := by
  subst hD
  by_cases hd : d < 0
  · rw [if_pos hd]
    have hconst : Means env (bvConst32 32 ((-1 : Int) % 2 ^ 32).toNat) 32 ((-1 : Int) % 2 ^ 32).toNat :=
      Means.const (by omega) _
    have hones : Means env (bvConst32 32 ((-1 : Int) % 2 ^ 32).toNat) 32 (-1) := hconst.congr (by decide)
    have h := (hq.xor_neg_one hones).sub hones
    have habs : d = -(d.natAbs : Int) := by omega
    have htdiv : n.tdiv d = -n.tdiv d.natAbs := by
      conv_lhs => rw [habs, Int.tdiv_neg]
    rw [htdiv]
    rwa [show -n.tdiv d.natAbs - 1 - -1 = -n.tdiv d.natAbs by ring] at h
  · rw [if_neg hd]
    have hzero : Means env (bvConst32 32 ((0 : Int) % 2 ^ 32).toNat) 32 0 := Means.const (by omega) 0
    have h := (hq.xor_zero hzero).sub hzero
    have habs : (d.natAbs : Int) = d := by omega
    rwa [habs, Int.sub_zero] at h

theorem constructSDivByConstant_spec (he : expr.bvLength = 32) {d : Int} (hd : d ≠ 0) (hd1 : d ≠ 1) (hd2 : d ≠ -1)
    (hlo : -2 ^ 31 ≤ d) (hhi : d < 2 ^ 31) :
    ∃ t, constructSDivByConstant expr 32 d = some t ∧ t.bvLength = 32 ∧
      ∀ {env : Interpretation} {n : Int}, -2 ^ 31 ≤ n → n < 2 ^ 31 → Means env expr 32 n →
        Means env t 32 (n.tdiv d) := by
  obtain ⟨mprime, shpost, hconst, hmlo, hmhi, hshpost, hquot⟩ := ComputeSDivConstants32_spec hd hd1 hd2 hlo hhi
  have hx : (mprime % 2 ^ 64).toNat < 2 ^ 64 := by omega
  have hextlen : (SolverTerm.signExtend expr 64).bvLength = 64 := rfl
  obtain ⟨t₁, hmul, hlen₁, hvalue₁⟩ := constructMulByConstant_spec (by omega) (le_refl 64) hextlen hx
  have hadd : op .add 32 expr (.extract t₁ 63 32) = some (.op .add expr (.extract t₁ 63 32)) := op_eq he rfl
  have hlen64 : (SolverTerm.signExtend (.op .add expr (.extract t₁ 63 32)) 64).bvLength = 64 := rfl
  obtain ⟨t₂, hshift, hlen₂, hvalue₂⟩ := shiftByConstant_spec (by omega) (by decide) (by omega : shpost < 2 ^ 32) hlen64
  have hones : ∀ env, Means env (bvMinusOne 32) 32 (-1) := fun env => bvMinusOne_isMinusOne env (by omega)
  have hsign : (SolverTerm.ite (bvBoolExtract expr 31) (bvMinusOne 32) (bvZero 32)).bvLength = 32 :=
    (hones fun _ _ => 0).bvLength
  have hq₀ : op .sub 32 (.extract t₂ 31 0) (.ite (bvBoolExtract expr 31) (bvMinusOne 32) (bvZero 32)) =
      some (.op .sub (.extract t₂ 31 0) (.ite (bvBoolExtract expr 31) (bvMinusOne 32) (bvZero 32))) := op_eq rfl hsign
  refine ⟨.op .sub (.op .xor
      (.op .sub (.extract t₂ 31 0) (.ite (bvBoolExtract expr 31) (bvMinusOne 32) (bvZero 32)))
      (bvConst32 32 ((if d < 0 then -1 else 0) % 2 ^ 32 : Int).toNat))
    (bvConst32 32 ((if d < 0 then -1 else 0) % 2 ^ 32 : Int).toNat), ?_, rfl,
    fun {env n} hn hn' hmeans => signed_quotient rfl ?_⟩
  · unfold constructSDivByConstant
    rw [if_pos rfl, hconst]
    dsimp only [bind, Option.bind_some]
    rw [hmul]
    dsimp only [Option.bind_some]
    rw [hadd]
    dsimp only [Option.bind_some]
    rw [hshift]
    dsimp only [Option.bind_some]
    rw [hq₀]
    dsimp only [Option.bind_some]
    exact op_eq rfl rfl
  · obtain ⟨hzlo, hzhi, hz⟩ := hquot n hn hn'
    have hextend : Means env (.signExtend expr 64) 64 n := hmeans.signExtend (by omega) hn hn' (by omega)
    have hproduct : Means env t₁ 64 (n * mprime) := by
      refine (hvalue₁ hextend).congr (Int.ModEq.mul_left n ?_)
      rw [Int.toNat_of_nonneg (Int.emod_nonneg _ (by omega))]
      exact Int.mod_modEq _ _
    have hmulsh : Means env (.extract t₁ 63 32) 32 (n * mprime / 2 ^ 32) :=
      hproduct.extract (by omega) (by omega)
    have hnpm : Means env (.op .add expr (.extract t₁ 63 32)) 32 (n + n * mprime / 2 ^ 32) := hmeans.add hmulsh
    generalize n + n * mprime / 2 ^ 32 = z at hnpm hzlo hzhi hz
    have hextend' : Means env (.signExtend (.op .add expr (.extract t₁ 63 32)) 64) 64 (z % 2 ^ 64) :=
      (hnpm.signExtend (by omega) hzlo hzhi (by omega)).congr (Int.mod_modEq _ _).symm
    have hshifted := hvalue₂ (Int.emod_nonneg _ (by omega)) (Int.emod_lt_of_pos _ (by omega)) hextend'
    -- the lower half has the quotient with its sign
    have hlow : Means env (.extract t₂ 31 0) 32 (z / 2 ^ shpost) := by
      have h : Means env (.extract t₂ 31 0) 32 (z % 2 ^ 64 / 2 ^ shpost / 2 ^ 0) :=
        hshifted.extract (by omega) (by omega)
      rw [pow_zero, Int.ediv_one] at h
      exact h.congr (ediv_modEq (by omega))
    have hxsign : Means env (.ite (bvBoolExtract expr 31) (bvMinusOne 32) (bvZero 32)) 32
        (bif decide (n < 0) then -1 else 0) :=
      Means.ite (bvBoolExtract_sign hmeans (by omega) hn hn') (hones env) (bvZero_means (by omega))
    have h := hlow.sub hxsign
    rw [← hz]
    by_cases hneg : n < 0
    · rw [if_pos hneg]
      rwa [decide_eq_true hneg, cond_true, Int.sub_neg] at h
    · rw [if_neg hneg]
      rwa [decide_eq_false hneg, cond_false, Int.sub_zero, ← Int.add_zero (z / 2 ^ shpost)] at h

end Division

section SpecialCases

variable {w : Nat} {t : SolverTerm} {a c : APInt} {env : Interpretation}

theorem means_of_denotes (ha : Denotes env t a) (ht : t.bvLength = w) : a.width = w ∧ Means env t w a.toNat := by
  have haw : a.width = w := ha.bvLength.symm.trans ht
  have h := ha.means
  rw [haw] at h
  exact ⟨haw, h⟩

theorem toNat_lt_word (h64 : c.width ≤ 64) : c.toNat < 2 ^ 64 :=
  c.toNat_lt.trans_le (Nat.pow_le_pow_right (by omega) h64)

theorem mulConstant_isSpecialCase :
    IsSpecialCase mulConstant (fun _ => True) fun c a => .map₂ BvOp.mul.apply c a := by
  intro c w t r hw hcw _ ht hr
  unfold mulConstant at hr
  split at hr
  · rename_i h64
    obtain rfl := Option.some.inj hr
    obtain ⟨t', hrun, hlen, hvalue⟩ :=
      constructMulByConstant_spec (by omega) (hcw ▸ h64) ht (toNat_lt_word h64)
    refine ⟨t', hrun, hlen, fun env a ha => ?_⟩
    obtain ⟨haw, hmeans⟩ := means_of_denotes ha ht
    have hproduct : APInt.map₂ BvOp.mul.apply c a = bits w (a.toNat * c.toNat) := by
      have hc : c = bits w c.toNat := by rw [← hcw, bits_toNat]
      have ha' : a = bits w a.toNat := by rw [← haw, bits_toNat]
      conv_lhs => rw [hc, ha', mul_bits, Int.mul_comm]
    show Denotes env t' (APInt.map₂ BvOp.mul.apply c a)
    rw [hproduct]
    exact hvalue hmeans
  · cases hr

theorem udivConstant_isSpecialCase (optimizeDivides : Bool) :
    IsSpecialCase (udivConstant optimizeDivides) (fun c => c.toNat ≠ 0) fun c a => .map₂ BvOp.udiv.apply a c := by
  intro c w t r hw hcw hne ht hr
  unfold udivConstant at hr
  split at hr
  · rename_i h64
    split at hr
    · rename_i hpower
      obtain ⟨l, hl, hc, hindex⟩ := Backend.exists_power hcw h64 hpower
      rw [hindex] at hr
      obtain rfl := Option.some.inj hr
      obtain ⟨hlen, hvalue⟩ := Backend.udivByPower_spec (by omega) hcw hc ht
      exact ⟨bvRightShift t l, rfl, hlen, fun env a => hvalue env a⟩
    · split at hr
      · rename_i hfast
        obtain ⟨-, rfl⟩ := hfast
        obtain rfl := Option.some.inj hr
        have hclt : c.toNat < 2 ^ 32 := hcw ▸ c.toNat_lt
        have hcpos : 0 < c.toNat := Nat.pos_of_ne_zero hne
        rw [Nat.mod_eq_of_lt hclt]
        obtain ⟨t', hrun, hlen, hvalue⟩ := constructUDivByConstant_spec ht hcpos hclt
        refine ⟨t', hrun, hlen, fun env a ha => ?_⟩
        obtain ⟨haw, hmeans⟩ := means_of_denotes ha ht
        show Denotes env t' (APInt.map₂ BvOp.udiv.apply a c)
        rw [udiv_eq (haw.trans hcw.symm) hne, haw]
        exact hvalue (haw ▸ a.toNat_lt) hmeans
      · cases hr
  · cases hr

theorem uremConstant_isSpecialCase (optimizeDivides : Bool) :
    IsSpecialCase (uremConstant optimizeDivides) (fun c => c.toNat ≠ 0) fun c a => .map₂ BvOp.urem.apply a c := by
  intro c w t r hw hcw hne ht hr
  unfold uremConstant at hr
  split at hr
  · rename_i h64
    split at hr
    · rename_i hpower
      obtain ⟨l, hl, hc, hindex⟩ := Backend.exists_power hcw h64 hpower
      obtain ⟨hone, hpow⟩ := Backend.uremByPower_spec hl hcw hc ht
      rw [hindex] at hr
      obtain rfl := Option.some.inj hr
      by_cases hl0 : l = 0
      · exact ⟨bvZero w, if_pos hl0, bvLength_bvZero (by omega), fun env a => hone hl0 env a⟩
      · obtain ⟨hlen, hvalue⟩ := hpow hl0
        exact ⟨_, if_neg hl0, hlen, fun env a => hvalue env a⟩
    · split at hr
      · rename_i hfast
        obtain ⟨-, rfl⟩ := hfast
        obtain rfl := Option.some.inj hr
        have hclt : c.toNat < 2 ^ 32 := hcw ▸ c.toNat_lt
        have hcpos : 0 < c.toNat := Nat.pos_of_ne_zero hne
        rw [Nat.mod_eq_of_lt hclt]
        obtain ⟨quotient, hdiv, hlen₁, hvalue₁⟩ := constructUDivByConstant_spec ht hcpos hclt
        obtain ⟨product, hmul, hlen₂, hvalue₂⟩ :=
          constructMulByConstant_spec (by omega) (by omega) hlen₁ (toNat_lt_word h64)
        refine ⟨.op .sub t product, ?_, ht, fun env a ha => ?_⟩
        · rw [hdiv]
          dsimp only [bind, Option.bind_some]
          rw [hmul]
          exact op_eq ht hlen₂
        · obtain ⟨haw, hmeans⟩ := means_of_denotes ha ht
          have hrem : ((a.toNat % c.toNat : Nat) : Int) = a.toNat - (a.toNat / c.toNat : Nat) * c.toNat := by
            have hdecomp : a.toNat % c.toNat + a.toNat / c.toNat * c.toNat = a.toNat := Nat.mod_add_div' _ _
            have hint : ((a.toNat % c.toNat : Nat) : Int) + (a.toNat / c.toNat : Nat) * c.toNat = a.toNat := by
              exact_mod_cast hdecomp
            omega
          show Denotes env _ (APInt.map₂ BvOp.urem.apply a c)
          rw [urem_eq (haw.trans hcw.symm), haw, hrem]
          exact hmeans.sub (hvalue₂ (hvalue₁ (haw ▸ a.toNat_lt) hmeans))
      · cases hr
  · cases hr

theorem exists_signed (hcw : c.width = 32) : ∃ d : Int, (c.toNat : Int).bmod (2 ^ 32) = d ∧ c = bits 32 d ∧
    -2 ^ 31 ≤ d ∧ d < 2 ^ 31 := by
  obtain ⟨value, rfl⟩ := APInt.exists_value hcw
  refine ⟨value.toInt, ?_, ?_, BitVec.le_toInt value, BitVec.toInt_lt⟩
  · exact (BitVec.toInt_eq_toNat_bmod value).symm
  · unfold bits
    rw [BitVec.ofInt_toInt]

theorem sdivConstant_isSpecialCase (optimizeDivides : Bool) :
    IsSpecialCase (sdivConstant optimizeDivides) (fun c => c.toNat ≠ 0) fun c a => .map₂ BvOp.sdiv.apply a c := by
  intro c w t r hw hcw hne ht hr
  unfold sdivConstant at hr
  split at hr
  · rename_i hfast
    obtain ⟨-, hone, hones, rfl⟩ := hfast
    obtain rfl := Option.some.inj hr
    obtain ⟨d, hd, hc, hlo, hhi⟩ := exists_signed hcw
    have hd0 : d ≠ 0 := fun h => hne (by rw [hc, h]; rfl)
    have hd1 : d ≠ 1 := fun h => hone (by rw [hc, h]; rfl)
    have hd2 : d ≠ -1 := fun h => hones (by rw [hc, h]; decide)
    obtain ⟨t', hrun, hlen, hvalue⟩ := constructSDivByConstant_spec ht hd0 hd1 hd2 hlo hhi
    refine ⟨t', ?_, hlen, fun env a ha => ?_⟩
    · rw [if_pos (by omega), hd]
      exact hrun
    · have haw : a.width = 32 := ha.bvLength.symm.trans ht
      obtain ⟨n, -, hn, hnlo, hnhi⟩ := exists_signed haw
      have hmeans : Means env t 32 n := by
        rw [hn] at ha
        exact ha
      show Denotes env t' (APInt.map₂ BvOp.sdiv.apply a c)
      rw [hn, hc, sdiv_bits (by omega) hnlo hnhi hlo hhi hd0]
      exact hvalue hnlo hnhi hmeans
  · cases hr

end SpecialCases

def contentsWritten (root : ExprArray) (array : ArrayTerm) (n : Nat) : ArrayTerm :=
  (List.range n).foldl (fun prev i =>
    .write prev (constructConstant (.ofNat root.domain i))
      (constructConstant ⟨root.range, root.constantValues.getD i 0⟩)) array

theorem contentsWritten_succ (root : ExprArray) (array : ArrayTerm) (n : Nat) :
    contentsWritten root array (n + 1) = .write (contentsWritten root array n)
      (constructConstant (.ofNat root.domain n))
      (constructConstant ⟨root.range, root.constantValues.getD n 0⟩) := by
  unfold contentsWritten
  rw [List.range_succ, List.foldl_append]
  rfl

theorem contentsWritten_spec {root : ExprArray} (hindexed : root.Indexed) (name : String) {n : Nat}
    (hn : n ≤ 2 ^ root.domain) :
    (contentsWritten root (.var name root.domain root.range) n).domain = root.domain ∧
      (contentsWritten root (.var name root.domain root.range) n).range = root.range ∧
      (contentsWritten root (.var name root.domain root.range) n).name = name ∧
      ∀ env : Interpretation, (contentsWritten root (.var name root.domain root.range) n).denote env =
        some fun i => if i < n then ⟨root.range, root.constantValues.getD i 0⟩ else .ofNat root.range (env name i) := by
  obtain ⟨hdomain, hrange⟩ := hindexed
  induction n with
  | zero =>
    refine ⟨rfl, rfl, rfl, fun env => ?_⟩
    have hvar : (ArrayTerm.var name root.domain root.range).denote env = _ :=
      ArrayTerm.denote_var (by omega) (by omega)
    simpa [contentsWritten] using hvar
  | succ n ih =>
    obtain ⟨hd, hr, hname, hdenote⟩ := ih (by omega)
    rw [contentsWritten_succ]
    refine ⟨hd, hr, hname, fun env => ?_⟩
    have hindex : Denotes env (constructConstant (.ofNat root.domain n)) (.ofNat root.domain n) :=
      constructConstant_denotes hdomain
    have hvalue : Denotes env (constructConstant ⟨root.range, root.constantValues.getD n 0⟩)
        ⟨root.range, root.constantValues.getD n 0⟩ := constructConstant_denotes hrange
    have hnat : (APInt.ofNat root.domain n).toNat = n := by
      show (BitVec.ofNat root.domain n).toNat = n
      rw [BitVec.toNat_ofNat, Nat.mod_eq_of_lt (by omega)]
    rw [ArrayTerm.denote_write (hdenote env) hindex hvalue hd.symm hr.symm, hnat]
    congr 1
    funext i
    rcases Nat.lt_trichotomy i n with hlt | rfl | hgt
    · rw [Function.update_of_ne (by omega), if_pos hlt, if_pos (by omega)]
    · rw [Function.update_self, if_pos (by omega)]
    · rw [Function.update_of_ne (by omega), if_neg (by omega), if_neg (by omega)]

theorem initialArray_isInitialArray : IsInitialArray initialArray := by
  intro root name s hroot hindexed _
  have hsize : root.size ≤ 2 ^ root.domain := hroot.size_le
  unfold initialArray
  by_cases hsym : root.isSymbolicArray = true
  · obtain ⟨hd, hr, hname, hdenote⟩ := contentsWritten_spec hindexed name (Nat.zero_le _)
    rw [if_pos hsym]
    refine ⟨.var name root.domain root.range, s.constantArrayAssertions, rfl, List.Subset.refl _, fun p hp => .inl hp,
      hd, hr, hname, fun env m hcontents _ => ⟨_, hdenote env, fun i _ => ?_⟩⟩
    rw [if_neg (by omega), ExprArray.contents_free (.inl hsym)]
    exact ofNat_eq_element (hcontents i (.inl hsym))
  · obtain ⟨hd, hr, hname, hdenote⟩ := contentsWritten_spec hindexed name hsize
    rw [if_neg hsym]
    refine ⟨contentsWritten root (.var name root.domain root.range) root.size, s.constantArrayAssertions, rfl,
      List.Subset.refl _, fun p hp => .inl hp, hd, hr, hname, fun env m hcontents _ => ⟨_, hdenote env, fun i _ => ?_⟩⟩
    by_cases hi : i < root.size
    · rw [if_pos hi, ExprArray.contents_constant (by simpa using hsym) hi]
    · rw [if_neg hi, ExprArray.contents_free (.inr (by omega))]
      exact ofNat_eq_element (hcontents i (.inr (by omega)))

theorem backend_sound (useConstructHash optimizeDivides : Bool) : (backend useConstructHash optimizeDivides).Sound where
  minusOne := bvMinusOne_isMinusOne
  iff := fun _ _ => rfl
  zeroExtend := fun _ => rfl
  signExtend := fun _ => rfl
  op := fun hl hr => op_eq hl hr
  varLeftShift := bvVarLeftShift_isVarShift
  varRightShift := bvVarRightShift_isVarShift
  varArithRightShift := bvVarArithRightShift_isVarShift
  mul := mulConstant_isSpecialCase
  udiv := udivConstant_isSpecialCase optimizeDivides
  sdiv := sdivConstant_isSpecialCase optimizeDivides
  urem := uremConstant_isSpecialCase optimizeDivides
  initialArray := initialArray_isInitialArray

end STPBuilder

end CgsKlee
