import CgsKlee.Expr.CreateSound
import Mathlib.Tactic.Ring

/-!
# Integer intrinsics

`Executor::executeCall` evaluates the absolute value, the minima and maxima and the funnel shifts itself, with
expressions that it composes from smart constructors.  The constants of an absolute value pass through 64 bits, where
those of a wider integer do not fit.  Of all other calls the result has the value that LLVM gives:
`executeCall_exact_iff`.
-/

namespace CgsKlee

structure Expr.HasValue (opt : Bool) (D : Valuation → Prop) {w : Nat} (v : Valuation → BitVec w) (e : Expr) : Prop where
  wellTyped : e.WellTyped
  width : e.width = w
  defined : ∀ m, D m → e.Defined m
  eval : ∀ m, (opt = true → D m) → e.eval m = ⟨w, v m⟩

/-- The constructor returns an expression of this value. -/
def BuildsValue (opt : Bool) (D : Valuation → Prop) {w : Nat} (v : Valuation → BitVec w) (x : Option Expr) : Prop :=
  ∃ e, x = some e ∧ e.HasValue opt D v

namespace Expr.HasValue

variable {opt : Bool} {D : Valuation → Prop} {w u : Nat} {a b : Valuation → BitVec w} {l r c : Expr}

theorem of_wellTyped (he : l.WellTyped) (hw : l.width = w) (hD : ∀ m, D m → l.Defined m)
    (hv : ∀ m, (l.eval m).value.setWidth w = a m) : l.HasValue opt D a where
  wellTyped := he
  width := hw
  defined := hD
  eval m _ := by
    obtain ⟨x, hx⟩ := APInt.exists_value ((l.width_eval m he).trans hw)
    rw [hx, ← hv m, hx, BitVec.setWidth_eq]

theorem constant (k : BitVec w) : (Expr.constant ⟨w, k⟩).HasValue opt D fun _ => k where
  wellTyped := trivial
  width := rfl
  defined _ _ := trivial
  eval _ _ := rfl

theorem binary (kind : BinaryKind) (hl : l.HasValue opt D a) (hr : r.HasValue opt D b)
    (hdiv : kind.isDivision = true → ∀ m, b m ≠ 0) :
    (Expr.binary kind l r).HasValue opt D fun m => kind.apply (a m) (b m) where
  wellTyped := ⟨hl.wellTyped, hr.wellTyped, hl.width.trans hr.width.symm⟩
  width := hl.width
  defined m hm := by
    refine ⟨hl.defined m hm, hr.defined m hm, fun hk hzero => hdiv hk m ?_⟩
    rw [hr.eval m fun _ => hm] at hzero
    exact BitVec.eq_of_toNat_eq (by simpa [APInt.toNat] using hzero)
  eval m hm := by simp only [Expr.eval, hl.eval m hm, hr.eval m hm, APInt.map₂_mk]

theorem cmp (kind : CmpKind) (hl : l.HasValue opt D a) (hr : r.HasValue opt D b) :
    (Expr.cmp kind l r).HasValue opt D fun m => BitVec.ofBool (kind.apply (a m) (b m)) where
  wellTyped := ⟨hl.wellTyped, hr.wellTyped, hl.width.trans hr.width.symm⟩
  width := rfl
  defined m hm := ⟨hl.defined m hm, hr.defined m hm⟩
  eval m hm := by
    simp only [Expr.eval, hl.eval m hm, hr.eval m hm, APInt.rel₂_mk]
    rfl

theorem select {cond : Valuation → Bool} (hc : c.HasValue opt D fun m => BitVec.ofBool (cond m))
    (hl : l.HasValue opt D a) (hr : r.HasValue opt D b) :
    (Expr.select c l r).HasValue opt D fun m => if cond m then a m else b m where
  wellTyped := ⟨hc.wellTyped, hl.wellTyped, hr.wellTyped, hc.width, hl.width.trans hr.width.symm⟩
  width := hl.width
  defined m hm := ⟨hc.defined m hm, hl.defined m hm, hr.defined m hm⟩
  eval m hm := by
    rw [Expr.eval, hc.eval m hm, hl.eval m hm, hr.eval m hm]
    cases cond m <;> rfl

theorem concat {b : Valuation → BitVec u} (hl : l.HasValue opt D a) (hr : r.HasValue opt D b) :
    (Expr.concat l r).HasValue opt D fun m => a m ++ b m where
  wellTyped := ⟨hl.wellTyped, hr.wellTyped⟩
  width := congrArg₂ (· + ·) hl.width hr.width
  defined m hm := ⟨hl.defined m hm, hr.defined m hm⟩
  eval m hm := by
    simp only [Expr.eval, hl.eval m hm, hr.eval m hm]
    rfl

theorem zext (hl : l.HasValue opt D a) (hu : w ≤ u) :
    (Expr.cast .zext l u).HasValue opt D fun m => (a m).setWidth u where
  wellTyped := ⟨hl.wellTyped, hl.width.le.trans hu⟩
  width := rfl
  defined m hm := hl.defined m hm
  eval m hm := by
    simp only [Expr.eval, hl.eval m hm]
    rfl

theorem extract {off : Nat} (hl : l.HasValue opt D a) (hu : 0 < u) (hle : off + u ≤ w) :
    (Expr.extract l off u).HasValue opt D fun m => (a m).extractLsb' off u where
  wellTyped := ⟨hl.wellTyped, hu, hle.trans hl.width.ge⟩
  width := rfl
  defined m hm := hl.defined m hm
  eval m hm := by
    simp only [Expr.eval, hl.eval m hm]
    rfl

theorem congr (hl : l.HasValue opt D a) (h : ∀ m, a m = b m) : l.HasValue opt D b := funext h ▸ hl

theorem of_refines (hl : l.HasValue opt D a) (h : l.Refines opt r) : r.HasValue opt D a where
  wellTyped := h.wellTyped
  width := h.width.trans hl.width
  defined m hm := h.defined m (hl.defined m hm)
  eval m hm := (h.eval m fun ho => hl.defined m (hm ho)).trans (hl.eval m hm)

theorem builds {x : Option Expr} (hl : l.HasValue opt D a) (h : Builds opt l x) : BuildsValue opt D a x := by
  obtain ⟨e, rfl, he⟩ := h
  exact ⟨e, rfl, hl.of_refines he⟩

end Expr.HasValue

namespace IntegerIntrinsics

inductive MinMax
  | smax | smin | umax | umin
deriving DecidableEq, Repr

inductive FunnelShift
  | fshl | fshr
deriving DecidableEq, Repr

inductive IntrinsicCall
  | abs (op poison : Expr)
  | minMax (id : MinMax) (op1 op2 : Expr)
  | funnelShift (id : FunnelShift) (op1 op2 op3 : Expr)

inductive Outcome
  | bindLocal (result : Expr)
  | terminateStateOnExecError (message : String)

/-- `APInt::getZExtValue`, of at most 64 active bits. -/
def getZExtValue (v : APInt) : Option Nat := if v.toNat < 2 ^ 64 then some v.toNat else none

def truncateToNBits (x n : Nat) : Option Nat :=
  if 0 < n ∧ n ≤ 64 then some (x &&& ((2 ^ 64 - 1) >>> (64 - n))) else none

def createConstant (v w : Nat) : Option Expr :=
  if w ≤ 64 then do
    let truncated ← truncateToNBits v w
    if v = truncated then some (.ofNat w v) else none
  else some (.ofNat w v)

def isTrue : Expr → Bool
  | .constant c => ConstantExpr.isTrue c
  | _ => false

section

variable (opt : Bool)

/-- The flag is set and the operand is the minimum. -/
def calledWithPoison (op poison smin : Expr) : Option Bool :=
  if isTrue poison then do
    let issmin ← EqExpr.create opt op smin
    some (isTrue issmin)
  else some false

def executeAbs (op poison : Expr) : Option Outcome :=
  -- assert: second argument is an i1
  if poison.width = 1 then do
    let bw := op.width
    let moneVal ← getZExtValue ⟨bw, BitVec.ofInt bw (-1)⟩
    let sminVal ← getZExtValue ⟨bw, BitVec.intMin bw⟩
    let zero ← createConstant 0 bw
    let mone ← createConstant moneVal bw
    let smin ← createConstant sminVal bw
    if ← calledWithPoison opt op poison smin then
      some (.terminateStateOnExecError "llvm.abs called with poison and INT_MIN")
    else
      -- conditions to flip the sign: INT_MIN < op < 0
      let negative ← SltExpr.create opt op zero
      let notsmin ← NeExpr.create opt op smin
      let cond ← AndExpr.create negative notsmin
      let flip ← MulExpr.create op mone
      let result ← SelectExpr.create opt cond flip op
      some (.bindLocal result)
  else none

/-- The comparison of which the first operand is the result. -/
def MinMax.createCond : MinMax → Expr → Expr → Option Expr
  | .smax => SgtExpr.create opt
  | .smin => SltExpr.create opt
  | .umax => UgtExpr.create opt
  | .umin => UltExpr.create opt

def executeMinMax (id : MinMax) (op1 op2 : Expr) : Option Outcome := do
  let cond ← id.createCond opt op1 op2
  let result ← SelectExpr.create opt cond op1 op2
  some (.bindLocal result)

def executeFunnelShift (id : FunnelShift) (op1 op2 op3 : Expr) : Option Outcome :=
  let w := op1.width
  -- asserts: type mismatch
  if w = op2.width ∧ w = op3.width then do
    let c ← ConcatExpr.create op1 op2
    let width ← createConstant w w
    let rem ← URemExpr.create op3 width
    let op3 ← ZExtExpr.create rem (w + w)
    match id with
    | .fshl =>
      -- shift left and take top half
      let s ← ShlExpr.create opt c op3
      let result ← ExtractExpr.create s w w
      some (.bindLocal result)
    | .fshr =>
      -- shift right and take bottom half
      let s ← LShrExpr.create opt c op3
      let result ← ExtractExpr.create s 0 w
      some (.bindLocal result)
  else none

def executeCall : IntrinsicCall → Option Outcome
  | .abs op poison => executeAbs opt op poison
  | .minMax id op1 op2 => executeMinMax opt id op1 op2
  | .funnelShift id op1 op2 op3 => executeFunnelShift opt id op1 op2 op3

end

def MinMax.value {w : Nat} (id : MinMax) (x y : BitVec w) : BitVec w :=
  match id with
  | .smax => BitVec.ofInt w (max x.toInt y.toInt)
  | .smin => BitVec.ofInt w (min x.toInt y.toInt)
  | .umax => BitVec.ofNat w (max x.toNat y.toNat)
  | .umin => BitVec.ofNat w (min x.toNat y.toNat)

/-- The bits of the two operands, of which the amount modulo the width goes over to the result. -/
def FunnelShift.value {w : Nat} (id : FunnelShift) (x y z : BitVec w) : BitVec w :=
  let amount := z.toNat % w
  match id with
  | .fshl => x <<< amount ||| y >>> (w - amount)
  | .fshr => x <<< (w - amount) ||| y >>> amount

namespace IntrinsicCall

def width : IntrinsicCall → Nat
  | abs op _ => op.width
  | minMax _ op1 _ => op1.width
  | funnelShift _ op1 _ _ => op1.width

/-- The operands have the types of the declaration, of integers of at least one bit. -/
def WellTyped : IntrinsicCall → Prop
  | abs op poison => op.WellTyped ∧ 0 < op.width ∧ poison.WellTyped ∧ poison.width = 1
  | minMax _ op1 op2 => op1.WellTyped ∧ 0 < op1.width ∧ op2.WellTyped ∧ op2.width = op1.width
  | funnelShift _ op1 op2 op3 =>
    op1.WellTyped ∧ 0 < op1.width ∧ op2.WellTyped ∧ op2.width = op1.width ∧ op3.WellTyped ∧ op3.width = op1.width

/-- No operand divides by zero or reads out of bounds. -/
def Defined (m : Valuation) : IntrinsicCall → Prop
  | abs op poison => op.Defined m ∧ poison.Defined m
  | minMax _ op1 op2 => op1.Defined m ∧ op2.Defined m
  | funnelShift _ op1 op2 op3 => op1.Defined m ∧ op2.Defined m ∧ op3.Defined m

/-- The absolute value of the minimum, which does not fit the type, is poison if the flag says so. -/
def IsPoison (m : Valuation) : IntrinsicCall → Prop
  | abs op poison => (poison.eval m).toNat = 1 ∧ (op.eval m).value.setWidth op.width = BitVec.intMin op.width
  | _ => False

def value (m : Valuation) : IntrinsicCall → APInt
  | abs op _ => ⟨op.width, ((op.eval m).value.setWidth _).abs⟩
  | minMax id op1 op2 => ⟨op1.width, id.value ((op1.eval m).value.setWidth _) ((op2.eval m).value.setWidth _)⟩
  | funnelShift id op1 op2 op3 =>
    ⟨op1.width, id.value ((op1.eval m).value.setWidth _) ((op2.eval m).value.setWidth _)
      ((op3.eval m).value.setWidth _)⟩

end IntrinsicCall

/-- The call ends without a failed assertion: its result has the value of LLVM in every valuation, and the state is
terminated only where that value is poison. -/
def Matches (opt : Bool) (call : IntrinsicCall) : Option Outcome → Prop
  | none => False
  | some (.terminateStateOnExecError _) => ∀ m, (opt = true → call.Defined m) → call.IsPoison m
  | some (.bindLocal result) =>
    result.WellTyped ∧ result.width = call.width ∧
      ∀ m, (opt = true → call.Defined m) → ¬call.IsPoison m → result.eval m = call.value m

section Values

variable {w : Nat} {x y z : BitVec w}

theorem abs_eq : (if x.slt 0#w && x != BitVec.intMin w then x * BitVec.ofInt w (-1) else x) = x.abs := by
  have hflip : x * BitVec.ofInt w (-1) = -x := by
    rw [BitVec.ofInt_neg, BitVec.mul_neg]
    simp
  rw [hflip, BitVec.abs_eq]
  by_cases hmin : x = BitVec.intMin w
  · subst hmin
    simp
  · rw [BitVec.slt_zero_eq_msb]
    simp [hmin]

def MinMax.cmpKind : MinMax → CmpKind
  | .smax => .sgt
  | .smin => .slt
  | .umax => .ugt
  | .umin => .ult

theorem MinMax.value_eq (id : MinMax) : (if id.cmpKind.apply x y then x else y) = id.value x y := by
  have hsgt : y.slt x = decide (y.toInt < x.toInt) := rfl
  have hslt : x.slt y = decide (x.toInt < y.toInt) := rfl
  have hugt : y.ult x = decide (y.toNat < x.toNat) := rfl
  have hult : x.ult y = decide (x.toNat < y.toNat) := rfl
  cases id with
  | smax | umax =>
    simp only [cmpKind, CmpKind.apply, value, hsgt, hugt, decide_eq_true_eq]
    split
    · rw [max_eq_left (by omega)]
      simp
    · rw [max_eq_right (by omega)]
      simp
  | smin | umin =>
    simp only [cmpKind, CmpKind.apply, value, hslt, hult, decide_eq_true_eq]
    split
    · rw [min_eq_left (by omega)]
      simp
    · rw [min_eq_right (by omega)]
      simp

theorem toNat_width_ne_zero (hw : 0 < w) : (BitVec.ofNat w w).toNat ≠ 0 := by
  rw [BitVec.toNat_ofNat, Nat.mod_eq_of_lt Nat.lt_two_pow_self]
  exact hw.ne'

theorem width_ne_zero (hw : 0 < w) : BitVec.ofNat w w ≠ 0 := by
  intro h
  apply toNat_width_ne_zero hw
  rw [h]
  rfl

theorem dividesByZero_width (hw : 0 < w) (e : Expr) : dividesByZero e (.ofNat w w) = false := by
  cases e with
  | constant c => exact decide_eq_false (toNat_width_ne_zero hw)
  | _ => rfl

/-- The remainder by the width, in twice the bits. -/
def amount (z : BitVec w) : BitVec (w + w) := (BinaryKind.urem.apply z (BitVec.ofNat w w)).setWidth (w + w)

theorem toNat_amount (hw : 0 < w) : (amount z).toNat = z.toNat % w := by
  unfold amount BinaryKind.apply divisor
  rw [if_neg (width_ne_zero hw), BitVec.toNat_setWidth, BitVec.toNat_umod, BitVec.toNat_ofNat,
    Nat.mod_eq_of_lt Nat.lt_two_pow_self]
  refine Nat.mod_eq_of_lt ?_
  calc z.toNat % w < w := Nat.mod_lt _ hw
    _ < 2 ^ w := Nat.lt_two_pow_self
    _ ≤ 2 ^ (w + w) := Nat.pow_le_pow_right (by decide) (Nat.le_add_left w w)

theorem fshl_eq (hw : 0 < w) :
    (BinaryKind.shl.apply (x ++ y) (amount z)).extractLsb' w w = FunnelShift.fshl.value x y z := by
  have hk : z.toNat % w < w := Nat.mod_lt _ hw
  unfold BinaryKind.apply FunnelShift.value
  rw [BitVec.shiftLeft_eq', toNat_amount hw]
  generalize z.toNat % w = k at hk
  apply BitVec.eq_of_getLsbD_eq
  intro i hi
  simp only [BitVec.getLsbD_extractLsb', BitVec.getLsbD_shiftLeft, BitVec.getLsbD_append, BitVec.getLsbD_or,
    BitVec.getLsbD_ushiftRight]
  by_cases hik : i < k
  · have hlow : w + i - k < w := by omega
    have hidx : w - k + i = w + i - k := by omega
    simp [hi, hik, hlow, hidx]
    omega
  · have hhigh : ¬w + i - k < w := by omega
    have hidx : w + i - k - w = i - k := by omega
    have hout : y.getLsbD (w - k + i) = false := BitVec.getLsbD_of_ge _ _ (by omega)
    simp [hi, hik, hhigh, hidx, hout]
    omega

theorem fshr_eq (hw : 0 < w) :
    (BinaryKind.lshr.apply (x ++ y) (amount z)).extractLsb' 0 w = FunnelShift.fshr.value x y z := by
  have hk : z.toNat % w < w := Nat.mod_lt _ hw
  unfold BinaryKind.apply FunnelShift.value
  rw [BitVec.ushiftRight_eq', toNat_amount hw]
  generalize z.toNat % w = k at hk
  apply BitVec.eq_of_getLsbD_eq
  intro i hi
  simp only [BitVec.getLsbD_extractLsb', BitVec.getLsbD_shiftLeft, BitVec.getLsbD_append, BitVec.getLsbD_or,
    BitVec.getLsbD_ushiftRight]
  by_cases hik : k + i < w
  · have hlow : i < w - k := by omega
    simp [hi, hik, hlow]
  · have hlow : ¬i < w - k := by omega
    have hidx : k + i - w = i - (w - k) := by omega
    have hout : y.getLsbD (k + i) = false := BitVec.getLsbD_of_ge _ _ (by omega)
    simp [hi, hik, hlow, hidx, hout]

end Values

theorem getZExtValue_eq_some {v : APInt} (h : v.width ≤ 64) : getZExtValue v = some v.toNat :=
  if_pos (v.toNat_lt.trans_le (Nat.pow_le_pow_right (by decide) h))

theorem truncateToNBits_eq {v w : Nat} (hw : 0 < w) (h64 : w ≤ 64) : truncateToNBits v w = some (v % 2 ^ w) := by
  have hsplit : 2 ^ w * 2 ^ (64 - w) = 2 ^ 64 := by rw [← Nat.pow_add, Nat.add_sub_cancel' h64]
  have hlow : (2 ^ 64 - 1) / 2 ^ (64 - w) = 2 ^ w - 1 := by
    have hpos : 0 < 2 ^ (64 - w) := Nat.two_pow_pos _
    have hpos' : 0 < 2 ^ w := Nat.two_pow_pos w
    refine Nat.div_eq_of_lt_le ?_ ?_
    · rw [Nat.sub_mul, hsplit, Nat.one_mul]
      omega
    · rw [Nat.sub_add_cancel hpos', hsplit]
      decide
  unfold truncateToNBits
  rw [if_pos ⟨hw, h64⟩, Nat.shiftRight_eq_div_pow, hlow, Nat.and_two_pow_sub_one_eq_mod]

theorem createConstant_eq {v w : Nat} (hw : 0 < w) (hv : v < 2 ^ w) : createConstant v w = some (.ofNat w v) := by
  unfold createConstant
  split
  · rename_i h64
    rw [truncateToNBits_eq hw h64, Nat.mod_eq_of_lt hv]
    exact if_pos rfl
  · rfl

theorem getZExtValue_mone {w : Nat} (h : 64 < w) : getZExtValue ⟨w, BitVec.ofInt w (-1)⟩ = none := by
  refine if_neg (Nat.not_lt.mpr ?_)
  have hone : BitVec.ofInt w (-1) = BitVec.allOnes w := by
    rw [BitVec.ofInt_neg]
    exact BitVec.neg_one_eq_allOnes
  change 2 ^ 64 ≤ (BitVec.ofInt w (-1)).toNat
  rw [hone, BitVec.toNat_allOnes]
  have : 2 ^ 65 ≤ 2 ^ w := Nat.pow_le_pow_right (by decide) h
  omega

section Results

variable {opt : Bool} {op poison op1 op2 op3 : Expr}

theorem ofNat_hasValue {D : Valuation → Prop} {w : Nat} (k : BitVec w) :
    (Expr.ofNat w (APInt.mk w k).toNat).HasValue opt D fun _ => k := by
  have hk : Expr.ofNat w (APInt.mk w k).toNat = .constant ⟨w, k⟩ := by simp [Expr.ofNat, APInt.ofNat, APInt.toNat]
  rw [hk]
  exact Expr.HasValue.constant k

theorem executeAbs_of_lt (h : 64 < op.width) : executeAbs opt op poison = none := by
  unfold executeAbs
  split
  · dsimp only
    rw [getZExtValue_mone h]
    rfl
  · rfl

variable (opt op1 op2) in
theorem MinMax.createCond_builds (id : MinMax) (h1 : op1.WellTyped) (h2 : op2.WellTyped) (hw : op1.width = op2.width) :
    Builds opt (.cmp id.cmpKind op1 op2) (id.createCond opt op1 op2) := by
  cases id with
  | smax => exact CmpKind.create_builds opt .sgt h1 h2 hw
  | smin => exact CmpKind.create_builds opt .slt h1 h2 hw
  | umax => exact CmpKind.create_builds opt .ugt h1 h2 hw
  | umin => exact CmpKind.create_builds opt .ult h1 h2 hw

theorem matches_bind {call : IntrinsicCall} {D : Valuation → Prop} {w : Nat} {a : Valuation → BitVec w}
    {x : Option Expr} {f : Expr → Option Outcome} (hx : BuildsValue opt D a x)
    (hf : ∀ e, e.HasValue opt D a → Matches opt call (f e)) : Matches opt call (x >>= f) := by
  obtain ⟨e, rfl, he⟩ := hx
  exact hf e he

theorem matches_bindLocal {call : IntrinsicCall} {w : Nat} {v : Valuation → BitVec w} {e : Expr}
    (he : e.HasValue opt (call.Defined ·) v) (hw : call.width = w)
    (hv : ∀ m, ¬call.IsPoison m → (⟨w, v m⟩ : APInt) = call.value m) : Matches opt call (some (.bindLocal e)) := by
  refine ⟨he.wellTyped, he.width.trans hw.symm, fun m hm hpoison => ?_⟩
  rw [he.eval m hm, hv m hpoison]

theorem executeMinMax_matches (id : MinMax) (h : (IntrinsicCall.minMax id op1 op2).WellTyped) :
    Matches opt (.minMax id op1 op2) (executeMinMax opt id op1 op2) := by
  obtain ⟨h1, hpos, h2, hw⟩ := h
  let D : Valuation → Prop := ((IntrinsicCall.minMax id op1 op2).Defined ·)
  have hop1 : op1.HasValue opt D _ := .of_wellTyped h1 rfl (fun _ hm => hm.1) fun _ => rfl
  have hop2 : op2.HasValue opt D _ := .of_wellTyped h2 hw (fun _ hm => hm.2) fun _ => rfl
  have hcond := (hop1.cmp id.cmpKind hop2).builds (id.createCond_builds opt op1 op2 h1 h2 hw.symm)
  refine matches_bind hcond fun cond hc => ?_
  have hselect := (hc.select hop1 hop2).builds (SelectExpr.create_builds opt hc.wellTyped h1 h2 hc.width hw.symm)
  refine matches_bind hselect fun result hresult => ?_
  exact matches_bindLocal hresult rfl fun m _ => congrArg (APInt.mk _) (id.value_eq)

theorem executeFunnelShift_matches (id : FunnelShift) (h : (IntrinsicCall.funnelShift id op1 op2 op3).WellTyped) :
    Matches opt (.funnelShift id op1 op2 op3) (executeFunnelShift opt id op1 op2 op3) := by
  obtain ⟨h1, hpos, h2, hw2, h3, hw3⟩ := h
  let D : Valuation → Prop := ((IntrinsicCall.funnelShift id op1 op2 op3).Defined ·)
  have hop1 : op1.HasValue opt D _ := .of_wellTyped h1 rfl (fun _ hm => hm.1) fun _ => rfl
  have hop2 : op2.HasValue opt D _ := .of_wellTyped h2 hw2 (fun _ hm => hm.2.1) fun _ => rfl
  have hop3 : op3.HasValue opt D _ := .of_wellTyped h3 hw3 (fun _ hm => hm.2.2) fun _ => rfl
  unfold executeFunnelShift
  dsimp only
  rw [if_pos ⟨hw2.symm, hw3.symm⟩, createConstant_eq hpos Nat.lt_two_pow_self]
  refine matches_bind ((hop1.concat hop2).builds (ConcatExpr.create_builds h1 h2)) fun c hc => ?_
  have hwidth : (Expr.ofNat op1.width op1.width).HasValue opt D _ := .constant (BitVec.ofNat _ op1.width)
  rw [Option.bind_eq_bind, Option.bind_some]
  have hrem := (hop3.binary .urem hwidth fun _ _ => width_ne_zero hpos).builds
    (URemExpr.create_builds h3 hwidth.wellTyped hw3 (dividesByZero_width hpos op3))
  refine matches_bind hrem fun rem hrem => ?_
  have hdouble : op1.width ≤ op1.width + op1.width := Nat.le_add_left _ _
  have hzext := (hrem.zext hdouble).builds
    (CastExpr.create_builds .zext hrem.wellTyped fun _ => Nat.add_pos_left hpos _)
  refine matches_bind hzext fun amount hamount => ?_
  have hamountWidth : c.width = amount.width := hc.width.trans hamount.width.symm
  cases id with
  | fshl =>
    have hshl := (hc.binary .shl hamount nofun).builds
      (ShlExpr.create_builds opt hc.wellTyped hamount.wellTyped hamountWidth)
    refine matches_bind hshl fun s hs => ?_
    have hextract := (hs.extract hpos le_rfl).builds (ExtractExpr.create_builds hs.wellTyped hpos hs.width.ge)
    refine matches_bind hextract fun result hresult => ?_
    exact matches_bindLocal hresult rfl fun m _ => congrArg (APInt.mk _) (fshl_eq hpos)
  | fshr =>
    have hshr := (hc.binary .lshr hamount nofun).builds
      (LShrExpr.create_builds opt hc.wellTyped hamount.wellTyped hamountWidth)
    refine matches_bind hshr fun s hs => ?_
    have hle : 0 + op1.width ≤ op1.width + op1.width := by omega
    have hextract := (hs.extract hpos hle).builds
      (ExtractExpr.create_builds hs.wellTyped hpos (hle.trans hs.width.ge))
    refine matches_bind hextract fun result hresult => ?_
    exact matches_bindLocal hresult rfl fun m _ => congrArg (APInt.mk _) (fshr_eq hpos)

variable (poison) in
theorem calledWithPoison_eq {call : IntrinsicCall} {w : Nat} {x : Valuation → BitVec w} {smin : Expr}
    (hx : op.HasValue opt (call.Defined ·) x)
    (hsmin : smin.HasValue opt (call.Defined ·) fun _ => BitVec.intMin w) :
    ∃ b, calledWithPoison opt op poison smin = some b ∧
      (b = true → isTrue poison = true ∧ ∀ m, (opt = true → call.Defined m) → x m = BitVec.intMin w) := by
  unfold calledWithPoison
  split
  · rename_i hpoison
    obtain ⟨e, he, hval⟩ := (hx.cmp .eq hsmin).builds
      (EqExpr.create_builds opt hx.wellTyped hsmin.wellTyped (hx.width.trans hsmin.width.symm))
    rw [he]
    refine ⟨isTrue e, rfl, fun htrue => ⟨hpoison, fun m hm => ?_⟩⟩
    have := hval.eval m hm
    cases e with
    | constant c =>
      obtain ⟨u, k⟩ := c
      obtain rfl : u = 1 := hval.width
      obtain rfl : k = 1 := isTrue_iff.mp htrue
      cases hmin : CmpKind.eq.apply (x m) (BitVec.intMin w) with
      | true => exact beq_iff_eq.mp hmin
      | false =>
        rw [hmin] at this
        exact absurd (congrArg APInt.toNat this) (by decide : ¬(1 : Nat) = 0)
    | _ => contradiction
  · exact ⟨false, rfl, nofun⟩

theorem eval_of_isTrue (h : isTrue poison = true) (m : Valuation) : (poison.eval m).toNat = 1 := by
  cases poison with
  | constant c =>
    obtain ⟨u, k⟩ := c
    obtain rfl : u = 1 := (of_decide_eq_true h).1
    obtain rfl : k = 1 := isTrue_iff.mp h
    rfl
  | _ => contradiction

theorem executeAbs_matches (h : (IntrinsicCall.abs op poison).WellTyped) (h64 : op.width ≤ 64) :
    Matches opt (.abs op poison) (executeAbs opt op poison) := by
  obtain ⟨hop, hpos, hp, hwp⟩ := h
  let D : Valuation → Prop := ((IntrinsicCall.abs op poison).Defined ·)
  have hv : op.HasValue opt D _ := .of_wellTyped hop rfl (fun _ hm => hm.1) fun _ => rfl
  have hzero : (Expr.ofNat op.width 0).HasValue opt D fun _ => 0#(op.width) := .constant _
  have hmone : Expr.HasValue opt D _ _ := ofNat_hasValue (BitVec.ofInt op.width (-1))
  have hsmin : Expr.HasValue opt D _ _ := ofNat_hasValue (BitVec.intMin op.width)
  unfold executeAbs
  dsimp only
  rw [if_pos hwp, getZExtValue_eq_some h64, getZExtValue_eq_some h64]
  simp only [Option.bind_eq_bind, Option.bind_some]
  rw [createConstant_eq hpos (Nat.two_pow_pos _), createConstant_eq hpos (APInt.toNat_lt _),
    createConstant_eq hpos (APInt.toNat_lt _)]
  simp only [Option.bind_some]
  obtain ⟨isPoison, hcalled, hmin⟩ := calledWithPoison_eq poison hv hsmin
  rw [hcalled]
  cases isPoison with
  | true =>
    obtain ⟨hpoison, hmin⟩ := hmin rfl
    exact fun m hm => ⟨eval_of_isTrue hpoison m, hmin m hm⟩
  | false =>
    have hnegative := (hv.cmp .slt hzero).builds (SltExpr.create_builds opt hop hzero.wellTyped hzero.width.symm)
    refine matches_bind hnegative fun negative hnegative => ?_
    have hnotsmin := (hv.cmp .ne hsmin).builds (NeExpr.create_builds opt hop hsmin.wellTyped hsmin.width.symm)
    refine matches_bind hnotsmin fun notsmin hnotsmin => ?_
    have hand := (hnegative.binary .and hnotsmin nofun).builds
      (AndExpr.create_builds hnegative.wellTyped hnotsmin.wellTyped (hnegative.width.trans hnotsmin.width.symm))
    refine matches_bind hand fun cond hcond => ?_
    have hflip := (hv.binary .mul hmone nofun).builds (MulExpr.create_builds hop hmone.wellTyped hmone.width.symm)
    refine matches_bind hflip fun flip hflip => ?_
    have hcond := hcond.congr fun m => BitVec.ofBool_and_ofBool
    have hselect := (hcond.select hflip hv).builds
      (SelectExpr.create_builds opt hcond.wellTyped hflip.wellTyped hop hcond.width hflip.width)
    refine matches_bind hselect fun result hresult => ?_
    exact matches_bindLocal hresult rfl fun m _ => congrArg (APInt.mk _) abs_eq

/-- A call has the value of LLVM unless it is the absolute value of an integer of more than 64 bits, whose constants
fail an assertion. -/
theorem executeCall_exact_iff (opt : Bool) (call : IntrinsicCall) (h : call.WellTyped) :
    Matches opt call (executeCall opt call) ↔ ∀ op poison, call = .abs op poison → op.width ≤ 64 := by
  constructor
  · rintro hmatch op poison rfl
    by_contra hlt
    rw [executeCall, executeAbs_of_lt (by omega)] at hmatch
    exact hmatch
  · intro h64
    cases call with
    | abs op poison => exact executeAbs_matches h (h64 op poison rfl)
    | minMax id op1 op2 => exact executeMinMax_matches id h
    | funnelShift id op1 op2 op3 => exact executeFunnelShift_matches id h

/-- The absolute value of minus one in 128 bits. -/
def wideAbs : IntrinsicCall := .abs (.ofNat 128 (2 ^ 128 - 1)) (.ofBool false)

theorem executeCall_exact_iff_wideAbs : Matches false wideAbs (executeCall false wideAbs) ↔
    ∀ op poison, wideAbs = .abs op poison → op.width ≤ 64 :=
  executeCall_exact_iff false wideAbs ⟨trivial, by decide, trivial, rfl⟩

/-- It is no poison, and the call fails an assertion. -/
theorem wideAbs_fails : wideAbs.WellTyped ∧ (∀ m, ¬wideAbs.IsPoison m) ∧ executeCall false wideAbs = none ∧
    ¬Matches false wideAbs (executeCall false wideAbs) := by
  have hnone : executeCall false wideAbs = none := executeAbs_of_lt (by decide : 64 < 128)
  refine ⟨⟨trivial, by decide, trivial, rfl⟩, fun m h => ?_, hnone, ?_⟩
  · exact absurd h.1 (by decide : ¬(0 : Nat) = 1)
  · rw [hnone]
    exact id

end Results

end IntegerIntrinsics

end CgsKlee
