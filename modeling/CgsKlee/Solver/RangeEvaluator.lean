import CgsKlee.Expr.Evaluator
import CgsKlee.Solver.ValueRange

/-!
# Evaluation over ranges

`ExprRangeEvaluator` computes a range for the value of an expression, from the ranges of the initial contents of the
arrays that `CexRangeEvaluator` gives.  `Concat` is evaluated as a concatenation of bytes: what is on the left is
shifted by eight bits whatever the width of what is on the right.  Where the right operands of all concatenations are
bytes, and all that is looked at fits a word, the value lies in the range.
-/

namespace CgsKlee

namespace RangeEvaluator

open ValueRange

def getInitialReadRange (array : ExprArray) (index : ValueRange) : Option ValueRange :=
  if !array.isSymbolicArray && index.isFixed && decide (index.mMin < array.size) then
    -- getZExtValue(8) asserts that the constant has at most 8 bits
    array.constantValues[index.mMin]?.bind fun value =>
      if array.range ≤ 8 then some (ofValue value.toNat) else none
  else some ⟨0, 255⟩

/-- What the operation of a `BinaryExpr` makes of the ranges of its operands; `none` for the shifts, which are not
evaluated. -/
def binaryRange (width : Nat) : BinaryKind → Option (ValueRange → ValueRange → Option ValueRange)
  | .add | .sub | .mul | .udiv | .sdiv | .urem | .srem => some fun l r => l.arithmetic r width
  | .and => some binaryAnd
  | .or => some binaryOr
  | .xor => some binaryXor
  | .shl | .lshr | .ashr => none

def verdict (mustBeTrue mustBeFalse : Bool) : Option ValueRange :=
  if mustBeTrue then some (ofValue 1) else if mustBeFalse then some (ofValue 0) else full 1

def cmpRange (bits : Nat) (kind : CmpKind) (l r : ValueRange) : Option ValueRange :=
  match kind with
  | .eq => verdict (l.mustEqual r) (!l.mayEqual r)
  | .ult => do verdict (decide ((← l.max?) < (← r.min?))) (decide ((← l.min?) ≥ (← r.max?)))
  | .ule => do verdict (decide ((← l.max?) ≤ (← r.min?))) (decide ((← l.min?) > (← r.max?)))
  | .slt => do
    verdict (decide ((← l.maxSigned bits) < (← r.minSigned bits))) (decide ((← l.minSigned bits) ≥ (← r.maxSigned bits)))
  | .sle => do
    verdict (decide ((← l.maxSigned bits) ≤ (← r.minSigned bits))) (decide ((← l.minSigned bits) > (← r.maxSigned bits)))
  -- assert: invalid expressions (uncanonicalized)
  | .ne | .ugt | .uge | .sgt | .sge => none

mutual

def evaluate : Expr → Option ValueRange
  | .constant value => some (ofConstant value)
  | .notOptimized src => full src.width
  | .read root head index => do evalRead root (← evaluate index) {} head
  | .select cond trueExpr falseExpr => do
    let c ← evaluate cond
    if c.mustBe 1 then evaluate trueExpr
    else if c.mustBe 0 then evaluate falseExpr
    else return (← evaluate trueExpr).setUnion (← evaluate falseExpr)
  | .concat left right => do
    let res ← (ofValue 0).concat (← evaluate left) 8
    res.concat (← evaluate right) 8
  | .extract _ _ width => full width
  | .cast _ _ width => full width
  | .not expr => full expr.width
  | .binary kind left right =>
    match binaryRange left.width kind with
    | some f => do f (← evaluate left) (← evaluate right)
    | none => full left.width
  | .cmp kind left right => do cmpRange left.width kind (← evaluate left) (← evaluate right)

/-- The loop of `ExprRangeEvaluator::evalRead` over the updates, with what it has collected. -/
def evalRead (root : ExprArray) (index : ValueRange) (res : ValueRange) : UpdateNode → Option ValueRange
  | .nil => do return res.setUnion (← getInitialReadRange root index)
  | .cons i value next => do
    let ui ← evaluate i
    if ui.mustEqual index then return res.setUnion (← evaluate value)
    else if ui.mayEqual index then
      let res := res.setUnion (← evaluate value)
      if res.isFullRange 8 then return res else evalRead root index res next
    else evalRead root index res next

end

end RangeEvaluator

/-- The comparisons that the constructors leave, of operands whose signs the ranges can tell. -/
def CmpKind.Evaluable (bits : Nat) : CmpKind → Prop
  | .eq | .ult | .ule => True
  | .slt | .sle => 0 < bits ∧ bits < 64
  | .ne | .ugt | .uge | .sgt | .sge => False

mutual

/-- What `evaluate` looks at fits a word, and on the right of a concatenation is a byte. -/
def Expr.RangeEvaluable : Expr → Prop
  | .constant value => value.width ≤ 64
  | .notOptimized src => src.width ≤ 64
  | .read _ head index => head.RangeEvaluable ∧ index.RangeEvaluable
  | .select cond trueExpr falseExpr =>
    cond.RangeEvaluable ∧ trueExpr.RangeEvaluable ∧ falseExpr.RangeEvaluable
  | .concat left right => left.RangeEvaluable ∧ right.RangeEvaluable ∧ right.width = 8 ∧ left.width + right.width ≤ 64
  | .extract _ _ width => width ≤ 64
  | .cast _ _ width => width ≤ 64
  | .not expr => expr.width ≤ 64
  | .binary kind left right =>
    left.width ≤ 64 ∧ (kind = .shl ∨ kind = .lshr ∨ kind = .ashr ∨ left.RangeEvaluable ∧ right.RangeEvaluable)
  | .cmp kind left right =>
    left.RangeEvaluable ∧ right.RangeEvaluable ∧ kind.Evaluable left.width

def UpdateNode.RangeEvaluable : UpdateNode → Prop
  | .nil => True
  | .cons index value next => index.RangeEvaluable ∧ value.RangeEvaluable ∧ next.RangeEvaluable

end

namespace RangeEvaluator

open ValueRange

section Operations

variable {l r index : ValueRange} {a b : APInt} {w : Nat}

theorem covers_constant {c : APInt} (h : c.width ≤ 64) : (ofConstant c).Covers c.width c.toNat := by
  have hlt := c.toNat_lt
  have hpow : 2 ^ c.width ≤ 2 ^ 64 := Nat.pow_le_pow_right (by omega) h
  have hmin : min c.toNat (2 ^ 64 - 1) = c.toNat := min_eq_left (by omega)
  unfold ofConstant
  rw [hmin]
  exact Covers.ofValue hlt

theorem getInitialReadRange_covers {root : ExprArray} (hroot : root.WellFormed) (hbyte : root.range = 8) {i : Nat}
    (hindex : index.Covers w i) (m : Valuation) :
    ∃ r, getInitialReadRange root index = some r ∧ r.Covers 8 (root.initial m i).toNat := by
  have hlt : (root.initial m i).toNat < 2 ^ 8 := by
    have hbits : (root.initial m i).toNat < 2 ^ root.range := (root.initial m i).isLt
    exact hbits.trans_eq (congrArg (2 ^ ·) hbyte)
  unfold getInitialReadRange
  split
  · rename_i hc
    simp only [Bool.and_eq_true, Bool.not_eq_true', decide_eq_true_eq] at hc
    obtain ⟨⟨hsym, hfix⟩, hsize⟩ := hc
    have hlen := hroot.constantValues hsym
    have hi : i = index.mMin := hindex.eq_of_isFixed hfix
    have hget : root.constantValues[index.mMin]? = some (root.initial m i) := by
      unfold ExprArray.initial
      rw [if_neg (by simp [hsym]), hi, List.getD_eq_getElem?_getD, List.getElem?_eq_getElem (by omega), Option.getD_some]
    rw [hget, Option.bind_some, if_pos (by omega)]
    exact ⟨_, rfl, Covers.ofValue hlt⟩
  · refine ⟨_, rfl, Nat.zero_le _, ?_, ?_⟩
    · dsimp only
      omega
    · dsimp only
      omega

theorem binaryRange_covers {kind : BinaryKind} {f : ValueRange → ValueRange → Option ValueRange}
    (hf : binaryRange w kind = some f) (hw : w ≤ 64) (ha : a.width = w) (hb : b.width = w) (hl : l.Covers w a.toNat)
    (hr : r.Covers w b.toNat) : ∃ r', f l r = some r' ∧ r'.Covers w (APInt.map₂ kind.apply a b).toNat := by
  obtain ⟨x, y, rfl, rfl⟩ := APInt.exists_values ha hb
  have hlt : (APInt.map₂ kind.apply ⟨w, x⟩ ⟨w, y⟩).toNat < 2 ^ w := APInt.toNat_lt _
  obtain ⟨r', hr', hcover⟩ := Covers.full hw
  rw [APInt.map₂_mk] at hlt ⊢
  have hx : (⟨w, x⟩ : APInt).toNat = x.toNat := rfl
  have hy : (⟨w, y⟩ : APInt).toNat = y.toNat := rfl
  cases kind <;> cases hf
  case and =>
    have hand : (⟨w, x &&& y⟩ : APInt).toNat = x.toNat &&& y.toNat := BitVec.toNat_and x y
    simpa only [BinaryKind.apply, hand, hx, hy] using hl.binaryAnd hr hw
  case or =>
    have hor : (⟨w, x ||| y⟩ : APInt).toNat = x.toNat ||| y.toNat := BitVec.toNat_or x y
    simpa only [BinaryKind.apply, hor, hx, hy] using hl.binaryOr hr hw
  case xor =>
    have hxor : (⟨w, x ^^^ y⟩ : APInt).toNat = x.toNat ^^^ y.toNat := BitVec.toNat_xor x y
    simpa only [BinaryKind.apply, hxor, hx, hy] using hl.binaryXor hr hw
  all_goals exact ⟨r', hr', hcover _ hlt⟩

theorem verdict_covers {mustBeTrue mustBeFalse c : Bool} (ht : mustBeTrue = true → c = true)
    (hf : mustBeFalse = true → c = false) :
    ∃ r', verdict mustBeTrue mustBeFalse = some r' ∧ r'.Covers 1 (APInt.ofBool c).toNat := by
  have hlt : (APInt.ofBool c).toNat < 2 ^ 1 := APInt.toNat_lt _
  unfold verdict
  split_ifs with h h'
  · rw [ht h]
    exact ⟨_, rfl, Covers.ofValue (by omega)⟩
  · rw [hf h']
    exact ⟨_, rfl, Covers.ofValue (by omega)⟩
  · obtain ⟨r', hr', hcover⟩ := Covers.full (show 1 ≤ 64 by omega)
    exact ⟨r', hr', hcover _ hlt⟩

theorem cmpRange_covers {kind : CmpKind} (hk : kind.Evaluable w) (ha : a.width = w) (hb : b.width = w)
    (hl : l.Covers w a.toNat) (hr : r.Covers w b.toNat) :
    ∃ r', cmpRange w kind l r = some r' ∧ r'.Covers 1 (APInt.rel₂ kind.apply a b).toNat := by
  obtain ⟨x, y, rfl, rfl⟩ := APInt.exists_values ha hb
  rw [APInt.rel₂_mk]
  have hl1 : l.mMin ≤ x.toNat := hl.min_le
  have hl2 : x.toNat ≤ l.mMax := hl.le_max
  have hr1 : r.mMin ≤ y.toNat := hr.min_le
  have hr2 : y.toNat ≤ r.mMax := hr.le_max
  cases kind <;> simp only [CmpKind.Evaluable] at hk
  case eq =>
    apply verdict_covers
    · intro h
      have hxy : x = y := BitVec.eq_of_toNat_eq (hl.eq_of_mustEqual hr h)
      simp [CmpKind.apply, hxy]
    · intro h
      have hne := hl.ne_of_mayEqual hr (by simpa using h)
      simp only [CmpKind.apply, beq_eq_false_iff_ne]
      exact fun hxy => hne (congrArg BitVec.toNat hxy)
  case ult =>
    simp only [cmpRange, hl.max?_eq, hl.min?_eq, hr.max?_eq, hr.min?_eq, Option.bind_eq_bind, Option.bind_some]
    apply verdict_covers <;> intro h <;> simp only [decide_eq_true_eq] at h <;>
      simp only [CmpKind.apply, BitVec.ult, decide_eq_true_eq, decide_eq_false_iff_not] <;> omega
  case ule =>
    simp only [cmpRange, hl.max?_eq, hl.min?_eq, hr.max?_eq, hr.min?_eq, Option.bind_eq_bind, Option.bind_some]
    apply verdict_covers <;> intro h <;> simp only [decide_eq_true_eq] at h <;>
      simp only [CmpKind.apply, BitVec.ule, decide_eq_true_eq, decide_eq_false_iff_not] <;> omega
  all_goals
    obtain ⟨low, high, hlow, hhigh, hlx, hxh⟩ := hl.signed hk.1 hk.2
    obtain ⟨low', high', hlow', hhigh', hly, hyh⟩ := hr.signed hk.1 hk.2
    have hx : signedValue w x.toNat = x.toInt := by rw [signedValue, BitVec.ofNat_toNat, BitVec.setWidth_eq]
    have hy : signedValue w y.toNat = y.toInt := by rw [signedValue, BitVec.ofNat_toNat, BitVec.setWidth_eq]
    have hax : (⟨w, x⟩ : APInt).toNat = x.toNat := rfl
    have hay : (⟨w, y⟩ : APInt).toNat = y.toNat := rfl
    rw [hax, hx] at hlx hxh
    rw [hay, hy] at hly hyh
    simp only [cmpRange, hlow, hhigh, hlow', hhigh', Option.bind_eq_bind, Option.bind_some]
    apply verdict_covers <;> intro h <;> simp only [decide_eq_true_eq] at h <;>
      simp only [CmpKind.apply, BitVec.slt, BitVec.sle, decide_eq_true_eq, decide_eq_false_iff_not] <;> omega

end Operations

abbrev OfBytes (a : ExprArray) : Prop := a.range = 8

mutual

theorem evaluate_covers (m : Valuation) : ∀ e : Expr, e.WellTyped → e.ForallArrays OfBytes → e.RangeEvaluable →
    ∃ r, evaluate e = some r ∧ r.Covers e.width (e.eval m).toNat
  | .constant value, _, _, he => ⟨_, rfl, covers_constant he⟩
  | .notOptimized src, hw, _, he => by
    obtain ⟨r, hr, hcover⟩ := Covers.full he
    have hlt := (src.eval m).toNat_lt
    rw [src.width_eval m hw] at hlt
    exact ⟨r, hr, hcover _ hlt⟩
  | .read root head index, hw, ha, he => by
    obtain ⟨hroot, hhead, hindex, hdomain⟩ := hw
    obtain ⟨i, hi, hcover⟩ := evaluate_covers m index hindex ha.2.2 he.2
    have hstart : ({} : ValueRange).mMax < 2 ^ 8 := by decide
    obtain ⟨r, hr, hread, -, -⟩ := evalRead_covers m hroot ha.1 head hhead ha.2.1 he.1 (hdomain ▸ hcover) hstart
    have hbyte : (Expr.read root head index).width = 8 := ha.1
    refine ⟨r, ?_, ?_⟩
    · simp only [evaluate, hi, Option.bind_eq_bind, Option.bind_some]
      exact hr
    · rw [hbyte]
      exact hread
  | .select c t f, hw, ha, he => by
    obtain ⟨hc, ht, hf, hcw, htf⟩ := hw
    obtain ⟨rc, hrc, hcc⟩ := evaluate_covers m c hc ha.1 he.1
    obtain ⟨rt, hrt, hct⟩ := evaluate_covers m t ht ha.2.1 he.2.1
    obtain ⟨rf, hrf, hcf⟩ := evaluate_covers m f hf ha.2.2 he.2.2
    have hwidth : (Expr.select c t f).width = t.width := rfl
    rw [← htf] at hcf
    simp only [evaluate, hrc, hrt, hrf, Option.bind_eq_bind, Option.bind_some, Expr.eval, hwidth]
    by_cases h1 : rc.mustBe 1 = true
    · rw [if_pos h1, if_pos (hcc.eq_of_mustBe h1)]
      exact ⟨rt, rfl, hct⟩
    · rw [if_neg h1]
      by_cases h0 : rc.mustBe 0 = true
      · have hzero := hcc.eq_of_mustBe h0
        rw [if_pos h0, if_neg (by omega)]
        exact ⟨rf, rfl, hcf⟩
      · rw [if_neg h0]
        refine ⟨_, rfl, ?_⟩
        split
        · exact hct.setUnion_left hcf.max_lt
        · exact hcf.setUnion_right hct.max_lt
  | .concat l r, hw, ha, he => by
    obtain ⟨hel, her, hbyte, hword⟩ := he
    obtain ⟨rl, hrl, hcl⟩ := evaluate_covers m l hw.1 ha.1 hel
    obtain ⟨rr, hrr, hcr⟩ := evaluate_covers m r hw.2 ha.2 her
    rw [hbyte] at hword hcr
    -- the first step concatenates the left operand to nothing
    have hzero : (ofValue 0).binaryShiftLeft 8 = ofValue 0 := by decide
    have hnone : (ofValue 0).Covers l.width 0 := Covers.ofValue (Nat.two_pow_pos _)
    obtain ⟨res, hres, hcres⟩ := hnone.binaryOr hcl (by omega)
    rw [Nat.zero_or] at hcres
    obtain ⟨r', hr', hcover⟩ := hcres.concat hcr hword
    refine ⟨r', ?_, ?_⟩
    · simp only [evaluate, hrl, hrr, ValueRange.concat, hzero, hres, Option.bind_eq_bind, Option.bind_some]
      exact hr'
    · have hwidth : (Expr.concat l r).width = l.width + 8 := by rw [Expr.width, hbyte]
      have hvalue : ((Expr.concat l r).eval m).toNat = (l.eval m).toNat <<< 8 ||| (r.eval m).toNat := by
        have happend : ((l.eval m).append (r.eval m)).toNat =
            (l.eval m).toNat <<< (r.eval m).width ||| (r.eval m).toNat := BitVec.toNat_append _ _
        rwa [r.width_eval m hw.2, hbyte] at happend
      rw [hwidth, hvalue]
      exact hcover
  | .extract e o w, _, _, he => by
    obtain ⟨r, hr, hcover⟩ := Covers.full he
    exact ⟨r, hr, hcover _ (APInt.toNat_lt _)⟩
  | .cast kind e w, hw, _, he => by
    obtain ⟨r, hr, hcover⟩ := Covers.full he
    have hlt := ((Expr.cast kind e w).eval m).toNat_lt
    rw [(Expr.cast kind e w).width_eval m hw] at hlt
    exact ⟨r, hr, hcover _ hlt⟩
  | .not e, hw, _, he => by
    obtain ⟨r, hr, hcover⟩ := Covers.full he
    have hlt := ((Expr.not e).eval m).toNat_lt
    rw [(Expr.not e).width_eval m hw] at hlt
    exact ⟨r, hr, hcover _ hlt⟩
  | .binary kind l r, hw, ha, he => by
    have hlt := ((Expr.binary kind l r).eval m).toNat_lt
    rw [(Expr.binary kind l r).width_eval m hw] at hlt
    obtain ⟨hl, hr, hlr⟩ := hw
    cases hf : binaryRange l.width kind with
    | none =>
      obtain ⟨r', hr', hcover⟩ := Covers.full he.1
      refine ⟨r', ?_, hcover _ hlt⟩
      simp only [evaluate, hf]
      exact hr'
    | some f =>
      have hops : l.RangeEvaluable ∧ r.RangeEvaluable := by
        obtain rfl | rfl | rfl | h := he.2
        · cases hf
        · cases hf
        · cases hf
        · exact h
      obtain ⟨rl, hrl, hcl⟩ := evaluate_covers m l hl ha.1 hops.1
      obtain ⟨rr, hrr, hcr⟩ := evaluate_covers m r hr ha.2 hops.2
      rw [← hlr] at hcr
      obtain ⟨r', hr', hcover⟩ := binaryRange_covers hf he.1 (l.width_eval m hl) ((r.width_eval m hr).trans hlr.symm)
        hcl hcr
      refine ⟨r', ?_, hcover⟩
      simp only [evaluate, hf, hrl, hrr, Option.bind_eq_bind, Option.bind_some]
      exact hr'
  | .cmp kind l r, hw, ha, he => by
    obtain ⟨hl, hr, hlr⟩ := hw
    obtain ⟨rl, hrl, hcl⟩ := evaluate_covers m l hl ha.1 he.1
    obtain ⟨rr, hrr, hcr⟩ := evaluate_covers m r hr ha.2 he.2.1
    rw [← hlr] at hcr
    obtain ⟨r', hr', hcover⟩ := cmpRange_covers he.2.2 (l.width_eval m hl) ((r.width_eval m hr).trans hlr.symm) hcl hcr
    refine ⟨r', ?_, hcover⟩
    simp only [evaluate, hrl, hrr, Option.bind_eq_bind, Option.bind_some]
    exact hr'

theorem evalRead_covers (m : Valuation) {root : ExprArray} (hroot : root.WellFormed) (hbyte : root.range = 8)
    {index res : ValueRange} {i : Nat} : ∀ u : UpdateNode, u.WellTyped root → u.ForallArrays OfBytes →
    u.RangeEvaluable → index.Covers root.domain i → res.mMax < 2 ^ 8 → ∃ r, evalRead root index res u = some r ∧
      r.Covers 8 (u.lookup m ⟨root.range, root.initial m i⟩ i).toNat ∧ r.mMin ≤ res.mMin ∧ res.mMax ≤ r.mMax
  | .nil, _, _, _, hindex, hres => by
    obtain ⟨r, hr, hcover⟩ := getInitialReadRange_covers hroot hbyte hindex m
    refine ⟨res.setUnion r, ?_, hcover.setUnion_right hres, min_le_left _ _, le_max_left _ _⟩
    simp only [evalRead, hr, Option.bind_eq_bind, Option.bind_some, pure]
  | .cons j value next, hw, ha, he, hindex, hres => by
    have hwidth : ((UpdateNode.cons j value next).lookup m ⟨root.range, root.initial m i⟩ i).width = 8 :=
      (UpdateNode.width_lookup m root (.cons j value next) hw rfl i).trans hbyte
    have hlt := (APInt.toNat_lt _).trans_eq (congrArg (2 ^ ·) hwidth)
    obtain ⟨hj, hv, hnext, hdomain, hrange⟩ := hw
    obtain ⟨ui, hui, hcui⟩ := evaluate_covers m j hj ha.1 he.1
    obtain ⟨rv, hrv, hcv⟩ := evaluate_covers m value hv ha.2.1 he.2.1
    rw [hdomain] at hcui
    rw [hrange, hbyte] at hcv
    have hunion : (res.setUnion rv).mMax < 2 ^ 8 := Nat.max_lt.mpr ⟨hres, hcv.max_lt⟩
    simp only [evalRead, hui, hrv, Option.bind_eq_bind, Option.bind_some, pure, UpdateNode.lookup]
    by_cases hmust : ui.mustEqual index = true
    · rw [if_pos hmust, if_pos (hcui.eq_of_mustEqual hindex hmust)]
      exact ⟨_, rfl, hcv.setUnion_right hres, min_le_left _ _, le_max_left _ _⟩
    rw [if_neg hmust]
    by_cases hmay : ui.mayEqual index = true
    · rw [if_pos hmay]
      by_cases hfull : (res.setUnion rv).isFullRange 8 = true
      · rw [if_pos hfull]
        refine ⟨_, rfl, ?_, min_le_left _ _, le_max_left _ _⟩
        unfold isFullRange at hfull
        rw [Bits64.maxValueOfNBits_eq (by omega), Bool.and_eq_true, beq_iff_eq, beq_iff_eq, Option.some.injEq] at hfull
        simp only [UpdateNode.lookup] at hlt
        exact ⟨hfull.1.trans_le (Nat.zero_le _), by omega, hunion⟩
      · rw [if_neg hfull]
        obtain ⟨r, hr, hcover, hmin, hmax⟩ := evalRead_covers m hroot hbyte next hnext ha.2.2 he.2.2 hindex hunion
        refine ⟨r, hr, ?_, hmin.trans (min_le_left _ _), (le_max_left _ _).trans hmax⟩
        split
        · have hkept : (res.setUnion rv).Covers 8 (value.eval m).toNat := hcv.setUnion_right hres
          exact ⟨hmin.trans hkept.min_le, hkept.le_max.trans hmax, hcover.max_lt⟩
        · exact hcover
    · rw [if_neg hmay, if_neg (hcui.ne_of_mayEqual hindex ((Bool.not_eq_true _).mp hmay))]
      exact evalRead_covers m hroot hbyte next hnext ha.2.2 he.2.2 hindex hres

end

def loadedBytes : ExprArray := ⟨0, 4, 32, 8, []⟩

def loadedByte (i : Nat) : Expr := .read loadedBytes .nil (.constant (.ofNat 32 i))

theorem loadedByte_wellTyped (i : Nat) : (loadedByte i).WellTyped :=
  ⟨⟨by decide, by decide, by decide⟩, trivial, trivial, rfl⟩

end RangeEvaluator

end CgsKlee
