import CgsKlee.Solver.Builder

/-!
# What the shared operations of the builders mean

Constants of any width are the numbers they are built from, a shift by a constant multiplies or divides by a power of
two, and the cases of a variable shift choose by the amount.
-/

namespace CgsKlee

open Smt

variable {env : Interpretation} {t : SolverTerm} {w s : Nat} {x : Int}

theorem bvZExtConst_loop_means {width k : Nat} {v : Int} (hw : 0 < width) (hv : 0 ≤ v) (hv' : v < 2 ^ k)
    (ht : Means env t k v) : Means env (bvZExtConst.loop width t) (width + k) v := by
  induction width using Nat.strong_induction_on generalizing t k with
  | _ width ih =>
    unfold bvZExtConst.loop
    split
    · rename_i hlt
      have hpow : (2 : Int) ^ k ≤ 2 ^ (64 + k) := pow_le_pow_right₀ (by omega) (by omega)
      have hzero : Means env (bvConst64 64 0) 64 0 := Means.const (by omega) 0
      have hconcat : Means env (.concat (bvConst64 64 0) t) (64 + k) v := by
        simpa using hzero.concat ht hv hv'
      have hloop := ih (width - 64) (by omega) (by omega) (by omega) hconcat
      rwa [show width - 64 + (64 + k) = width + k by omega] at hloop
    · have hzero : Means env (bvConst64 width 0) width 0 := Means.const hw 0
      simpa using hzero.concat ht hv hv'

theorem bvZExtConst_means {v : Nat} (hw : 0 < w) (hv : v < 2 ^ 64) : Means env (bvZExtConst w v) w v := by
  unfold bvZExtConst
  split
  · exact Means.const hw v
  · have hv' : (v : Int) < 2 ^ 64 := by exact_mod_cast hv
    have hlow : Means env (bvConst64 64 v) 64 v := Means.const (by omega) v
    have h := bvZExtConst_loop_means (by omega : 0 < w - 64) (by omega) hv' hlow
    rwa [show w - 64 + 64 = w by omega] at h

theorem bvZero_means (hw : 0 < w) : Means env (bvZero w) w 0 := bvZExtConst_means hw (by omega)

theorem bvOne_means (hw : 0 < w) : Means env (bvOne w) w 1 := bvZExtConst_means hw (by omega)

theorem bvLength_bvZero (hw : 0 < w) : (bvZero w).bvLength = w := by
  have h : Means (fun _ _ => 0) (bvZero w) w 0 := bvZero_means hw
  exact h.bvLength

theorem constructConstant_loop_denotes {a b : APInt} (ha : 0 < a.width)
    (ht : Denotes env t ((a.extract 0 (min 64 a.width)).append b)) :
    Denotes env (constructConstant.loop a t) (a.append b) := by
  induction h : a.width using Nat.strong_induction_on generalizing a b t with
  | _ n ih =>
    unfold constructConstant.loop
    split
    · rename_i hlt
      have hmin : min 64 a.width = 64 := by omega
      rw [hmin] at ht
      have hsplit : a.append b = (a.extract 64 (a.width - 64)).append ((a.extract 0 64).append b) := by
        have hall : a = (a.extract 64 (a.width - 64)).append (a.extract 0 64) := by
          have h : (a.extract (0 + 64) (a.width - 64)).append (a.extract 0 64) = a.extract 0 (a.width - 64 + 64) :=
            APInt.append_extract a
          rw [Nat.zero_add, show a.width - 64 + 64 = a.width by omega, APInt.extract_all] at h
          exact h.symm
        conv_lhs => rw [hall]
        refine APInt.ext_toNat (by simp only [APInt.width_append, APInt.width_extract]; omega) ?_
        simp only [APInt.append, APInt.toNat, APInt.extract, BitVec.toNat_append]
        rw [Nat.shiftLeft_or_distrib, Nat.or_assoc, ← Nat.shiftLeft_add, Nat.add_comm 64]
      rw [hsplit]
      have hw : (a.extract 64 (a.width - 64)).width = a.width - 64 := rfl
      refine ih (a.width - 64) (by omega) (by omega) ?_ hw
      have hpos : 0 < ((a.extract 64 (a.width - 64)).extract 0 (min 64 (a.width - 64))).width := by
        rw [APInt.width_extract]
        omega
      have hconst : Denotes env (bvConst64 (min 64 (a.width - 64))
          ((a.extract 64 (a.width - 64)).extract 0 (min 64 (a.width - 64))).toNat)
          ((a.extract 64 (a.width - 64)).extract 0 (min 64 (a.width - 64))) := Denotes.const hpos
      exact hconst.concat ht
    · rename_i hle
      have hmin : min 64 a.width = a.width := by omega
      rwa [hmin, APInt.extract_all] at ht

def sortValue (a : APInt) : Value := if a.width = 1 then .bool (decide (a.toNat = 1)) else .bv a

theorem sortValue_of_ne {a : APInt} (h : a.width ≠ 1) : sortValue a = .bv a := if_neg h

theorem sortValue_of_eq {a : APInt} (h : a.width = 1) : sortValue a = .bool (decide (a.toNat = 1)) := if_pos h

@[simp] theorem sortValue_ofBool (p : Bool) : sortValue (.ofBool p) = .bool p := by cases p <;> rfl

theorem constructConstant_denote {c : APInt} (hc : 0 < c.width) :
    (constructConstant c).denote env = some (sortValue c) := by
  unfold constructConstant
  by_cases h1 : c.width = 1
  · rw [if_pos h1, sortValue_of_eq h1]
    have hlt : c.toNat < 2 ^ c.width := c.toNat_lt
    rw [h1] at hlt
    have htrue : ConstantExpr.isTrue c = decide (c.toNat = 1) := by
      unfold ConstantExpr.isTrue
      congr 1
      exact propext ⟨fun h => by omega, fun h => ⟨h1, by omega⟩⟩
    rw [htrue]
    rfl
  · rw [if_neg h1, sortValue_of_ne h1]
    by_cases h32 : c.width ≤ 32
    · rw [if_pos h32]
      exact Denotes.const hc
    · rw [if_neg h32]
      by_cases h64 : c.width ≤ 64
      · rw [if_pos h64]
        exact Denotes.const hc
      · rw [if_neg h64]
        -- nothing stands below the lowest word
        have hlow : Denotes env (bvConst64 64 (c.extract 0 64).toNat) (c.extract 0 64) := by
          have hpos : 0 < (c.extract 0 64).width := by
            rw [APInt.width_extract]
            omega
          exact Denotes.const hpos
        have hempty : ∀ a : APInt, a.append ⟨0, 0#0⟩ = a := fun a => by
          refine APInt.ext_toNat (by simp) ?_
          simp [APInt.append, APInt.toNat]
        have hloop : Denotes env (constructConstant.loop c (bvConst64 64 (c.extract 0 64).toNat)) (c.append ⟨0, 0#0⟩) := by
          refine constructConstant_loop_denotes hc ?_
          rw [hempty, show min 64 c.width = 64 by omega]
          exact hlow
        rwa [hempty] at hloop

theorem constructConstant_denotes {c : APInt} (hc : 1 < c.width) : Denotes env (constructConstant c) c := by
  have h : (constructConstant c).denote env = some (sortValue c) := constructConstant_denote (by omega)
  rwa [sortValue_of_ne (by omega)] at h

theorem bvLength_bvRightShift (ht : t.bvLength = w) (hw : 0 < w) : (bvRightShift t s).bvLength = w := by
  unfold bvRightShift
  rw [ht]
  dsimp only
  split
  · exact ht
  · split
    · exact bvLength_bvZero hw
    · show (bvZero s).bvLength + (w - 1 - s + 1) = w
      rw [bvLength_bvZero (by omega)]
      omega

theorem bvLength_bvLeftShift (ht : t.bvLength = w) (hw : 0 < w) : (bvLeftShift t s).bvLength = w := by
  unfold bvLeftShift
  rw [ht]
  dsimp only
  split
  · exact ht
  · split
    · exact bvLength_bvZero hw
    · show w - s - 1 - 0 + 1 + (bvZero s).bvLength = w
      rw [bvLength_bvZero (by omega)]
      omega

theorem bvRightShift_means (ht : Means env t w x) (hx : 0 ≤ x) (hx' : x < 2 ^ w) (hw : 0 < w) :
    Means env (bvRightShift t s) w (x / 2 ^ s) := by
  unfold bvRightShift
  rw [ht.bvLength]
  dsimp only
  split
  · rename_i hs
    rwa [hs, pow_zero, Int.ediv_one]
  · split
    · rename_i hs hle
      have hpow : (2 : Int) ^ w ≤ 2 ^ s := pow_le_pow_right₀ (by omega) hle
      rw [Int.ediv_eq_zero_of_lt hx (by omega)]
      exact bvZero_means hw
    · rename_i hs hlt
      have hext := ht.extract (by omega : s ≤ w - 1) (by omega)
      rw [show w - 1 - s + 1 = w - s by omega] at hext
      have hdiv : 0 ≤ x / 2 ^ s := Int.ediv_nonneg hx (by positivity)
      have hdiv' : x / 2 ^ s < 2 ^ (w - s) := by
        rw [Int.ediv_lt_iff_lt_mul (by positivity), ← pow_add, show w - s + s = w by omega]
        exact hx'
      have hzero : Means env (bvZero s) s 0 := bvZero_means (by omega)
      have h := hzero.concat hext hdiv hdiv'
      rwa [Int.zero_mul, Int.zero_add, show s + (w - s) = w by omega] at h

theorem bvLeftShift_means (ht : Means env t w x) (hw : 0 < w) : Means env (bvLeftShift t s) w (x * 2 ^ s) := by
  unfold bvLeftShift
  rw [ht.bvLength]
  dsimp only
  split
  · rename_i hs
    rwa [hs, pow_zero, Int.mul_one]
  · split
    · rename_i hs hle
      refine (bvZero_means hw).congr ?_
      have hdvd : (2 : Int) ^ w ∣ x * 2 ^ s := (pow_dvd_pow 2 hle).trans (Int.dvd_mul_left _ _)
      exact (Int.modEq_zero_iff_dvd.mpr hdvd).symm
    · rename_i hs hlt
      have hext := ht.extract (by omega : 0 ≤ w - s - 1) (by omega)
      rw [pow_zero, Int.ediv_one, show w - s - 1 - 0 + 1 = w - s by omega] at hext
      have hzero : Means env (bvZero s) s 0 := bvZero_means (by omega)
      have h := hext.concat hzero (le_refl _) (by positivity)
      rwa [Int.add_zero, show w - s + s = w by omega] at h

theorem bvBoolExtract_sign (ht : Means env t w x) (hw : 0 < w) (hx : -2 ^ (w - 1) ≤ x) (hx' : x < 2 ^ (w - 1)) :
    Holds env (bvBoolExtract t (w - 1)) (decide (x < 0)) := by
  have hext := ht.extract (le_refl (w - 1)) (by omega)
  rw [Nat.sub_self, Nat.zero_add] at hext
  have hone : Means env (bvOne 1) 1 1 := bvOne_means (by omega)
  have hpos : (0 : Int) < 2 ^ (w - 1) := by positivity
  by_cases hneg : x < 0
  · have hdiv : x / 2 ^ (w - 1) = -1 := Int.ediv_eq_neg_one_of_neg_of_le hneg (by omega)
    rw [hdiv] at hext
    have hbit : Means env (bvExtract t (w - 1) (w - 1)) 1 1 := hext.congr (by decide)
    have h := hbit.eq hone (by omega) (by omega) (by omega) (by omega)
    rw [decide_eq_true hneg]
    exact h
  · have hdiv : x / 2 ^ (w - 1) = 0 := Int.ediv_eq_zero_of_lt (by omega) hx'
    rw [hdiv] at hext
    have h := Means.eq hext hone (by omega) (by omega) (by omega) (by omega)
    rw [decide_eq_false hneg]
    exact h

/-- A term that is all ones at every width. -/
def IsMinusOne (bvMinusOne : Nat → SolverTerm) : Prop :=
  ∀ (env : Interpretation) {w : Nat}, 0 < w → Means env (bvMinusOne w) w (-1)

section Signed

variable {bvMinusOne : Nat → SolverTerm} {isSigned : SolverTerm}

theorem IsMinusOne.bvLength (h : IsMinusOne bvMinusOne) (hw : 0 < w) : (bvMinusOne w).bvLength = w :=
  (h (fun _ _ => 0) hw).bvLength

theorem bvLength_constructAShrByConstant (h : IsMinusOne bvMinusOne) (ht : t.bvLength = w) (hw : 0 < w) :
    (constructAShrByConstant bvMinusOne t s isSigned).bvLength = w := by
  unfold constructAShrByConstant
  rw [ht]
  dsimp only
  split
  · exact ht
  · split
    · exact bvLength_bvZero hw
    · show (bvMinusOne s).bvLength + (w - 1 - s + 1) = w
      rw [h.bvLength (by omega)]
      omega

theorem constructAShrByConstant_means (h : IsMinusOne bvMinusOne) (ht : Means env t w x) (hw : 0 < w)
    (hx : -2 ^ (w - 1) ≤ x) (hx' : x < 2 ^ (w - 1)) (hsign : Holds env isSigned (decide (x < 0))) :
    Means env (constructAShrByConstant bvMinusOne t s isSigned) w (if s < w then x / 2 ^ s else 0) := by
  have hdouble : (2 : Int) ^ w = 2 ^ (w - 1) + 2 ^ (w - 1) := by
    conv_lhs => rw [show w = w - 1 + 1 by omega]
    ring
  unfold constructAShrByConstant
  rw [ht.bvLength]
  dsimp only
  by_cases hs : s = 0
  · rwa [if_pos hs, if_pos (by omega), hs, pow_zero, Int.ediv_one]
  · rw [if_neg hs]
    by_cases hle : w ≤ s
    · rw [if_pos hle, if_neg (by omega)]
      exact bvZero_means hw
    · rw [if_neg hle, if_pos (by omega)]
      have hext := ht.extract (by omega : s ≤ w - 1) (by omega)
      rw [show w - 1 - s + 1 = w - s by omega] at hext
      have hpow : (2 : Int) ^ w = 2 ^ (w - s) * 2 ^ s := by rw [← pow_add, show w - s + s = w by omega]
      by_cases hneg : x < 0
      · -- the quotient in the lower bits, with ones above
        have hlow : 0 ≤ x / 2 ^ s + 2 ^ (w - s) := by
          have hle : -2 ^ (w - s) ≤ x / 2 ^ s := by
            rw [Int.le_ediv_iff_mul_le (by positivity), Int.neg_mul, ← hpow]
            omega
          omega
        have hdiv : x / 2 ^ s < 0 := Int.ediv_neg_of_neg_of_pos hneg (by positivity)
        have hext' : Means env (bvExtract t (w - 1) s) (w - s) (x / 2 ^ s + 2 ^ (w - s)) :=
          hext.congr Int.add_modEq_right.symm
        have hconcat := (h env (by omega : 0 < s)).concat hext' hlow (by omega)
        rw [show s + (w - s) = w by omega, show -1 * 2 ^ (w - s) + (x / 2 ^ s + 2 ^ (w - s)) = x / 2 ^ s by ring]
          at hconcat
        have hright : ∃ z, Means env (bvRightShift t s) w z := by
          have hcongr : Means env t w (x + 2 ^ w) := ht.congr Int.add_modEq_right.symm
          exact ⟨_, bvRightShift_means hcongr (by omega) (by omega) hw⟩
        obtain ⟨z, hz⟩ := hright
        have hite := Means.ite hsign hconcat hz
        rwa [decide_eq_true hneg, cond_true] at hite
      · have hright : Means env (bvRightShift t s) w (x / 2 ^ s) := bvRightShift_means ht (by omega) (by omega) hw
        have hones : ∃ z, Means env (.concat (bvMinusOne s) (bvExtract t (w - 1) s)) w z := by
          have hdiv : 0 ≤ x / 2 ^ s := Int.ediv_nonneg (by omega) (by positivity)
          have hdiv' : x / 2 ^ s < 2 ^ (w - s) := by
            rw [Int.ediv_lt_iff_lt_mul (by positivity), ← hpow]
            omega
          have hconcat := (h env (by omega : 0 < s)).concat hext hdiv hdiv'
          rw [show s + (w - s) = w by omega] at hconcat
          exact ⟨_, hconcat⟩
        obtain ⟨z, hz⟩ := hones
        have hite := Means.ite hsign hz hright
        rwa [decide_eq_false hneg, cond_false] at hite

end Signed

theorem shiftCases_spec {cond : Nat → Option SolverTerm} {c shifted : Nat → SolverTerm} {n : Nat} {res : SolverTerm}
    (hcond : ∀ i < n, cond i = some (c i)) (hres : res.bvLength = w) (hshifted : ∀ i < n, (shifted i).bvLength = w) :
    ∃ t, shiftCases cond shifted n res = some t ∧ t.bvLength = w ∧
      ∀ (env : Interpretation) (y : Nat) (f : Nat → Int) (r : Int), (∀ i < n, Holds env (c i) (decide (y = i))) →
        (∀ i < n, Means env (shifted i) w (f i)) → Means env res w r → Means env t w (if y < n then f y else r) := by
  induction n generalizing res with
  | zero =>
    refine ⟨res, rfl, hres, fun env y f r _ _ hr => ?_⟩
    rwa [if_neg (by omega)]
  | succ n ih =>
    have hlen : (SolverTerm.ite (c n) (shifted n) res).bvLength = w := hshifted n (by omega)
    obtain ⟨t, ht, htlen, hmeans⟩ := ih (fun i hi => hcond i (by omega)) hlen (fun i hi => hshifted i (by omega))
    refine ⟨t, ?_, htlen, fun env y f r hc hf hr => ?_⟩
    · rw [shiftCases, hcond n (by omega)]
      exact ht
    · have hite := Means.ite (hc n (by omega)) (hf n (by omega)) hr
      have h := hmeans env y f _ (fun i hi => hc i (by omega)) (fun i hi => hf i (by omega)) hite
      rcases Nat.lt_trichotomy y n with hlt | rfl | hgt
      · rw [if_pos hlt] at h
        rwa [if_pos (by omega)]
      · rw [if_neg (by omega), decide_eq_true rfl, cond_true] at h
        rwa [if_pos (by omega)]
      · rw [if_neg (by omega), decide_eq_false (by omega), cond_false] at h
        rwa [if_neg (by omega)]

/-- The end of a variable shift: the cases if the amount is below the width, zero otherwise. -/
def shiftOrZero (amount res : SolverTerm) (width : Nat) : SolverTerm :=
  .ite (.rel .ult amount (bvConst32 amount.bvLength width)) res (bvZero width)

/-- A variable shift as cases on the amount.  The conditions may look at a part of the amount, if that is right for the
amounts below the width; the last case is either zero or the shift by `width - 1`. -/
theorem varShift_spec {cond : Nat → Option SolverTerm} {c shifted : Nat → SolverTerm} {n : Nat} {res expr amount : SolverTerm}
    {value : APInt → Nat → APInt} {v : Nat} (hw : 1 < w) (hv : w < 2 ^ v) (hamount : amount.bvLength = v)
    (hcond : ∀ i < n, cond i = some (c i))
    (hholds : ∀ (env : Interpretation) (y : APInt), Denotes env amount y →
      ∃ y' : Nat, (∀ i < n, Holds env (c i) (decide (y' = i))) ∧ (y.toNat < w → y' = y.toNat))
    (hlen : ∀ i, (shifted i).bvLength = w)
    (hshifted : ∀ (env : Interpretation) (a : APInt), Denotes env expr a → ∀ i, Denotes env (shifted i) (value a i))
    (hend : n = w ∧ res = bvZero w ∨ n = w - 1 ∧ res = shifted (w - 1))
    (hzero : ∀ (a : APInt) (i : Nat), a.width ≤ i → value a i = bits a.width 0) (hexpr : expr.bvLength = w) :
    ∃ t, (shiftCases cond shifted n res).map (fun res => shiftOrZero amount res w) = some t ∧ t.bvLength = w ∧
      ∀ (env : Interpretation) (a y : APInt), Denotes env expr a → Denotes env amount y →
        Denotes env t (value a y.toNat) := by
  have hreslen : res.bvLength = w := by
    rcases hend with ⟨-, hres⟩ | ⟨-, hres⟩
    · rw [hres, bvLength_bvZero (by omega)]
    · rw [hres, hlen]
  obtain ⟨t, ht, htlen, hmeans⟩ := shiftCases_spec hcond hreslen fun i _ => hlen i
  refine ⟨shiftOrZero amount t w, by rw [ht]; rfl, htlen, fun env a y ha hy => ?_⟩
  have haw : a.width = w := ha.bvLength.symm.trans hexpr
  have hyv : y.width = v := hy.bvLength.symm.trans hamount
  have hvalue : ∀ i, Means env (shifted i) w (value a i).toNat := fun i => by
    have hd := hshifted env a ha i
    have hwidth : (value a i).width = w := hd.bvLength.symm.trans (hlen i)
    have h := hd.means
    rwa [hwidth] at h
  obtain ⟨y', hc, hy'⟩ := hholds env y hy
  -- the cases choose the shift by any amount below the width
  have hcases : ∃ z : Int, Means env t w z ∧ (y.toNat < w → z = (value a y.toNat).toNat) := by
    rcases hend with ⟨hn, hres⟩ | ⟨hn, hres⟩
    · have hmres : Means env res w 0 := by
        rw [hres]
        exact bvZero_means (by omega)
      refine ⟨_, hmeans env y' _ _ hc (fun i _ => hvalue i) hmres, fun hlt => ?_⟩
      rw [if_pos (by rw [hy' hlt, hn]; exact hlt), hy' hlt]
    · have hmres : Means env res w (value a (w - 1)).toNat := by
        rw [hres]
        exact hvalue (w - 1)
      refine ⟨_, hmeans env y' _ _ hc (fun i _ => hvalue i) hmres, fun hlt => ?_⟩
      rw [hy' hlt]
      split
      · rfl
      · rename_i hge
        rw [show y.toNat = w - 1 by omega]
  obtain ⟨z, hz, hz'⟩ := hcases
  have hvpos : 0 < v := by
    by_contra hv0
    rw [show v = 0 by omega] at hv
    omega
  have hult : Holds env (.rel .ult amount (bvConst32 amount.bvLength w)) (decide ((y.toNat : Int) < w)) := by
    have hmy : Means env amount v y.toNat := by
      have h := hy.means
      rwa [hyv] at h
    have hylt : y.toNat < 2 ^ y.width := y.toNat_lt
    rw [hyv] at hylt
    rw [hamount]
    exact hmy.ult (Means.const hvpos w) (by omega) (by exact_mod_cast hylt) (by omega) (by exact_mod_cast hv)
  have hite : Means env (shiftOrZero amount t w) w _ := Means.ite hult hz (bvZero_means (by omega))
  by_cases hlt : y.toNat < w
  · rw [decide_eq_true (by exact_mod_cast hlt), cond_true, hz' hlt] at hite
    have hwidth : (value a y.toNat).width = w := (hshifted env a ha _).bvLength.symm.trans (hlen _)
    have hbits : bits w (value a y.toNat).toNat = value a y.toNat := by rw [← hwidth, bits_toNat]
    unfold Means at hite
    rwa [hbits] at hite
  · rw [decide_eq_false (by exact_mod_cast hlt), cond_false] at hite
    rw [hzero a y.toNat (by omega), haw]
    exact hite

end CgsKlee
