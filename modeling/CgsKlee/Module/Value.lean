import CgsKlee.Lib.SolverTerms

/-!
# Values of instructions

The integer instructions that the passes over modules insert, as terms over the operands of the instruction that they
replace, with the semantics of LLVM on bit vectors.  `Reads` relates a term to the integer that it stands for, so that
the instructions can be followed in the integers as long as these fit.
-/

namespace CgsKlee

open Smt

inductive BinaryOps
  | add | sub | mul | and | xor | or
  deriving DecidableEq, Repr

def BinaryOps.apply {w : Nat} : BinaryOps → BitVec w → BitVec w → BitVec w
  | add => (· + ·)
  | sub => (· - ·)
  | mul => (· * ·)
  | and => (· &&& ·)
  | xor => (· ^^^ ·)
  | or => (· ||| ·)

inductive CmpPredicate
  | ugt | ult | sgt | slt
  deriving DecidableEq, Repr

def CmpPredicate.apply {w : Nat} : CmpPredicate → BitVec w → BitVec w → Bool
  | ugt => fun x y => y.ult x
  | ult => BitVec.ult
  | sgt => fun x y => y.slt x
  | slt => BitVec.slt

inductive InstValue
  | operand (i : Nat)
  | constant (c : APInt)
  | zext (v : InstValue) (width : Nat)
  | sext (v : InstValue) (width : Nat)
  | trunc (v : InstValue) (width : Nat)
  | binary (op : BinaryOps) (a b : InstValue)
  | icmp (p : CmpPredicate) (a b : InstValue)
  | select (c a b : InstValue)
  deriving DecidableEq, Repr

namespace InstValue

def eval (operands : Nat → APInt) : InstValue → APInt
  | operand i => operands i
  | constant c => c
  | zext v width => (eval operands v).zextOrTrunc width
  | sext v width => (eval operands v).sextOrTrunc width
  | trunc v width => (eval operands v).zextOrTrunc width
  | binary op a b => .map₂ op.apply (eval operands a) (eval operands b)
  | icmp p a b => .rel₂ p.apply (eval operands a) (eval operands b)
  | select c a b => if eval operands c = .ofBool true then eval operands a else eval operands b

/-- The value is the integer `z` in `w` bits. -/
def Reads (operands : Nat → APInt) (v : InstValue) (w : Nat) (z : Int) : Prop := v.eval operands = bits w z

def Decides (operands : Nat → APInt) (v : InstValue) (p : Bool) : Prop := v.eval operands = .ofBool p

variable {operands : Nat → APInt} {v u c : InstValue} {w w' : Nat} {x y : Int} {p q : Bool}

theorem Reads.congr (h : Reads operands v w x) (hxy : x ≡ y [ZMOD 2 ^ w]) : Reads operands v w y :=
  h.trans (bits_eq_iff.mpr hxy)

theorem Reads.constant (w : Nat) (b : BitVec w) (hx : b = BitVec.ofInt w x) : Reads operands (.constant ⟨w, b⟩) w x := by
  subst hx
  rfl

theorem Reads.zext (h : Reads operands v w x) (hx : 0 ≤ x) (hx' : x < 2 ^ w) (w' : Nat) :
    Reads operands (.zext v w') w' x := by
  refine bits_eq_of_toNat rfl ?_
  have hnat : (bits w x).toNat = x := toNat_bits_of_lt hx hx'
  have heval : ((InstValue.zext v w').eval operands).toNat = (bits w x).toNat % 2 ^ w' := by
    have hstep : (InstValue.zext v w').eval operands = (bits w x).zextOrTrunc w' := congrArg (·.zextOrTrunc w') h
    rw [hstep]
    exact BitVec.toNat_setWidth ..
  rw [heval, Int.natCast_mod, hnat]
  push_cast
  exact Int.mod_modEq _ _

theorem Reads.sext (h : Reads operands v w x) (hw : 0 < w) (hx : -2 ^ (w - 1) ≤ x) (hx' : x < 2 ^ (w - 1))
    (hle : w ≤ w') : Reads operands (.sext v w') w' x := by
  have hstep : (InstValue.sext v w').eval operands = (bits w x).sextOrTrunc w' := congrArg (·.sextOrTrunc w') h
  exact hstep.trans (sextOrTrunc_bits hw hx hx' hle)

theorem Reads.trunc (h : Reads operands v w x) (hle : w' ≤ w) : Reads operands (.trunc v w') w' x := by
  refine bits_eq_of_toNat rfl ?_
  have heval : ((InstValue.trunc v w').eval operands).toNat = (bits w x).toNat % 2 ^ w' := by
    have hstep : (InstValue.trunc v w').eval operands = (bits w x).zextOrTrunc w' := congrArg (·.zextOrTrunc w') h
    rw [hstep]
    exact BitVec.toNat_setWidth ..
  rw [heval, Int.natCast_mod, toNat_bits]
  push_cast
  exact (Int.mod_modEq _ _).trans ((Int.mod_modEq x _).of_dvd (pow_dvd_pow 2 hle))

theorem Reads.binary {op : BinaryOps} (h : Reads operands v w x) (h' : Reads operands u w y) :
    (InstValue.binary op v u).eval operands = ⟨w, op.apply (BitVec.ofInt w x) (BitVec.ofInt w y)⟩ :=
  (congrArg₂ (APInt.map₂ op.apply) h h').trans (map₂_bits _ x y)

theorem Reads.add (h : Reads operands v w x) (h' : Reads operands u w y) :
    Reads operands (.binary .add v u) w (x + y) :=
  (h.binary h').trans (congrArg (APInt.mk w) (BitVec.ofInt_add x y).symm)

theorem Reads.sub (h : Reads operands v w x) (h' : Reads operands u w y) :
    Reads operands (.binary .sub v u) w (x - y) := by
  refine (h.binary h').trans (congrArg (APInt.mk w) ?_)
  rw [Int.sub_eq_add_neg, BitVec.ofInt_add, BitVec.ofInt_neg]
  exact BitVec.sub_eq_add_neg ..

theorem Reads.mul (h : Reads operands v w x) (h' : Reads operands u w y) :
    Reads operands (.binary .mul v u) w (x * y) :=
  (h.binary h').trans (congrArg (APInt.mk w) (BitVec.ofInt_mul x y).symm)

theorem Reads.icmp {r : CmpPredicate} (h : Reads operands v w x) (h' : Reads operands u w y) :
    Decides operands (.icmp r v u) (r.apply (BitVec.ofInt w x) (BitVec.ofInt w y)) :=
  (congrArg₂ (APInt.rel₂ r.apply) h h').trans (APInt.rel₂_mk ..)

theorem Reads.ult (h : Reads operands v w x) (h' : Reads operands u w y) :
    Decides operands (.icmp .ult v u) (decide (x % 2 ^ w < y % 2 ^ w)) := by
  refine (h.icmp h').trans (congrArg APInt.ofBool ?_)
  have hx : ((BitVec.ofInt w x).toNat : Int) = x % 2 ^ w := toNat_bits w x
  have hy : ((BitVec.ofInt w y).toNat : Int) = y % 2 ^ w := toNat_bits w y
  rw [← hx, ← hy]
  exact decide_eq_decide.mpr Int.ofNat_lt.symm

theorem Reads.ugt (h : Reads operands v w x) (h' : Reads operands u w y) :
    Decides operands (.icmp .ugt v u) (decide (y % 2 ^ w < x % 2 ^ w)) := by
  have hgt : (InstValue.icmp .ugt v u).eval operands = .ofBool ((BitVec.ofInt w y).ult (BitVec.ofInt w x)) := h.icmp h'
  have hlt : (InstValue.icmp .ult u v).eval operands = .ofBool ((BitVec.ofInt w y).ult (BitVec.ofInt w x)) := h'.icmp h
  exact hgt.trans (hlt.symm.trans (h'.ult h))

theorem Reads.slt (h : Reads operands v w x) (h' : Reads operands u w y) (hw : 0 < w) (hx : -2 ^ (w - 1) ≤ x)
    (hx' : x < 2 ^ (w - 1)) (hy : -2 ^ (w - 1) ≤ y) (hy' : y < 2 ^ (w - 1)) :
    Decides operands (.icmp .slt v u) (decide (x < y)) := by
  refine (h.icmp h').trans (congrArg APInt.ofBool ?_)
  have htoInt : (BitVec.ofInt w x).toInt = x := BitVec.toInt_ofInt_eq_self hw hx hx'
  have htoInt' : (BitVec.ofInt w y).toInt = y := BitVec.toInt_ofInt_eq_self hw hy hy'
  rw [CmpPredicate.apply, BitVec.slt_eq_decide, htoInt, htoInt']

theorem Reads.sgt (h : Reads operands v w x) (h' : Reads operands u w y) (hw : 0 < w) (hx : -2 ^ (w - 1) ≤ x)
    (hx' : x < 2 ^ (w - 1)) (hy : -2 ^ (w - 1) ≤ y) (hy' : y < 2 ^ (w - 1)) :
    Decides operands (.icmp .sgt v u) (decide (y < x)) := by
  have hgt : (InstValue.icmp .sgt v u).eval operands = .ofBool ((BitVec.ofInt w y).slt (BitVec.ofInt w x)) := h.icmp h'
  have hlt : (InstValue.icmp .slt u v).eval operands = .ofBool ((BitVec.ofInt w y).slt (BitVec.ofInt w x)) := h'.icmp h
  exact hgt.trans (hlt.symm.trans (h'.slt h hw hy hy' hx hx'))

theorem Decides.congr (h : Decides operands v p) (hpq : p = q) : Decides operands v q := hpq ▸ h

theorem Decides.binary {op : BinaryOps} (h : Decides operands v p) (h' : Decides operands u q) :
    (InstValue.binary op v u).eval operands = .map₂ op.apply (.ofBool p) (.ofBool q) :=
  congrArg₂ (APInt.map₂ op.apply) h h'

theorem Decides.or (h : Decides operands v p) (h' : Decides operands u q) :
    Decides operands (.binary .or v u) (p || q) := by
  refine (h.binary h').trans ?_
  cases p <;> cases q <;> decide

theorem Decides.and (h : Decides operands v p) (h' : Decides operands u q) :
    Decides operands (.binary .and v u) (p && q) := by
  refine (h.binary h').trans ?_
  cases p <;> cases q <;> decide

theorem Decides.xor (h : Decides operands v p) (h' : Decides operands u q) :
    Decides operands (.binary .xor v u) (p ^^ q) := by
  refine (h.binary h').trans ?_
  cases p <;> cases q <;> decide

theorem Reads.select (hc : Decides operands c p) (h : Reads operands v w x) (h' : Reads operands u w y) :
    Reads operands (.select c v u) w (if p then x else y) := by
  unfold Reads
  rw [eval, hc]
  cases p with
  | true => exact h
  | false => exact h'

end InstValue

end CgsKlee
