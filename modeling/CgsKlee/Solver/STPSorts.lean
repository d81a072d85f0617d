import CgsKlee.Solver.BuildersAgree
import CgsKlee.Solver.RespectsSorts

/-!
# STPBuilder and the sorts of STP

The backend for STP gives terms of the right sorts (`STPBuilder.backend_sortSound`).  With `optimizeDivides` it traps at a
division of 32 bits by the constant zero, since it computes the multiplier for the divisor.
-/

namespace CgsKlee

open Smt OptionState

namespace STPBuilder

section Operations

variable {w v : Nat} {e amount t l r : SolverTerm}

theorem bvMinusOne_isVector (hw : 0 < w) : (bvMinusOne w).IsVector w := by
  unfold bvMinusOne bvSExtConst
  split
  · exact .const _ hw
  · exact .signExtend hw (.const (2 ^ 64 - 1) (by omega : 0 < 64))

theorem op_isVector {o : BvOp} (hl : l.IsVector w) (hr : r.IsVector w) (h : op o w l r = some t) : t.IsVector w := by
  unfold op at h
  split at h
  · obtain rfl := Option.some.inj h
    exact .op o hl hr
  · cases h

theorem eqExpr_sorted (hl : l.IsVector w) (hr : r.IsVector v) (h : eqExpr l r = some t) :
    t.Sorted ∧ t.isBool = true := by
  unfold eqExpr at h
  split at h
  · obtain rfl := Option.some.inj h
    exact ⟨.eq hl hr, rfl⟩
  · cases h

theorem bvVarShift_isVector {shifted : Nat → SolverTerm} {cases : Nat} {res : SolverTerm} (he : e.IsVector w)
    (hamount : amount.IsVector v) (hshifted : ∀ i, (shifted i).IsVector w) (hres : res.IsVector w)
    (h : bvVarShift shifted cases res e amount = some t) : t.IsVector w := by
  unfold bvVarShift extractPartialShiftValue at h
  rw [he.bvLength] at h
  obtain ⟨out, hcases, rfl⟩ := Option.map_eq_some_iff.mp h
  have hsize : 0 < w.size := Nat.size_pos.mpr he.pos
  have hout : out.IsVector w := shiftCases_isVector (fun i c hc =>
    eqExpr_sorted (hamount.extract (w.size - 1) 0) (.const i hsize) hc) hshifted hres hcases
  exact shiftOrZero_isVector hout hamount

theorem bvVarRightShift_isVector (he : e.IsVector w) (hamount : amount.IsVector v)
    (h : bvVarRightShift e amount = some t) : t.IsVector w := by
  unfold bvVarRightShift at h
  rw [he.bvLength] at h
  exact bvVarShift_isVector he hamount (bvRightShift_isVector he) (bvZero_isVector he.pos) h

theorem bvVarLeftShift_isVector (he : e.IsVector w) (hamount : amount.IsVector v)
    (h : bvVarLeftShift e amount = some t) : t.IsVector w := by
  unfold bvVarLeftShift at h
  rw [he.bvLength] at h
  exact bvVarShift_isVector he hamount (bvLeftShift_isVector he) (bvZero_isVector he.pos) h

theorem bvVarArithRightShift_isVector (he : e.IsVector w) (hamount : amount.IsVector v)
    (h : bvVarArithRightShift e amount = some t) : t.IsVector w := by
  unfold bvVarArithRightShift at h
  rw [he.bvLength] at h
  have hconst : ∀ i, (constructAShrByConstant bvMinusOne e i (bvBoolExtract e (w - 1))).IsVector w := fun i =>
    constructAShrByConstant_isVector (fun _ => bvMinusOne_isVector) he (bvBoolExtract_sorted he _) rfl i
  exact bvVarShift_isVector he hamount hconst (hconst _) h

end Operations

section Constants

variable {expr t : SolverTerm} {w : Nat}

theorem mulByConstantStep_isVector {add sub j : Nat} {res res' : Option SolverTerm} (he : expr.IsVector w)
    (hres : ∀ t, res = some t → t.IsVector w) (h : mulByConstantStep expr w add sub j res = some res') :
    ∀ t, res' = some t → t.IsVector w := by
  have hshift : (bvLeftShift expr j).IsVector w := bvLeftShift_isVector he j
  unfold mulByConstantStep at h
  split at h
  · split at h
    · cases h
    · dsimp only at h
      split at h
      · cases res with
        | some u =>
          obtain ⟨t, ht, rfl⟩ := Option.map_eq_some_iff.mp h
          rintro _ ⟨⟩
          exact op_isVector (hres u rfl) hshift ht
        | none =>
          obtain rfl := Option.some.inj h
          rintro _ ⟨⟩
          exact hshift
      · cases res with
        | some u =>
          obtain ⟨t, ht, rfl⟩ := Option.map_eq_some_iff.mp h
          rintro _ ⟨⟩
          exact op_isVector (hres u rfl) hshift ht
        | none =>
          obtain rfl := Option.some.inj h
          rintro _ ⟨⟩
          exact hshift.bvNeg
  · obtain rfl := Option.some.inj h
    exact hres

theorem mulByConstantLoop_isVector {add sub n : Nat} {res res' : Option SolverTerm} (he : expr.IsVector w)
    (hres : ∀ t, res = some t → t.IsVector w) (h : mulByConstantLoop expr w add sub n res = some res') :
    ∀ t, res' = some t → t.IsVector w := by
  induction n generalizing res with
  | zero =>
    obtain rfl := Option.some.inj h
    exact hres
  | succ j ih =>
    obtain ⟨res₁, hstep, hrest⟩ := Option.bind_eq_some_iff.mp h
    exact ih (mulByConstantStep_isVector he hres hstep) hrest

theorem constructMulByConstant_isVector {x : Nat} (he : expr.IsVector w) (h : constructMulByConstant expr w x = some t) :
    t.IsVector w := by
  obtain ⟨⟨add, sub⟩, -, h⟩ := Option.bind_eq_some_iff.mp h
  obtain ⟨res, hloop, h⟩ := Option.bind_eq_some_iff.mp h
  obtain rfl := Option.some.inj h
  have hres := mulByConstantLoop_isVector he (fun _ hu => by cases hu) hloop
  cases res with
  | none => exact bvZero_isVector he.pos
  | some u => exact hres u rfl

theorem constructUDivByConstant_isVector {d : Nat} (he : expr.IsVector w) (h : constructUDivByConstant expr w d = some t) :
    t.IsVector w := by
  unfold constructUDivByConstant at h
  split at h
  · rename_i hw
    subst hw
    obtain ⟨⟨mprime, sh1, sh2⟩, -, h⟩ := Option.bind_eq_some_iff.mp h
    obtain ⟨t₁, hmul, h⟩ := Option.bind_eq_some_iff.mp h
    obtain ⟨t₂, hsub, h⟩ := Option.bind_eq_some_iff.mp h
    obtain ⟨t₃, hshift, h⟩ := Option.bind_eq_some_iff.mp h
    obtain ⟨t₄, hadd, h⟩ := Option.bind_eq_some_iff.mp h
    have h₁ : t₁.IsVector 64 :=
      constructMulByConstant_isVector ((bvZero_isVector (by omega : 0 < 32)).concat he) hmul
    have hupper : (SolverTerm.extract t₁ 63 32).IsVector 32 := h₁.extract 63 32
    have h₂ : t₂.IsVector 32 := op_isVector he hupper hsub
    have h₃ : t₃.IsVector 32 := bvVarRightShift_isVector h₂ (.const sh1 (by omega : 0 < 32)) hshift
    have h₄ : t₄.IsVector 32 := op_isVector h₃ hupper hadd
    exact bvVarRightShift_isVector h₄ (.const sh2 (by omega : 0 < 32)) h
  · cases h

theorem constructSDivByConstant_isVector {d : Int} (he : expr.IsVector w) (h : constructSDivByConstant expr w d = some t) :
    t.IsVector w := by
  unfold constructSDivByConstant at h
  split at h
  · rename_i hw
    subst hw
    obtain ⟨⟨mprime, dsign, shpost⟩, -, h⟩ := Option.bind_eq_some_iff.mp h
    obtain ⟨t₁, hmul, h⟩ := Option.bind_eq_some_iff.mp h
    obtain ⟨t₂, hadd, h⟩ := Option.bind_eq_some_iff.mp h
    obtain ⟨t₃, hshift, h⟩ := Option.bind_eq_some_iff.mp h
    obtain ⟨t₄, hsub, h⟩ := Option.bind_eq_some_iff.mp h
    have h₁ : t₁.IsVector 64 := constructMulByConstant_isVector (.signExtend (by omega) he) hmul
    have h₂ : t₂.IsVector 32 := op_isVector he (h₁.extract 63 32) hadd
    have h₃ : t₃.IsVector 64 :=
      bvVarRightShift_isVector (.signExtend (by omega : 0 < 64) h₂) (.const shpost (by omega : 0 < 32)) hshift
    have hsign : (SolverTerm.ite (bvBoolExtract expr 31) (bvMinusOne 32) (bvZero 32)).IsVector 32 :=
      .ite (bvBoolExtract_sorted he 31) rfl (bvMinusOne_isVector (by omega)) (bvZero_isVector (by omega))
    have h₄ : t₄.IsVector 32 := op_isVector (h₃.extract 31 0) hsign hsub
    have hdsign : (bvConst32 32 (dsign % 2 ^ 32).toNat).IsVector 32 := .const _ (by omega)
    exact op_isVector (.op .xor h₄ hdsign) hdsign h
  · cases h

theorem mulConstant_sorts : SortsSpecialCase mulConstant := by
  intro c w t t' _ _ ht h
  unfold mulConstant at h
  split at h
  · exact constructMulByConstant_isVector ht (Option.some.inj h)
  · cases h

theorem udivConstant_sorts (optimizeDivides : Bool) : SortsSpecialCase (udivConstant optimizeDivides) := by
  intro c w t t' _ _ ht h
  unfold udivConstant at h
  split at h
  · split at h
    · obtain ⟨shift, -, rfl⟩ := Option.map_eq_some_iff.mp (Option.some.inj h)
      exact bvRightShift_isVector ht shift
    · split at h
      · exact constructUDivByConstant_isVector ht (Option.some.inj h)
      · cases h
  · cases h

theorem sdivConstant_sorts (optimizeDivides : Bool) : SortsSpecialCase (sdivConstant optimizeDivides) := by
  intro c w t t' _ _ ht h
  unfold sdivConstant at h
  split at h
  · have hrun := Option.some.inj h
    split at hrun
    · exact constructSDivByConstant_isVector ht hrun
    · cases hrun
  · cases h

theorem uremConstant_sorts (optimizeDivides : Bool) : SortsSpecialCase (uremConstant optimizeDivides) := by
  intro c w t t' hw hcw ht h
  unfold uremConstant at h
  split at h
  · rename_i h64
    split at h
    · rename_i hpower
      obtain ⟨bits, hbits, hrun⟩ := Option.bind_eq_some_iff.mp (Option.some.inj h)
      obtain ⟨l, hl, -, hindex⟩ := Backend.exists_power hcw h64 hpower
      obtain rfl : l = bits := Option.some.inj (hindex.symm.trans hbits)
      split at hrun
      · obtain rfl := Option.some.inj hrun
        exact bvZero_isVector ht.pos
      · rename_i hne
        obtain rfl := Option.some.inj hrun
        have hconcat := (bvZero_isVector (by omega : 0 < w - l)).concat (ht.extract (l - 1) 0)
        rwa [show w - l + (l - 1 - 0 + 1) = w by omega] at hconcat
    · split at h
      · obtain ⟨quotient, hquotient, hrun⟩ := Option.bind_eq_some_iff.mp (Option.some.inj h)
        obtain ⟨product, hproduct, hrun⟩ := Option.bind_eq_some_iff.mp hrun
        have hvector := constructMulByConstant_isVector (constructUDivByConstant_isVector ht hquotient) hproduct
        exact op_isVector ht hvector hrun
      · cases h
  · cases h

end Constants

/-- The divisions by a constant at which the builder traps: `ComputeUDivConstants32` and `ComputeSDivConstants32` divide
by the constant. -/
def trap (optimizeDivides : Bool) (kind : BinaryKind) (c : APInt) : Prop :=
  optimizeDivides = true ∧ (kind = .udiv ∨ kind = .sdiv ∨ kind = .urem) ∧ c.width = 32 ∧ c.toNat = 0

section Traps

variable {optimizeDivides : Bool}

theorem udivConstant_traps : TrapsAtZero (trap optimizeDivides .udiv) (udivConstant optimizeDivides) := by
  rintro c w t rfl
  unfold udivConstant
  constructor
  · rintro ⟨hopt, -, hw, hzero⟩
    rw [if_pos (by omega), hzero, if_neg (by decide), if_pos ⟨hopt, hw⟩, hw]
    rfl
  · intro hnot hzero
    split
    · rw [hzero, if_neg (by decide), if_neg fun h => hnot ⟨h.1, .inl rfl, h.2, hzero⟩]
    · rfl

theorem uremConstant_traps : TrapsAtZero (trap optimizeDivides .urem) (uremConstant optimizeDivides) := by
  rintro c w t rfl
  unfold uremConstant
  constructor
  · rintro ⟨hopt, -, hw, hzero⟩
    rw [if_pos (by omega), hzero, if_neg (by decide), if_pos ⟨hopt, hw⟩, hw]
    rfl
  · intro hnot hzero
    split
    · rw [hzero, if_neg (by decide), if_neg fun h => hnot ⟨h.1, .inr (.inr rfl), h.2, hzero⟩]
    · rfl

theorem sdivConstant_traps : TrapsAtZero (trap optimizeDivides .sdiv) (sdivConstant optimizeDivides) := by
  rintro c w t rfl
  unfold sdivConstant
  constructor
  · rintro ⟨hopt, -, hw, hzero⟩
    have hone : c ≠ .ofNat c.width 1 := fun h => by
      have htoNat : c.toNat = 1 % 2 ^ c.width := (congrArg APInt.toNat h).trans (BitVec.toNat_ofNat 1 c.width)
      rw [hzero, hw] at htoNat
      cases htoNat
    have hones : c ≠ ⟨c.width, BitVec.allOnes c.width⟩ := fun h => by
      have htoNat : c.toNat = 2 ^ c.width - 1 := (congrArg APInt.toNat h).trans BitVec.toNat_allOnes
      rw [hzero, hw] at htoNat
      cases htoNat
    rw [if_pos ⟨hopt, hone, hones, hw⟩, if_pos (by omega), hzero, hw]
    rfl
  · intro hnot hzero
    exact if_neg fun h => hnot ⟨h.1, .inr (.inl rfl), h.2.2.2, hzero⟩

end Traps

theorem contents_isVector {root : ExprArray} (hindexed : root.Indexed) {array : ArrayTerm} (ha : array.Sorted)
    (hrange : array.range = root.range) : ∀ (n k : Nat),
    ((List.range' k n).foldl (fun prev i => ArrayTerm.write prev (constructConstant (.ofNat root.domain i))
        (constructConstant ⟨root.range, root.constantValues.getD i 0⟩)) array).Sorted ∧
      ((List.range' k n).foldl (fun prev i => ArrayTerm.write prev (constructConstant (.ofNat root.domain i))
        (constructConstant ⟨root.range, root.constantValues.getD i 0⟩)) array).range = root.range := by
  intro n
  induction n generalizing array with
  | zero => exact fun _ => ⟨ha, hrange⟩
  | succ n ih =>
    intro k
    have hindex : (constructConstant (.ofNat root.domain k)).IsVector root.domain :=
      constructConstant_isVector (c := .ofNat root.domain k) hindexed.1
    have hvalue : (constructConstant ⟨root.range, root.constantValues.getD k 0⟩).IsVector root.range :=
      constructConstant_isVector (c := ⟨root.range, root.constantValues.getD k 0⟩) hindexed.2
    rw [List.range'_succ, List.foldl_cons]
    exact ih (.write ha hindex hvalue) hrange (k + 1)

theorem initialArray_sorts (root : ExprArray) (name : String) (s : BuilderState) : ∃ array assertions,
    initialArray root (.var name root.domain root.range) s =
        some (array, { s with constantArrayAssertions := assertions }) ∧
      (root.Indexed → array.Sorted ∧ array.range = root.range) := by
  unfold initialArray
  split
  · exact ⟨_, s.constantArrayAssertions, rfl, fun _ => ⟨trivial, rfl⟩⟩
  · refine ⟨_, s.constantArrayAssertions, rfl, fun hindexed => ?_⟩
    have hvar : (ArrayTerm.var name root.domain root.range).Sorted := trivial
    rw [List.range_eq_range']
    exact contents_isVector hindexed hvar rfl root.size 0

theorem backend_sortSound (useConstructHash optimizeDivides : Bool) :
    (backend useConstructHash optimizeDivides).SortSound (trap optimizeDivides) where
  minusOne := fun _ => bvMinusOne_isVector
  varLeftShift := fun _ => bvVarLeftShift_isVector
  varRightShift := fun _ => bvVarRightShift_isVector
  varArithRightShift := fun _ => bvVarArithRightShift_isVector
  mul := mulConstant_sorts
  udiv := udivConstant_sorts optimizeDivides
  sdiv := sdivConstant_sorts optimizeDivides
  urem := uremConstant_sorts optimizeDivides
  udivTraps := udivConstant_traps
  sdivTraps := sdivConstant_traps
  uremTraps := uremConstant_traps
  division := fun _ _ h => h.2.1
  initialArray := initialArray_sorts

/-- The builder respects the sorts of STP for an expression of the smart constructors if and only if no part of it is a
concatenation with an operand of width 1 or a read of an array that has single bits as indices or as elements; the parts
with a division at which the builder traps do not count, since nothing is built of them.  If it does and no division
traps, a term is built in every state. -/
theorem construct_respectsSorts_iff (useConstructHash optimizeDivides : Bool) (name : ExprArray → String) {opt : Bool}
    {e : Expr} (hc : e.Created opt) (ht : e.WellTyped) (hbits : e.HasBits) :
    ((backend useConstructHash optimizeDivides).RespectsSorts name e ↔
      e.ForallNodes (Expr.SortsNode (trap optimizeDivides))) ∧
    ((backend useConstructHash optimizeDivides).RespectsSorts name e → e.TrapFree (trap optimizeDivides) →
      ∀ s, (backend useConstructHash optimizeDivides).Visited name s →
        ∃ res, (backend useConstructHash optimizeDivides).construct name e s = some res) := by
  have hb := backend_sound useConstructHash optimizeDivides
  have hs := backend_sortSound useConstructHash optimizeDivides
  have hin : e.IsInput := ⟨ht, hc.canonical, hbits⟩
  exact ⟨Backend.respectsSorts_iff hb hs hin, fun h hfree s hvisited => Backend.exists_construct hb hs hin h hfree hvisited⟩

theorem seventh_respectsSorts : (backend true true).RespectsSorts (fun _ => "arr") seventh := by
  have hbits : seventh.HasBits :=
    ⟨⟨⟨trivial, (by decide : 0 < 32), (by decide : 0 < 32), (by decide : 0 < 8)⟩, trivial⟩, (by decide : 0 < 32), trivial⟩
  have hvector : ∀ {e : Expr}, e.VectorNode → e.SortsNode (trap true) := .inl
  exact (construct_respectsSorts_iff true true _ seventh_created seventh_wellTyped hbits).1.mpr
    ⟨⟨⟨trivial, hvector trivial, hvector ⟨(by decide : 1 < 32), (by decide : 1 < 8)⟩⟩, hvector trivial⟩,
      hvector trivial, hvector trivial⟩

def flaggedByte : Expr :=
  .concat (.cmp .eq (firstByte (byteArray 0)) (firstByte (byteArray 1))) (firstByte (byteArray 2))

theorem flaggedByte_created : flaggedByte.Created true := by
  refine .create (p := flaggedByte) (fun k hk => ?_) .nil (by decide)
  rcases List.mem_cons.mp hk with rfl | hk
  · refine .create (p := .cmp .eq (firstByte (byteArray 0)) (firstByte (byteArray 1))) (fun k hk => ?_) .nil
      (by decide)
    rcases List.mem_cons.mp hk with rfl | hk
    · exact (isByte_firstByte 0).created
    · obtain rfl := List.mem_singleton.mp hk
      exact (isByte_firstByte 1).created
  · obtain rfl := List.mem_singleton.mp hk
    exact (isByte_firstByte 2).created

/-- The concatenation is applied to a truth value. -/
theorem flaggedByte_not_respectsSorts : flaggedByte.Created true ∧ flaggedByte.WellTyped ∧ flaggedByte.HasBits ∧
    ((backend true true).construct (fun _ => "arr") flaggedByte .empty).map (fun res => res.1) =
      some (.concat (.eq (.read (.var "arr1" 32 8) (.const 32 0)) (.read (.var "arr2" 32 8) (.const 32 0)))
        (.read (.var "arr0" 32 8) (.const 32 0)), 9) ∧
    ¬ (backend true true).RespectsSorts (fun _ => "arr") flaggedByte := by
  have hrun : ((backend true true).construct (fun _ => "arr") flaggedByte .empty).map (fun res => res.1) =
      some (.concat (.eq (.read (.var "arr1" 32 8) (.const 32 0)) (.read (.var "arr2" 32 8) (.const 32 0)))
        (.read (.var "arr0" 32 8) (.const 32 0)), 9) := by decide
  have hbyte : ∀ id, (firstByte (byteArray id)).HasBits := fun _ =>
    ⟨trivial, (by decide : 0 < 32), (by decide : 0 < 32), (by decide : 0 < 8)⟩
  refine ⟨flaggedByte_created, ⟨⟨(isByte_firstByte 0).wellTyped, (isByte_firstByte 1).wellTyped, rfl⟩,
    (isByte_firstByte 2).wellTyped⟩, ⟨⟨hbyte 0, hbyte 1, trivial⟩, hbyte 2, trivial⟩, hrun, fun h => ?_⟩
  obtain ⟨⟨res, s'⟩, hconstruct, rfl⟩ := Option.map_eq_some_iff.mp hrun
  obtain ⟨-, -, hbool, -⟩ := ((h.self _ .empty).sorted _ _ _ hconstruct).1
  cases hbool

end STPBuilder

end CgsKlee
