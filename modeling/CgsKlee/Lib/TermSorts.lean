import CgsKlee.Lib.SolverTerms

/-!
# Sorts of solver terms

A term is a truth value or a vector (`SolverTerm.isBool`).  `SolverTerm.Sorted` says that every operation in a term is
applied to operands of the right kind, whatever their widths: the connectives to truth values, the operations on vectors
to vectors, and a choice to two terms of one kind.
-/

namespace Smt

mutual

def SolverTerm.Sorted : SolverTerm → Prop
  | .bool _ => True
  | .const _ _ => True
  | .not t => t.Sorted ∧ t.isBool = true
  | .and t u => t.Sorted ∧ u.Sorted ∧ t.isBool = true ∧ u.isBool = true
  | .or t u => t.Sorted ∧ u.Sorted ∧ t.isBool = true ∧ u.isBool = true
  | .iff t u => t.Sorted ∧ u.Sorted ∧ t.isBool = true ∧ u.isBool = true
  | .ite c t u => c.Sorted ∧ t.Sorted ∧ u.Sorted ∧ c.isBool = true ∧ t.isBool = u.isBool
  | .eq t u => t.Sorted ∧ u.Sorted ∧ t.isBool = false ∧ u.isBool = false
  | .rel _ t u => t.Sorted ∧ u.Sorted ∧ t.isBool = false ∧ u.isBool = false
  | .bvNot t => t.Sorted ∧ t.isBool = false
  | .bvNeg t => t.Sorted ∧ t.isBool = false
  | .op _ t u => t.Sorted ∧ u.Sorted ∧ t.isBool = false ∧ u.isBool = false
  | .concat t u => t.Sorted ∧ u.Sorted ∧ t.isBool = false ∧ u.isBool = false
  | .extract t _ _ => t.Sorted ∧ t.isBool = false
  | .signExtend t _ => t.Sorted ∧ t.isBool = false
  | .read a i => a.Sorted ∧ i.Sorted ∧ i.isBool = false

def ArrayTerm.Sorted : ArrayTerm → Prop
  | .var _ _ _ => True
  | .write a i v => a.Sorted ∧ i.Sorted ∧ v.Sorted ∧ i.isBool = false ∧ v.isBool = false

end

theorem SolverTerm.bvLength_of_isBool : ∀ {t : SolverTerm}, t.isBool = true → t.bvLength = 0
  | .bool _, _ | .not _, _ | .and _ _, _ | .or _ _, _ | .iff _ _, _ | .eq _ _, _ | .rel _ _ _, _ => rfl
  | .ite _ t _, h => SolverTerm.bvLength_of_isBool (t := t) h

structure SolverTerm.IsVector (t : SolverTerm) (w : Nat) : Prop where
  sorted : t.Sorted
  bvLength : t.bvLength = w
  pos : 0 < w

namespace SolverTerm.IsVector

variable {c t u : SolverTerm} {w v : Nat}

theorem isBool (h : t.IsVector w) : t.isBool = false := by
  have hpos : 0 < w := h.pos
  have hlength : t.bvLength = w := h.bvLength
  cases hb : t.isBool with
  | false => rfl
  | true =>
    rw [SolverTerm.bvLength_of_isBool hb] at hlength
    omega

theorem const (n : Nat) (hw : 0 < w) : (SolverTerm.const w n).IsVector w := ⟨trivial, rfl, hw⟩

theorem bvNot (h : t.IsVector w) : (SolverTerm.bvNot t).IsVector w := ⟨⟨h.sorted, h.isBool⟩, h.bvLength, h.pos⟩

theorem bvNeg (h : t.IsVector w) : (SolverTerm.bvNeg t).IsVector w := ⟨⟨h.sorted, h.isBool⟩, h.bvLength, h.pos⟩

theorem op (o : BvOp) (h : t.IsVector w) (h' : u.IsVector v) : (SolverTerm.op o t u).IsVector w :=
  ⟨⟨h.sorted, h'.sorted, h.isBool, h'.isBool⟩, h.bvLength, h.pos⟩

theorem concat (h : t.IsVector w) (h' : u.IsVector v) : (SolverTerm.concat t u).IsVector (w + v) :=
  ⟨⟨h.sorted, h'.sorted, h.isBool, h'.isBool⟩, congrArg₂ (· + ·) h.bvLength h'.bvLength, Nat.add_pos_left h.pos v⟩

theorem extract (top bottom : Nat) (h : t.IsVector w) :
    (SolverTerm.extract t top bottom).IsVector (top - bottom + 1) :=
  ⟨⟨h.sorted, h.isBool⟩, rfl, Nat.succ_pos _⟩

theorem signExtend (hv : 0 < v) (h : t.IsVector w) : (SolverTerm.signExtend t v).IsVector v :=
  ⟨⟨h.sorted, h.isBool⟩, rfl, hv⟩

theorem ite (hc : c.Sorted) (hb : c.isBool = true) (h : t.IsVector w) (h' : u.IsVector v) :
    (SolverTerm.ite c t u).IsVector w :=
  ⟨⟨hc, h.sorted, h'.sorted, hb, h.isBool.trans h'.isBool.symm⟩, h.bvLength, h.pos⟩

theorem read {a : ArrayTerm} (ha : a.Sorted) (hrange : a.range = v) (hv : 0 < v) (h : t.IsVector w) :
    (SolverTerm.read a t).IsVector v := ⟨⟨ha, h.sorted, h.isBool⟩, hrange, hv⟩

end SolverTerm.IsVector

section Sorted

variable {t u : SolverTerm} {w v : Nat}

theorem SolverTerm.Sorted.eq (h : t.IsVector w) (h' : u.IsVector v) : (SolverTerm.eq t u).Sorted :=
  ⟨h.sorted, h'.sorted, h.isBool, h'.isBool⟩

theorem SolverTerm.Sorted.rel (r : BvRel) (h : t.IsVector w) (h' : u.IsVector v) : (SolverTerm.rel r t u).Sorted :=
  ⟨h.sorted, h'.sorted, h.isBool, h'.isBool⟩

theorem ArrayTerm.Sorted.write {a : ArrayTerm} (ha : a.Sorted) (h : t.IsVector w) (h' : u.IsVector v) :
    (ArrayTerm.write a t u).Sorted := ⟨ha, h.sorted, h'.sorted, h.isBool, h'.isBool⟩

end Sorted

end Smt
