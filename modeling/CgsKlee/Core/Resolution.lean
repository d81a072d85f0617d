import CgsKlee.Core.AddressSpace
import Mathlib.Data.List.Nodup

/-!
# Pointer resolution is exact

For objects that do not overlap, `resolve` finds each object that the pointer may point into, once, and no other; the
searches may stop early because the objects are ordered.  An empty object counts as one byte.
-/

namespace CgsKlee

open Symbolic

variable {T : ExprTheory} {ω : Type} {ctx : Context}

namespace MemoryObject

/-- The object lies in the address space of the target, and its size is an `unsigned`. -/
structure Fits (ctx : Context) (mo : MemoryObject) : Prop where
  size_lt : mo.size < 2 ^ 32
  end_le : mo.address + max mo.size 1 ≤ 2 ^ ctx.pointerWidth

/-- The address is that of a byte of the object, or that of the empty object. -/
def PointsInto (mo : MemoryObject) (address : Nat) : Prop :=
  mo.address ≤ address ∧ address < mo.address + max mo.size 1

private theorem offset_lt_iff {P a x n : Nat} (ha : a + n ≤ P) (hx : x < P) :
    (P - a + x) % P < n ↔ a ≤ x ∧ x < a + n := by
  by_cases hax : a ≤ x
  · have heq : P - a + x = x - a + P := by omega
    rw [heq, Nat.add_mod_right, Nat.mod_eq_of_lt (by omega)]
    omega
  · rw [Nat.mod_eq_of_lt (by omega)]
    omega

variable {mo : MemoryObject} {p : T.Expr}

theorem eval_getOffsetExpr (h : mo.Fits ctx) (hp : T.width p = ctx.pointerWidth) (m : T.Model) :
    T.eval m (mo.getOffsetExpr ctx p) = (2 ^ ctx.pointerWidth - mo.address + T.eval m p) % 2 ^ ctx.pointerWidth := by
  have hend := h.end_le
  have haddr : mo.address < 2 ^ ctx.pointerWidth := by omega
  rw [getOffsetExpr, getBaseExpr, T.eval_sub m (by simp [hp]), ExprTheory.eval_const, hp, Nat.mod_eq_of_lt haddr]

theorem eval_getOffsetExpr_of_le (h : mo.Fits ctx) (hp : T.width p = ctx.pointerWidth) {m : T.Model}
    (hle : mo.address ≤ T.eval m p) : T.eval m (mo.getOffsetExpr ctx p) = T.eval m p - mo.address := by
  have hend := h.end_le
  have hlt := T.eval_lt m p
  rw [hp] at hlt
  rw [eval_getOffsetExpr h hp]
  have heq : 2 ^ ctx.pointerWidth - mo.address + T.eval m p = T.eval m p - mo.address + 2 ^ ctx.pointerWidth := by omega
  rw [heq, Nat.add_mod_right, Nat.mod_eq_of_lt (by omega)]

private theorem two_pow_le (ctx : Context) : 2 ^ 32 ≤ 2 ^ ctx.pointerWidth :=
  Nat.pow_le_pow_right (by decide) ctx.pointerWidth_ge

@[simp] theorem width_getOffsetExpr : T.width (mo.getOffsetExpr ctx p) = T.width p := T.width_sub _ _

@[simp] theorem width_getBoundsCheckPointer : T.width (mo.getBoundsCheckPointer ctx p) = 1 := by
  unfold getBoundsCheckPointer getBoundsCheckOffset
  split <;> simp

@[simp] theorem width_getBoundsCheckPointerBytes (n : Nat) : T.width (mo.getBoundsCheckPointerBytes ctx p n) = 1 := by
  unfold getBoundsCheckPointerBytes getBoundsCheckOffsetBytes
  split <;> simp

theorem holds_getBoundsCheckPointer (h : mo.Fits ctx) (hp : T.width p = ctx.pointerWidth) (m : T.Model) :
    T.Holds m (mo.getBoundsCheckPointer ctx p) ↔ mo.PointsInto (T.eval m p) := by
  have hend := h.end_le
  have hsize := h.size_lt
  have hpow := two_pow_le ctx
  have hlt := T.eval_lt m p
  rw [hp] at hlt
  unfold getBoundsCheckPointer getBoundsCheckOffset PointsInto
  split
  · rename_i hz
    rw [hz] at hend ⊢
    rw [ExprTheory.holds_eq (by simp [hp]), eval_getOffsetExpr h hp, ExprTheory.eval_const, Nat.zero_mod,
      ← offset_lt_iff hend hlt]
    omega
  · rename_i hz
    have hmax : max mo.size 1 = mo.size := by omega
    rw [hmax] at hend ⊢
    rw [ExprTheory.holds_ult (by simp [hp, getSizeExpr]), eval_getOffsetExpr h hp, getSizeExpr, ExprTheory.eval_const,
      Nat.mod_eq_of_lt (hsize.trans_le hpow), offset_lt_iff hend hlt]

theorem holds_getBoundsCheckPointerBytes (h : mo.Fits ctx) (hp : T.width p = ctx.pointerWidth) {n : Nat} (hn : 0 < n)
    (m : T.Model) : T.Holds m (mo.getBoundsCheckPointerBytes ctx p n) ↔
      mo.address ≤ T.eval m p ∧ T.eval m p + n ≤ mo.address + mo.size := by
  have hend := h.end_le
  have hsize := h.size_lt
  have hpow := two_pow_le ctx
  have hlt := T.eval_lt m p
  rw [hp] at hlt
  unfold getBoundsCheckPointerBytes getBoundsCheckOffsetBytes
  split
  · rename_i hle
    have hlast : mo.size - n + 1 < 2 ^ ctx.pointerWidth := by omega
    rw [ExprTheory.holds_ult (by simp [hp]), eval_getOffsetExpr h hp, ExprTheory.eval_const, Nat.mod_eq_of_lt hlast,
      offset_lt_iff (by omega) hlt]
    omega
  · refine ⟨fun hf => (ExprTheory.not_holds_false hf).elim, fun hin => ?_⟩
    omega

end MemoryObject

open MemoryObject

/-- The objects fit into the address space and do not overlap. -/
structure AddressSpace.Disjoint (ctx : Context) (as : AddressSpace ω) : Prop where
  fits : ∀ op ∈ as.objects, op.1.Fits ctx
  apart : as.objects.Pairwise fun a b => a.1.address + max a.1.size 1 ≤ b.1.address

def MayPointInto (constraints : List T.Expr) (p : T.Expr) (op : MemoryObject × ω) : Prop :=
  ∃ m ∈ T.models constraints, op.1.PointsInto (T.eval m p)

namespace AddressSpace

variable {as : AddressSpace ω}

theorem nodup_objects (as : AddressSpace ω) : as.objects.Nodup :=
  as.sorted.imp fun {a b} h hab => by
    rw [hab] at h
    omega

theorem Disjoint.eq_of_pointsInto (h : as.Disjoint ctx) {a b : MemoryObject × ω} (ha : a ∈ as.objects)
    (hb : b ∈ as.objects) {x : Nat} (hxa : a.1.PointsInto x) (hxb : b.1.PointsInto x) : a = b := by
  by_contra hne
  have hsym : Std.Symm fun a b : MemoryObject × ω => a.1.address + max a.1.size 1 ≤ b.1.address ∨
      b.1.address + max b.1.size 1 ≤ a.1.address := ⟨fun _ _ h => h.symm⟩
  have hap : as.objects.Pairwise fun a b => a.1.address + max a.1.size 1 ≤ b.1.address ∨
      b.1.address + max b.1.size 1 ≤ a.1.address := h.apart.imp fun hab => .inl hab
  have hdisj := hap.forall ha hb hne
  unfold PointsInto at hxa hxb
  omega

theorem resolveOneConstant_iff (h : as.Disjoint ctx) {v : Nat} {op : MemoryObject × ω} :
    as.resolveOneConstant v = some op ↔ op ∈ as.objects ∧ op.1.PointsInto v := by
  unfold resolveOneConstant lookupPrevious
  have hlast : ∀ {x}, (as.upTo v).getLast? = some x → x ∈ as.objects ∧ x.1.address ≤ v := fun {x} hx => by
    have hmem := List.mem_of_getLast? hx
    unfold upTo at hmem
    simpa using hmem
  constructor
  · intro hres
    obtain ⟨hx, hin⟩ := Option.filter_eq_some_iff.1 hres
    obtain ⟨hmem, hle⟩ := hlast hx
    refine ⟨hmem, hle, ?_⟩
    simp only [decide_eq_true_eq] at hin
    omega
  · rintro ⟨hmem, hin⟩
    have hup : op ∈ as.upTo v := by
      unfold upTo
      simpa using ⟨hmem, hin.1⟩
    cases hl : (as.upTo v).getLast? with
    | none =>
      rw [List.getLast?_eq_none_iff.1 hl] at hup
      cases hup
    | some x =>
      obtain ⟨ys, hys⟩ := List.getLast?_eq_some_iff.1 hl
      have hap : (as.upTo v).Pairwise fun a b => a.1.address + max a.1.size 1 ≤ b.1.address := h.apart.filter _
      rw [hys] at hap hup
      -- an object before the last one ends below it
      have hx : op = x := by
        rcases List.mem_append.1 hup with hy | hy
        · have hlt := (List.pairwise_append.1 hap).2.2 op hy x (by simp)
          have hxv := (hlast hl).2
          have hop := hin.2
          omega
        · exact List.mem_singleton.1 hy
      subst hx
      refine Option.filter_eq_some_iff.2 ⟨rfl, ?_⟩
      unfold PointsInto at hin
      simp only [decide_eq_true_eq]
      omega

end AddressSpace

section Searches

variable {B : Backend T} {cs : List T.Expr} {p : T.Expr}

variable {op x : MemoryObject × ω} {mo : MemoryObject} {ops rl : List (MemoryObject × ω)} {as : AddressSpace ω}
    {maxResolutions : Nat}

private theorem mayBeTrue_iff (hB : B.Exact) (hs : (T.models cs).Nonempty) (hp : T.width p = ctx.pointerWidth) (hf : op.1.Fits ctx) :
    B.mayBeTrue cs (op.1.getBoundsCheckPointer ctx p) = true ↔ MayPointInto cs p op := by
  rw [hB.mayBeTrue hs (by simp)]
  simp only [holds_getBoundsCheckPointer hf hp, MayPointInto]

private theorem mustBeTrue_iff (hB : B.Exact) (hs : (T.models cs).Nonempty) (hp : T.width p = ctx.pointerWidth) (hf : op.1.Fits ctx) :
    B.mustBeTrue cs (op.1.getBoundsCheckPointer ctx p) = true ↔ ∀ m ∈ T.models cs, op.1.PointsInto (T.eval m p) := by
  rw [hB.mustBeTrue hs (by simp)]
  simp only [holds_getBoundsCheckPointer hf hp]

private theorem eval_base (hf : mo.Fits ctx) (m : T.Model) :
    T.eval m (mo.getBaseExpr ctx T) = mo.address := by
  have hend := hf.end_le
  have haddr : mo.address < 2 ^ ctx.pointerWidth := by omega
  rw [getBaseExpr, ExprTheory.eval_const, Nat.mod_eq_of_lt haddr]

private theorem mustBeAbove_iff (hB : B.Exact) (hs : (T.models cs).Nonempty) (hp : T.width p = ctx.pointerWidth) (hf : mo.Fits ctx) :
    B.mustBeTrue cs (T.ule (mo.getBaseExpr ctx T) p) = true ↔ ∀ m ∈ T.models cs, mo.address ≤ T.eval m p := by
  rw [hB.mustBeTrue hs (by simp)]
  simp only [ExprTheory.holds_ule (show T.width (mo.getBaseExpr ctx T) = T.width p by simp [getBaseExpr, hp]),
    eval_base hf]

private theorem mustBeBelow_iff (hB : B.Exact) (hs : (T.models cs).Nonempty) (hp : T.width p = ctx.pointerWidth) (hf : mo.Fits ctx) :
    B.mustBeTrue cs (T.ult p (mo.getBaseExpr ctx T)) = true ↔ ∀ m ∈ T.models cs, T.eval m p < mo.address := by
  rw [hB.mustBeTrue hs (by simp)]
  simp only [ExprTheory.holds_ult (show T.width p = T.width (mo.getBaseExpr ctx T) by simp [getBaseExpr, hp]),
    eval_base hf]

private theorem checkPointerInObject_cases (hB : B.Exact) (hs : (T.models cs).Nonempty)
    (hp : T.width p = ctx.pointerWidth) (hf : op.1.Fits ctx) (rl : List (MemoryObject × ω)) :
    (¬MayPointInto cs p op ∧ checkPointerInObject ctx B cs p 0 op rl = (.unknown, rl)) ∨
    (MayPointInto cs p op ∧ checkPointerInObject ctx B cs p 0 op rl = (.unknown, rl ++ [op])) ∨
    (rl = [] ∧ checkPointerInObject ctx B cs p 0 op rl = (.complete, [op]) ∧
      ∀ m ∈ T.models cs, op.1.PointsInto (T.eval m p)) := by
  have hmay := mayBeTrue_iff hB hs hp hf
  unfold checkPointerInObject
  by_cases h : MayPointInto cs p op
  · rw [if_pos (hmay.2 h)]
    cases rl with
    | nil =>
      by_cases hm : B.mustBeTrue cs (op.1.getBoundsCheckPointer ctx p) = true
      · exact .inr (.inr ⟨rfl, by simp [hm], (mustBeTrue_iff hB hs hp hf).1 hm⟩)
      · exact .inr (.inl ⟨h, by simp [hm]⟩)
    | cons x rl => exact .inr (.inl ⟨h, by simp⟩)
  · rw [if_neg fun hf => h (hmay.1 hf)]
    exact .inl ⟨h, rfl⟩

/-- A search of `ops` lists exactly the objects that the pointer may point into, or has found the only one. -/
private def Searched (cs : List T.Expr) (p : T.Expr) (ops rl : List (MemoryObject × ω)) {α : Type} (more done : α)
    (result : α × List (MemoryObject × ω)) : Prop :=
  (∃ found, result = (more, rl ++ found) ∧ found.Sublist ops ∧ ∀ op ∈ ops, op ∈ found ↔ MayPointInto cs p op) ∨
  (rl = [] ∧ ∃ op ∈ ops, result = (done, [op]) ∧ ∀ m ∈ T.models cs, op.1.PointsInto (T.eval m p))

private theorem Searched.skip {α : Type} {more done : α}
    {result : α × List (MemoryObject × ω)} (h : Searched cs p ops rl more done result) (hop : op ∉ ops)
    (hno : ¬MayPointInto cs p op) : Searched cs p (op :: ops) rl more done result := by
  rcases h with ⟨found, hr, hsub, hiff⟩ | ⟨hrl, x, hx, hr, hall⟩
  · refine .inl ⟨found, hr, hsub.cons op, fun x hx => ?_⟩
    rcases List.mem_cons.1 hx with rfl | hx
    · exact ⟨fun hf => (hop (hsub.subset hf)).elim, fun hm => (hno hm).elim⟩
    · exact hiff x hx
  · exact .inr ⟨hrl, x, by simp [hx], hr, hall⟩

private theorem Searched.take {α : Type} {more done : α}
    {result : α × List (MemoryObject × ω)} (h : Searched cs p ops (rl ++ [op]) more done result)
    (hmay : MayPointInto cs p op) : Searched cs p (op :: ops) rl more done result := by
  rcases h with ⟨found, hr, hsub, hiff⟩ | ⟨hrl, -⟩
  · refine .inl ⟨op :: found, by simpa using hr, hsub.cons_cons op, fun x hx => ?_⟩
    rcases List.mem_cons.1 hx with rfl | hx
    · simp [hmay]
    · by_cases hxo : x = op
      · simp [hxo, hmay]
      · simp [hxo, hiff x hx]
  · simp at hrl

private theorem searched_none {α : Type} {more done : α}
    (h : ∀ op ∈ ops, ¬MayPointInto cs p op) : Searched cs p ops rl more done (more, rl) :=
  .inl ⟨[], by simp, List.nil_sublist ops, fun op hop => ⟨fun hf => (by cases hf), fun hm => (h op hop hm).elim⟩⟩

private theorem resolveBackwards_searched (hB : B.Exact) (hs : (T.models cs).Nonempty)
    (hp : T.width p = ctx.pointerWidth) (ops rl : List (MemoryObject × ω)) (hf : ∀ op ∈ ops, op.1.Fits ctx)
    (hap : ops.Pairwise fun a b => b.1.address + max b.1.size 1 ≤ a.1.address) :
    Searched cs p ops rl none (some false) (resolveBackwards ctx B cs p 0 ops rl) := by
  induction ops generalizing rl with
  | nil => exact searched_none (by simp)
  | cons op ops ih =>
    obtain ⟨hop, hops⟩ := List.pairwise_cons.1 hap
    have hfop := hf op (by simp)
    have hrec : ∀ rl, Searched cs p ops rl none (some false)
        (if B.mustBeTrue cs (T.ule (op.1.getBaseExpr ctx T) p) then (none, rl)
          else resolveBackwards ctx B cs p 0 ops rl) := by
      intro rl
      split
      · -- all remaining objects end below the pointer
        rename_i hm
        have habove := (mustBeAbove_iff hB hs hp hfop).1 hm
        refine searched_none fun x hx ⟨m, hmm, hin⟩ => ?_
        have h₁ := habove m hmm
        have h₂ := hop x hx
        have h₃ := hin.2
        omega
      · exact ih rl (fun x hx => hf x (by simp [hx])) hops
    have hnotin : op ∉ ops := fun hin => by
      have := hop op hin
      omega
    unfold resolveBackwards
    rcases checkPointerInObject_cases hB hs hp hfop rl with ⟨hno, hc⟩ | ⟨hmay, hc⟩ | ⟨hrl, hc, hall⟩
    · simp only [hc]
      exact (hrec rl).skip hnotin hno
    · simp only [hc]
      exact (hrec (rl ++ [op])).take hmay
    · simp only [hc]
      exact .inr ⟨hrl, op, by simp, rfl, hall⟩

private theorem resolveForwards_searched (hB : B.Exact) (hs : (T.models cs).Nonempty)
    (hp : T.width p = ctx.pointerWidth) (ops rl : List (MemoryObject × ω)) (hf : ∀ op ∈ ops, op.1.Fits ctx)
    (hap : ops.Pairwise fun a b => a.1.address + max a.1.size 1 ≤ b.1.address) :
    Searched cs p ops rl false false (resolveForwards ctx B cs p 0 ops rl) := by
  induction ops generalizing rl with
  | nil => exact searched_none (by simp)
  | cons op ops ih =>
    obtain ⟨hop, hops⟩ := List.pairwise_cons.1 hap
    have hfop := hf op (by simp)
    have hrec := fun rl => ih rl (fun x hx => hf x (by simp [hx])) hops
    have hnotin : op ∉ ops := fun hin => by
      have := hop op hin
      omega
    unfold resolveForwards
    split
    · -- all remaining objects start above the pointer
      rename_i hm
      have hbelow := (mustBeBelow_iff hB hs hp hfop).1 hm
      refine searched_none fun x hx ⟨m, hmm, hin⟩ => ?_
      have h₁ := hbelow m hmm
      have h₂ := hin.1
      rcases List.mem_cons.1 hx with rfl | hx
      · omega
      · have h₃ := hop x hx
        omega
    · rcases checkPointerInObject_cases hB hs hp hfop rl with ⟨hno, hc⟩ | ⟨hmay, hc⟩ | ⟨hrl, hc, hall⟩
      · simp only [hc]
        exact (hrec rl).skip hnotin hno
      · simp only [hc]
        exact (hrec (rl ++ [op])).take hmay
      · simp only [hc]
        exact .inr ⟨hrl, op, by simp, rfl, hall⟩

private theorem mem_singleton_iff (hd : as.Disjoint ctx) (hs : (T.models cs).Nonempty) (hop : op ∈ as.objects) (hall : ∀ m ∈ T.models cs, op.1.PointsInto (T.eval m p))
    (x : MemoryObject × ω) : x ∈ [op] ↔ x ∈ as.objects ∧ MayPointInto cs p x := by
  constructor
  · intro hx
    rw [List.mem_singleton.1 hx]
    obtain ⟨m, hm⟩ := hs
    exact ⟨hop, m, hm, hall m hm⟩
  · rintro ⟨hx, m, hm, hin⟩
    exact List.mem_singleton.2 (hd.eq_of_pointsInto hx hop hin (hall m hm))

private theorem mem_found_iff {v : Nat} {found found' : List (MemoryObject × ω)}
    (hsub : found.Sublist (as.upTo v).reverse)
    (hiff : ∀ op ∈ (as.upTo v).reverse, op ∈ found ↔ MayPointInto cs p op) (hsub' : found'.Sublist (as.above v))
    (hiff' : ∀ op ∈ as.above v, op ∈ found' ↔ MayPointInto cs p op) :
    (found ++ found').Nodup ∧ ∀ op, op ∈ found ++ found' ↔ op ∈ as.objects ∧ MayPointInto cs p op := by
  have hlow : ∀ op, op ∈ (as.upTo v).reverse ↔ op ∈ as.objects ∧ op.1.address ≤ v := by
    simp [AddressSpace.upTo]
  have hhigh : ∀ op, op ∈ as.above v ↔ op ∈ as.objects ∧ v < op.1.address := by
    simp [AddressSpace.above]
  constructor
  · refine List.nodup_append.2 ⟨hsub.nodup (List.nodup_reverse.2 (as.nodup_objects.filter _)),
      hsub'.nodup (as.nodup_objects.filter _), ?_⟩
    intro x hx y hy hxy
    have hle := ((hlow x).1 (hsub.subset hx)).2
    have hlt := ((hhigh y).1 (hsub'.subset hy)).2
    rw [hxy] at hle
    omega
  · intro op
    rw [List.mem_append]
    constructor
    · rintro (hop | hop)
      · exact ⟨((hlow op).1 (hsub.subset hop)).1, (hiff op (hsub.subset hop)).1 hop⟩
      · exact ⟨((hhigh op).1 (hsub'.subset hop)).1, (hiff' op (hsub'.subset hop)).1 hop⟩
    · rintro ⟨hop, hm⟩
      by_cases hle : op.1.address ≤ v
      · exact .inl ((hiff op ((hlow op).2 ⟨hop, hle⟩)).2 hm)
      · exact .inr ((hiff' op ((hhigh op).2 ⟨hop, by omega⟩)).2 hm)

theorem AddressSpace.resolve_spec (hB : B.Exact) (hs : (T.models cs).Nonempty)
    (hd : as.Disjoint ctx) (hp : T.width p = ctx.pointerWidth) :
    ∃ rl, as.resolve ctx B cs p 0 = (false, rl) ∧ rl.Nodup ∧
      ∀ op, op ∈ rl ↔ op ∈ as.objects ∧ MayPointInto cs p op := by
  unfold resolve
  cases hc : T.constant? p with
  | some v =>
    have hv : ∀ op : MemoryObject × ω, MayPointInto cs p op ↔ op.1.PointsInto v := by
      intro op
      unfold MayPointInto
      simp only [T.eval_of_constant? hc]
      obtain ⟨m, hm⟩ := hs
      exact ⟨fun ⟨_, _, h⟩ => h, fun h => ⟨m, hm, h⟩⟩
    refine ⟨_, rfl, ?_, ?_⟩
    · cases as.resolveOneConstant v <;> simp
    · intro op
      rw [Option.mem_toList, resolveOneConstant_iff hd, hv]
  | none =>
    generalize B.getValue cs p = v
    have hup : ∀ op, op ∈ (as.upTo v).reverse → op ∈ as.objects := fun op hop =>
      (List.mem_filter.1 (List.mem_reverse.1 hop)).1
    have habove : ∀ op, op ∈ as.above v → op ∈ as.objects := fun op hop => (List.mem_filter.1 hop).1
    have hback := resolveBackwards_searched hB hs hp (as.upTo v).reverse [] (fun op hop => hd.fits op (hup op hop))
      (List.pairwise_reverse.2 (hd.apart.filter _))
    rcases hback with ⟨found, hr, hsub, hiff⟩ | ⟨-, op, hop, hr, hall⟩
    · simp only [hr, List.nil_append]
      have hforw := resolveForwards_searched hB hs hp (as.above v) found (fun op hop => hd.fits op (habove op hop))
        (hd.apart.filter _)
      rcases hforw with ⟨found', hr', hsub', hiff'⟩ | ⟨hnil, op, hop, hr', hall⟩
      · exact ⟨_, hr', mem_found_iff hsub hiff hsub' hiff'⟩
      · exact ⟨[op], hr', by simp, mem_singleton_iff hd hs (habove op hop) hall⟩
    · simp only [hr]
      exact ⟨[op], rfl, by simp, mem_singleton_iff hd hs (hup op hop) hall⟩

def AddressSpace.Apart (as : AddressSpace ω) : Prop :=
  ∀ a ∈ as.objects, ∀ b ∈ as.objects, a ≠ b → ∀ x, ¬(a.1.PointsInto x ∧ b.1.PointsInto x)

theorem AddressSpace.Apart.disjoint (h : as.Apart) (hf : ∀ op ∈ as.objects, op.1.Fits ctx) :
    as.Disjoint ctx where
  fits := hf
  apart := by
    refine as.sorted.imp_of_mem fun {a b} ha hb hlt => ?_
    by_contra hle
    have hne : a ≠ b := by
      rintro rfl
      omega
    -- the first byte of the second object would belong to both
    refine h a ha b hb hne b.1.address ⟨⟨?_, ?_⟩, ?_, ?_⟩ <;> omega

/-- For disjoint objects, empty ones included, and an exact solver, the search without a bound is complete and lists
exactly the objects for which the bounds check is satisfiable, each once; a constant address is resolved to the object
that contains it. -/
theorem AddressSpace.resolution_exact (hB : B.Exact) (hs : (T.models cs).Nonempty) {as : AddressSpace ω}
    (hf : ∀ op ∈ as.objects, op.1.Fits ctx) (hd : as.Apart) (hp : T.width p = ctx.pointerWidth) :
    (∃ rl, as.resolve ctx B cs p 0 = (false, rl) ∧ rl.Nodup ∧ ∀ op, op ∈ rl ↔
      op ∈ as.objects ∧ ∃ m ∈ T.models cs, T.Holds m (op.1.getBoundsCheckPointer ctx p)) ∧
    ∀ address op, as.resolveOneConstant address = some op ↔ op ∈ as.objects ∧ op.1.PointsInto address := by
  have hdis := hd.disjoint hf
  refine ⟨?_, fun address op => resolveOneConstant_iff hdis⟩
  obtain ⟨rl, hr, hnodup, hmem⟩ := resolve_spec hB hs hdis hp
  refine ⟨rl, hr, hnodup, fun op => ?_⟩
  rw [hmem op]
  refine and_congr_right fun hop => ?_
  simp only [MayPointInto, holds_getBoundsCheckPointer (hf op hop) hp]

def target64 : Context := ⟨64, true, by decide⟩

/-- An object of four bytes, and an empty one behind it. -/
def fourAndEmpty : AddressSpace Unit := ⟨[(⟨16, 4⟩, ()), (⟨20, 0⟩, ())], by simp⟩

/-- The last byte of the first object in one model, and the empty object in the other. -/
def lastOrEmpty : (shallow 1).Expr := ⟨64, fun (m : Fin 2) => if m.val = 0 then 19 else 20⟩

theorem AddressSpace.resolution_exact_fourAndEmpty :
    (∃ rl, fourAndEmpty.resolve target64 (shallowBackend 1) [] lastOrEmpty 0 = (false, rl) ∧ rl.Nodup ∧
      ∀ op, op ∈ rl ↔ op ∈ fourAndEmpty.objects ∧
        ∃ m ∈ (shallow 1).models [], (shallow 1).Holds m (op.1.getBoundsCheckPointer target64 lastOrEmpty)) ∧
    ∀ address op, fourAndEmpty.resolveOneConstant address = some op ↔
      op ∈ fourAndEmpty.objects ∧ op.1.PointsInto address := by
  refine resolution_exact (shallowBackend_exact 1) ⟨(0 : Fin 2), fun _ he => absurd he List.not_mem_nil⟩ ?_ ?_ rfl
  · intro op hop
    simp only [fourAndEmpty, List.mem_cons, List.not_mem_nil, or_false] at hop
    rcases hop with rfl | rfl <;> exact ⟨by decide, by decide⟩
  · intro a ha b hb hne x hx
    simp only [fourAndEmpty, List.mem_cons, List.not_mem_nil, or_false] at ha hb
    rcases ha with rfl | rfl <;> rcases hb with rfl | rfl <;> simp [PointsInto] at hne hx <;> omega

private theorem mem_of_resolveOneBackwards
    (h : resolveOneBackwards ctx B cs p ops = some op) : op ∈ ops := by
  induction ops with
  | nil => cases h
  | cons x ops ih =>
    unfold resolveOneBackwards at h
    split at h
    · simp [Option.some.inj h]
    · split at h
      · cases h
      · simp [ih h]

private theorem mem_of_resolveOneForwards
    (h : resolveOneForwards ctx B cs p ops = some op) : op ∈ ops := by
  induction ops with
  | nil => cases h
  | cons x ops ih =>
    unfold resolveOneForwards at h
    split at h
    · cases h
    · split at h
      · simp [Option.some.inj h]
      · simp [ih h]

theorem AddressSpace.mem_of_resolveOne
    (h : as.resolveOne ctx B cs p = some op) : op ∈ as.objects := by
  have hprev : ∀ {v} {f : MemoryObject × ω → Bool} {x}, (as.lookupPrevious v).filter f = some x → x ∈ as.objects := by
    intro v f x hx
    have hl := (Option.filter_eq_some_iff.1 hx).1
    exact (List.mem_filter.1 (List.mem_of_getLast? hl)).1
  unfold resolveOne at h
  split at h
  · exact hprev h
  · dsimp only at h
    split at h
    · rename_i x hx
      exact Option.some.inj h ▸ hprev hx
    · split at h
      · rename_i x hx
        have hmem := List.mem_reverse.1 (mem_of_resolveOneBackwards hx)
        exact Option.some.inj h ▸ (List.mem_filter.1 hmem).1
      · exact (List.mem_filter.1 (mem_of_resolveOneForwards h)).1

end Searches

end CgsKlee
