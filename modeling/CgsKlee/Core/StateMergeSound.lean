import CgsKlee.Core.StateMerge

/-!
# Merged states keep both behaviours

Under an assignment that satisfies the constraints of one of the two states, the merged state has the registers and the
bytes of that state: `inA` is true under the assignments of the first state and, if no assignment satisfies the
constraints of both, false under those of the second.
-/

namespace CgsKlee

namespace ExecutionState

open ConstraintManager ConstraintSet

variable {m : Valuation}

variable {C A B : ConstraintSet} {e : Expr} {le : Expr → Expr → Bool} {mo : MemoryObject}

theorem mem_constraintSet :
    e ∈ constraintSet le C ↔ e ∈ C := by
  rw [constraintSet, List.mem_mergeSort, List.mem_dedup]

theorem mem_commonConstraints :
    e ∈ commonConstraints le A B ↔ e ∈ A ∧ e ∈ B := by
  simp [commonConstraints, mem_constraintSet]

theorem mem_suffix :
    e ∈ suffix le A B ↔ e ∈ A ∧ e ∉ B := by
  simp only [suffix, List.mem_filter, mem_constraintSet, mem_commonConstraints, decide_eq_true_eq]
  exact and_congr_right fun h => by simp [h]

theorem trueAt_iff (le : Expr → Expr → Bool) (B : ConstraintSet) :
    A.TrueAt m ↔ TrueAt m (commonConstraints le A B) ∧ TrueAt m (suffix le A B) := by
  constructor
  · intro h
    exact ⟨fun e he => h e (mem_commonConstraints.mp he).1, fun e he => h e (mem_suffix.mp he).1⟩
  · rintro ⟨hc, hs⟩ e he
    by_cases hb : e ∈ B
    · exact hc e (mem_commonConstraints.mpr ⟨he, hb⟩)
    · exact hs e (mem_suffix.mpr ⟨he, hb⟩)

theorem trueAt_commonConstraints_comm :
    TrueAt m (commonConstraints le B A) ↔ TrueAt m (commonConstraints le A B) := by
  simp only [TrueAt, mem_commonConstraints, and_comm]

structure Joins (C : ConstraintSet) (e : Expr) : Prop where
  wellTyped : e.WellTyped
  width : e.width = 1
  eval : ∀ m, e.eval m = .ofBool true ↔ C.TrueAt m

theorem Joins.and {c e' : Expr} (h : Joins C e) (hc : Typed [c])
    (he' : AndExpr.create e c = some e') : Joins (C ++ [c]) e' := by
  obtain ⟨hct, hcw⟩ := typed_singleton.mp hc
  have htyped : (Expr.binary .and e c).WellTyped := ⟨h.wellTyped, hct, h.width.trans hcw.symm⟩
  have href : (Expr.binary .and e c).Refines false e' := Expr.recreate_refines htyped.operandsTyped he'
  refine ⟨href.wellTyped, href.width.trans h.width, fun m => ?_⟩
  rw [href.eval m (fun ho => by cases ho), eval_and_eq_true h.wellTyped hct h.width hcw, h.eval m, trueAt_append,
    trueAt_singleton]

theorem conjunction_joins (hC : C.Typed) (h : conjunction C = some e) : Joins C e := by
  have hfold : ∀ (C D : ConstraintSet) (acc : Expr), C.Typed → Joins D acc →
      ∀ e, C.foldlM AndExpr.create acc = some e → Joins (D ++ C) e := by
    intro C
    induction C with
    | nil =>
      intro D acc _ hacc e he
      obtain rfl := Option.some.inj he
      rwa [List.append_nil]
    | cons c C ih =>
      intro D acc hC hacc e he
      rw [List.foldlM_cons] at he
      obtain ⟨acc', hacc', he⟩ := Option.bind_eq_some_iff.mp he
      have hc : Typed [c] := typed_singleton.mpr (hC c (.head _))
      have := ih (D ++ [c]) acc' (fun x hx => hC x (.tail _ hx)) (hacc.and hc hacc') e he
      rwa [List.append_assoc] at this
  have hnil : Joins [] (.ofBool true) := ⟨trivial, rfl, fun m => ⟨fun _ => nofun, fun _ => rfl⟩⟩
  exact hfold C [] _ hC hnil e h

theorem eval_or_eq_true {l r : Expr} (hl : l.WellTyped) (hr : r.WellTyped) (hwl : l.width = 1) (hwr : r.width = 1) :
    (Expr.binary .or l r).eval m = .ofBool true ↔ l.eval m = .ofBool true ∨ r.eval m = .ofBool true := by
  obtain ⟨x, y, hx, hy⟩ := Expr.exists_bits hl hr hwl hwr m
  simp only [Expr.eval, hx, hy, APInt.map₂_mk, APInt.ofBool, APInt.mk.injEq, heq_eq_eq, true_and]
  clear hx hy
  revert x y
  decide

theorem addConstraints_agrees {useVisitorHash rewriteEqualities : Bool} {new : List Expr} (hnew : Typed new) :
    ∀ {C C' : ConstraintSet}, C.Typed →
      new.foldlM (addConstraint false useVisitorHash rewriteEqualities) C = some C' →
      AgreesOn (fun _ => True) (C ++ new) C' := by
  induction new with
  | nil =>
    intro C C' hC h
    obtain rfl := Option.some.inj h
    rw [List.append_nil]
    exact .refl hC
  | cons e new ih =>
    intro C C' hC h
    rw [List.foldlM_cons] at h
    obtain ⟨D, hD, h⟩ := Option.bind_eq_some_iff.mp h
    have hrest : Typed new := fun x hx => hnew x (.tail _ hx)
    have hstep := addConstraint_agrees (typed_append.mpr ⟨hC, typed_singleton.mpr (hnew e (.head _))⟩) hD
    have happend := hstep.append (AgreesOn.refl (H := fun _ => True) hrest)
    rw [List.append_assoc] at happend
    exact happend.trans (ih hrest hstep.typed h)

theorem mergeConstraints_spec {useVisitorHash rewriteEqualities : Bool} {common aSuffix bSuffix : ConstraintSet}
    (hcommon : common.Typed) {inA inB : Expr} (hA : Joins aSuffix inA) (hB : Joins bSuffix inB)
    (h : mergeConstraints useVisitorHash rewriteEqualities common inA inB = some C) :
    C.TrueAt m ↔ common.TrueAt m ∧ (aSuffix.TrueAt m ∨ bSuffix.TrueAt m) := by
  unfold mergeConstraints at h
  obtain ⟨D, hD, h⟩ := Option.bind_eq_some_iff.mp h
  obtain ⟨either, heither, h⟩ := Option.bind_eq_some_iff.mp h
  have hagree := addConstraints_agrees hcommon (nofun : Typed []) hD
  have htyped : (Expr.binary .or inA inB).WellTyped := ⟨hA.wellTyped, hB.wellTyped, hA.width.trans hB.width.symm⟩
  have href : (Expr.binary .or inA inB).Refines false either := Expr.recreate_refines htyped.operandsTyped heither
  have hall := addConstraint_agrees
    (typed_append.mpr ⟨hagree.typed, typed_singleton.mpr ⟨href.wellTyped, href.width.trans hA.width⟩⟩) h
  rw [hall.trueAt m trivial, trueAt_append, trueAt_singleton, hagree.trueAt m trivial, List.nil_append,
    href.eval m (fun ho => by cases ho), eval_or_eq_true hA.wellTyped hB.wellTyped hA.width hB.width, hA.eval m,
    hB.eval m]

theorem select_eval {inA av bv v : Expr} (hin : inA.WellTyped) (ha : av.WellTyped) (hb : bv.WellTyped)
    (h : SelectExpr.create false inA av bv = some v) :
    v.eval m = if inA.eval m = .ofBool true then av.eval m else bv.eval m := by
  have hw : inA.width = 1 ∧ av.width = bv.width := by
    by_contra hno
    unfold SelectExpr.create at h
    rw [if_neg hno] at h
    cases h
  have htyped : (Expr.select inA av bv).WellTyped := ⟨hin, ha, hb, hw.1, hw.2⟩
  have href : (Expr.select inA av bv).Refines false v := Expr.recreate_refines htyped.operandsTyped h
  rw [href.eval m (fun ho => by cases ho)]
  simp only [Expr.eval]
  have hbit : (inA.eval m).toNat = 1 ↔ inA.eval m = .ofBool true := by
    rw [show (1 : Nat) = (APInt.ofBool true).toNat from rfl]
    exact APInt.toNat_eq_iff ((inA.width_eval m hin).trans hw.1)
  simp only [hbit]

/-- The registers of a frame hold well-typed expressions. -/
def LocalsTyped (locals : List (Option Expr)) : Prop := ∀ e, some e ∈ locals → e.WellTyped

theorem mergeLocals_spec {inA : Expr} (hin : inA.WellTyped) {as bs vs : List (Option Expr)} (ha : LocalsTyped as)
    (hb : LocalsTyped bs) (h : mergeLocals inA as bs = some vs) {i : Nat} {av bv : Expr}
    (hav : as[i]? = some (some av)) (hbv : bs[i]? = some (some bv)) :
    ∃ v, vs[i]? = some (some v) ∧ ∀ m, v.eval m = if inA.eval m = .ofBool true then av.eval m else bv.eval m := by
  induction as, bs using mergeLocals.induct generalizing vs i with
  | case1 x as y bs ih =>
    unfold mergeLocals at h
    obtain ⟨v, hv, h⟩ := Option.bind_eq_some_iff.mp h
    obtain ⟨vs', hvs', h⟩ := Option.bind_eq_some_iff.mp h
    obtain rfl := Option.some.inj h
    cases i with
    | zero =>
      obtain rfl : x = av := by simpa using hav
      obtain rfl : y = bv := by simpa using hbv
      exact ⟨v, rfl, fun m => select_eval hin (ha x (.head _)) (hb y (.head _)) hv⟩
    | succ i =>
      exact ih (fun e he => ha e (.tail _ he)) (fun e he => hb e (.tail _ he)) hvs' hav hbv
  | case2 x as y bs hno ih =>
    rw [mergeLocals.eq_2 inA x as y bs hno] at h
    obtain ⟨vs', hvs', h⟩ := Option.bind_eq_some_iff.mp h
    obtain rfl := Option.some.inj h
    cases i with
    | zero =>
      obtain rfl : x = some av := by simpa using hav
      obtain rfl : y = some bv := by simpa using hbv
      exact (hno av bv rfl rfl).elim
    | succ i =>
      exact ih (fun e he => ha e (.tail _ he)) (fun e he => hb e (.tail _ he)) hvs' hav hbv
  | case3 as bs _ hno =>
    cases as with
    | nil => simp at hav
    | cons x as =>
      cases bs with
      | nil => simp at hbv
      | cons y bs => exact (hno _ _ _ _ rfl rfl).elim

/-- The register `i` of the frame `k`. -/
def local? (stack : List StackFrame) (k i : Nat) : Option Expr :=
  (stack[k]?).bind fun frame => (frame.locals[i]?).join

theorem local?_eq_some {stack : List StackFrame} {k i : Nat} :
    local? stack k i = some e ↔ ∃ frame, stack[k]? = some frame ∧ frame.locals[i]? = some (some e) := by
  unfold local?
  rw [Option.bind_eq_some_iff]
  simp only [Option.join_eq_some_iff]

def StackTyped (stack : List StackFrame) : Prop := ∀ frame ∈ stack, LocalsTyped frame.locals

theorem mergeStack_spec {inA : Expr} (hin : inA.WellTyped) {as bs stack : List StackFrame} (ha : StackTyped as)
    (hb : StackTyped bs) (h : mergeStack inA as bs = some stack) {k i : Nat} {av bv : Expr}
    (hav : local? as k i = some av) (hbv : local? bs k i = some bv) :
    ∃ v, local? stack k i = some v ∧ ∀ m, v.eval m = if inA.eval m = .ofBool true then av.eval m else bv.eval m := by
  induction as, bs using mergeStack.induct generalizing stack k with
  | case1 af as bf bs ih =>
    unfold mergeStack at h
    obtain ⟨locals, hlocals, h⟩ := Option.bind_eq_some_iff.mp h
    obtain ⟨frames, hframes, h⟩ := Option.bind_eq_some_iff.mp h
    obtain rfl := Option.some.inj h
    cases k with
    | zero =>
      obtain ⟨fa, hfa, hav⟩ := local?_eq_some.mp hav
      obtain ⟨fb, hfb, hbv⟩ := local?_eq_some.mp hbv
      obtain rfl : af = fa := by simpa using hfa
      obtain rfl : bf = fb := by simpa using hfb
      obtain ⟨v, hv, heval⟩ := mergeLocals_spec hin (ha af (.head _)) (hb bf (.head _)) hlocals hav hbv
      exact ⟨v, local?_eq_some.mpr ⟨_, rfl, hv⟩, heval⟩
    | succ k =>
      exact ih (fun f hf => ha f (.tail _ hf)) (fun f hf => hb f (.tail _ hf)) hframes hav hbv
  | case2 as bs hno =>
    cases as with
    | nil => simp [local?] at hav
    | cons af as =>
      cases bs with
      | nil => simp [local?] at hbv
      | cons bf bs => exact (hno _ _ _ _ rfl rfl).elim

theorem store_byte (littleEndian : Bool) (bytes : List Nat) (offset value : Nat) :
    FlatMemory.store littleEndian bytes offset 8 value = bytes.set offset (value % 256) := by
  cases littleEndian <;> simp [FlatMemory.store, FlatMemory.writeWord, FlatMemory.byteIndex, FlatMemory.byteOf]

/-- The byte that the condition says. -/
def pick (inA : Expr) (m : Valuation) (a b : Nat) : Nat := if inA.eval m = .ofBool true then a else b

variable {ctx : Context} {inA : Expr}

theorem mergeByte_spec (hin : inA.WellTyped) (hw : inA.width = 1) {wos other wos' other' : ObjectState exprArrays}
    (ha : wos.Coherent) (hb : other.Coherent) {i : Nat} (hia : i < wos.size) (hib : i < other.size)
    (h : mergeByte ctx inA (wos, other) i = some (wos', other')) :
    wos.Keeps wos' ∧ other.Reads other' ∧
      ∀ m, wos'.bytes m = (wos.bytes m).set i (pick inA m ((wos.bytes m).getD i 0) ((other.bytes m).getD i 0)) := by
  obtain ⟨av, wos₁, hav, hreads, hwa, heva⟩ := ObjectState.read8_spec ha hia
  obtain ⟨bv, other₁, hbv, hreadsb, hwb, hevb⟩ := ObjectState.read8_spec hb hib
  unfold mergeByte at h
  simp only [hav, hbv, Option.bind_eq_bind, Option.bind_some] at h
  obtain ⟨v, hv, h⟩ := Option.bind_eq_some_iff.mp h
  obtain ⟨hwv, hev⟩ := Term.select_spec hv
  have hwv : exprTheory.width v = 8 := hwv.trans hwa
  obtain ⟨wos₂, hwos₂, hkeeps, hbytes⟩ := ObjectState.writeAt_spec ctx hreads.coherent i
    (show FlatMemory.ByteSized (exprTheory.width v) from .inr ⟨1, by decide, hwv⟩)
  simp only [hwos₂, Option.bind_some, Option.some.injEq, Prod.mk.injEq] at h
  obtain ⟨rfl, rfl⟩ := h
  refine ⟨hreads.toKeeps.trans hkeeps, hreadsb, fun m => ?_⟩
  have hlt : exprTheory.eval m v < 2 ^ 8 := hwv ▸ exprTheory.eval_lt m v
  have hvalue : exprTheory.eval m v = pick inA m ((wos.bytes m).getD i 0) ((other.bytes m).getD i 0) := by
    have hcond : (Term.ofExpr inA).eval m = 1 ↔ inA.eval m = .ofBool true := by
      rw [Term.ofExpr_of_wellTyped hin]
      exact APInt.toNat_eq_iff (b := APInt.ofBool true) ((inA.width_eval m hin).trans hw)
    rw [← heva m, ← hevb m]
    refine (hev m).trans ?_
    simp only [hcond]
    rfl
  rw [hbytes m, hwv, store_byte, hreads.bytes m]
  exact congrArg _ ((Nat.mod_eq_of_lt hlt).trans hvalue)

def mergedBytes (inA : Expr) (m : Valuation) (n : Nat) (as bs : List Nat) : List Nat :=
  (List.range as.length).map fun i => if i < n then pick inA m (as.getD i 0) (bs.getD i 0) else as.getD i 0

theorem length_mergedBytes (n : Nat) (as bs : List Nat) : (mergedBytes inA m n as bs).length = as.length := by
  simp [mergedBytes]

theorem getD_mergedBytes {n : Nat} {as bs : List Nat} {i : Nat} (hi : i < as.length) :
    (mergedBytes inA m n as bs).getD i 0 = if i < n then pick inA m (as.getD i 0) (bs.getD i 0) else as.getD i 0 := by
  simp [mergedBytes, List.getD_eq_getElem?_getD, hi]

theorem mergedBytes_zero (as bs : List Nat) : mergedBytes inA m 0 as bs = as := by
  apply List.ext_getElem
  · exact length_mergedBytes 0 as bs
  · intro i hi hi'
    simp [mergedBytes, hi']

theorem mergedBytes_succ {n : Nat} {as bs : List Nat} :
    (mergedBytes inA m n as bs).set n (pick inA m (as.getD n 0) (bs.getD n 0)) = mergedBytes inA m (n + 1) as bs := by
  apply List.ext_getElem
  · simp [mergedBytes]
  · intro i hi hi'
    rw [List.getElem_set]
    by_cases hin : n = i
    · subst hin
      simp [mergedBytes]
    · have hlt : (i < n + 1) = (i < n) := by
        apply propext
        omega
      simp only [mergedBytes, List.getElem_map, List.getElem_range, hin, hlt, if_false]

theorem mergedBytes_self (n : Nat) (as : List Nat) : mergedBytes inA m n as as = as := by
  apply List.ext_getElem
  · exact length_mergedBytes n as as
  · intro i hi hi'
    simp [mergedBytes, pick, hi']

theorem mergeBytes_spec (hin : inA.WellTyped) (hw : inA.width = 1) {wos other : ObjectState exprArrays}
    (ha : wos.Coherent) (hb : other.Coherent) (hsize : other.size = wos.size) :
    ∀ {n : Nat}, n ≤ wos.size → ∀ {wos' other' : ObjectState exprArrays},
      (List.range n).foldlM (mergeByte ctx inA) (wos, other) = some (wos', other') →
      wos.Keeps wos' ∧ other.Reads other' ∧ ∀ m, wos'.bytes m = mergedBytes inA m n (wos.bytes m) (other.bytes m) := by
  intro n
  induction n with
  | zero =>
    intro _ wos' other' h
    obtain ⟨rfl, rfl⟩ := Prod.mk.inj (Option.some.inj h)
    exact ⟨.refl ha, ⟨.refl hb, fun _ => rfl⟩, fun m => (mergedBytes_zero _ _).symm⟩
  | succ n ih =>
    intro hn wos' other' h
    rw [List.range_succ, List.foldlM_append] at h
    obtain ⟨⟨wos₁, other₁⟩, h₁, h⟩ := Option.bind_eq_some_iff.mp h
    obtain ⟨hkeeps, hreads, hbytes⟩ := ih (by omega) h₁
    have hstep : mergeByte ctx inA (wos₁, other₁) n = some (wos', other') := by simpa using h
    have hia : n < wos₁.size := by
      rw [hkeeps.size]
      omega
    have hib : n < other₁.size := by
      rw [hreads.size, hsize]
      omega
    obtain ⟨hkeeps', hreads', hbytes'⟩ := mergeByte_spec hin hw hkeeps.coherent hreads.coherent hia hib hstep
    refine ⟨hkeeps.trans hkeeps', hreads.trans hreads', fun m => ?_⟩
    have hlen : n < (wos.bytes m).length := by
      rw [ObjectState.length_bytes]
      omega
    have hget : (mergedBytes inA m n (wos.bytes m) (other.bytes m)).getD n 0 = (wos.bytes m).getD n 0 :=
      (getD_mergedBytes hlen).trans (if_neg (Nat.lt_irrefl n))
    rw [hbytes' m, hbytes m, hreads.bytes m, hget]
    exact mergedBytes_succ

/-- The address space maps the memory object to the object state. -/
def Binds (c : CowConfig exprArrays) (space : Nat) (mo : MemoryObject) (object : Nat) : Prop :=
  ∃ as, c.spaces[space]? = some as ∧ (mo, object) ∈ as.memory.objects

def contents (c : CowConfig exprArrays) (object : Nat) (m : Valuation) : List Nat :=
  ((c.objects[object]?).map fun os => os.state.bytes m).getD []

/-- What the two address spaces map are object states of the size of the memory object, and no object state stands for
two memory objects. -/
structure Fits (c : CowConfig exprArrays) (a b : Nat) : Prop where
  object : ∀ s, s = a ∨ s = b → ∀ mo o, Binds c s mo o →
    ∃ os, c.objects[o]? = some os ∧ os.state.Coherent ∧ os.state.size = mo.size
  unique : ∀ s s', s = a ∨ s = b → s' = a ∨ s' = b → ∀ mo mo' o, Binds c s mo o → Binds c s' mo' o → mo = mo'

variable {c c' : CowConfig exprArrays} {a b : Nat}

theorem Binds.unique {s : Nat} {o o' : Nat} (h : Binds c s mo o) (h' : Binds c s mo o') :
    o = o' := by
  obtain ⟨as, has, hm⟩ := h
  obtain ⟨as', has', hm'⟩ := h'
  obtain rfl := Option.some.inj (has.symm.trans has')
  exact (Prod.mk.inj (mem_unique hm hm' rfl)).2

theorem mem_of_binds {s : Nat} {as : CowSpace} (has : c.spaces[s]? = some as) {o : Nat}
    (h : Binds c s mo o) : (mo, o) ∈ as.memory.objects := by
  obtain ⟨as', has', hmem⟩ := h
  obtain rfl := Option.some.inj (has.symm.trans has')
  exact hmem

theorem binds_iff_mem {s : Nat} {as : CowSpace} (has : c.spaces[s]? = some as) :
    (∃ o, Binds c s mo o) ↔ mo ∈ as.memory.objects.map (·.1) := by
  rw [List.mem_map]
  constructor
  · rintro ⟨o, h⟩
    exact ⟨(mo, o), mem_of_binds has h, rfl⟩
  · rintro ⟨⟨mo', o⟩, hmem, rfl⟩
    exact ⟨o, as, has, hmem⟩

theorem Binds.lt {s : Nat} {o : Nat} (h : Binds c s mo o) : s < c.spaces.length := by
  obtain ⟨as, has, -⟩ := h
  exact (List.getElem?_eq_some_iff.mp has).1

/-- What `getWriteable` leaves: the address space maps the memory object to an object state with the old contents, and
nothing else has changed. -/
structure Prepared (c : CowConfig exprArrays) (a : Nat) (mo : MemoryObject) (oa w : Nat) (c₁ : CowConfig exprArrays) :
    Prop where
  binds : ∀ mo' o, Binds c₁ a mo' o ↔ mo' = mo ∧ o = w ∨ mo' ≠ mo ∧ Binds c a mo' o
  others : ∀ s, s ≠ a → ∀ mo' o, Binds c₁ s mo' o ↔ Binds c s mo' o
  objects : ∀ o, o < c.objects.length → c₁.objects[o]? = c.objects[o]?
  fresh : w = oa ∨ w = c.objects.length
  state : ∃ os ws, c.objects[oa]? = some os ∧ c₁.objects[w]? = some ws ∧ ws.state = os.state

theorem getWriteable_prepared {oa w : Nat} {c₁ : CowConfig exprArrays} (hbind : Binds c a mo oa)
    (h : c.getWriteable a mo oa = some (w, c₁)) : Prepared c a mo oa w c₁ := by
  have hlt := hbind.lt
  obtain ⟨as, has, hmem⟩ := id hbind
  unfold CowConfig.getWriteable at h
  simp only [has, Option.bind_eq_bind, Option.bind_some] at h
  obtain ⟨os, hos, h⟩ := Option.bind_eq_some_iff.mp h
  rw [Option.ite_none_left_eq_some] at h
  obtain ⟨hro, h⟩ := h
  split at h
  · -- the address space owns the object state
    obtain ⟨rfl, rfl⟩ := Prod.mk.inj (Option.some.inj h)
    refine ⟨fun mo' o => ?_, fun _ _ _ _ => Iff.rfl, fun _ _ => rfl, .inl rfl, os, os, hos, hos, rfl⟩
    constructor
    · intro hb
      by_cases hmo : mo' = mo
      · subst hmo
        exact .inl ⟨rfl, hb.unique hbind⟩
      · exact .inr ⟨hmo, hb⟩
    · rintro (⟨rfl, rfl⟩ | ⟨-, hb⟩)
      · exact hbind
      · exact hb
  · obtain ⟨copied, hcopy, h⟩ := Option.bind_eq_some_iff.mp h
    obtain ⟨rfl, rfl⟩ := Prod.mk.inj (Option.some.inj h)
    have hcopied : copied = os.state := by
      unfold ObjectState.copy at hcopy
      rw [if_neg hro] at hcopy
      obtain rfl := Option.some.inj hcopy
      have : os.state.readOnly = false := by simpa using hro
      rw [← this]
    refine ⟨fun mo' o => ?_, fun s hs mo' o => ?_, fun o ho => ?_, .inr rfl, os,
      ⟨as.cowKey, copied⟩, hos, ?_, hcopied⟩
    · have hspace : Binds ⟨c.objects ++ [⟨as.cowKey, copied⟩],
          c.spaces.set a { as with memory := as.memory.replace (mo, c.objects.length) }⟩ a mo' o ↔
          (mo', o) ∈ replaceEntry (mo, c.objects.length) as.memory.objects := by
        simp [Binds, hlt, AddressSpace.replace]
      rw [hspace, mem_replaceEntry_iff as.memory.sorted, Prod.mk.injEq]
      refine or_congr_right ?_
      constructor
      · rintro ⟨hm, hne⟩
        exact ⟨fun he => hne (by rw [he]), as, has, hm⟩
      · rintro ⟨hne, as', has', hm⟩
        obtain rfl := Option.some.inj (has.symm.trans has')
        exact ⟨hm, fun haddr => hne (Prod.mk.inj (mem_unique hm hmem haddr)).1⟩
    · simp [Binds, Ne.symm hs]
    · exact List.getElem?_append_left ho
    · simp

structure MergedObject (inA : Expr) (c : CowConfig exprArrays) (a b : Nat) (mo : MemoryObject) (oa ob : Nat)
    (c' : CowConfig exprArrays) : Prop where
  fits : Fits c' a b
  first : ∀ mo' o, mo' ≠ mo → (Binds c' a mo' o ↔ Binds c a mo' o)
  second : ∀ mo' o, Binds c' b mo' o ↔ Binds c b mo' o
  firstContents : ∀ mo' o, mo' ≠ mo → Binds c a mo' o → ∀ m, contents c' o m = contents c o m
  secondContents : ∀ mo' o, Binds c b mo' o → ∀ m, contents c' o m = contents c o m
  merged : ∃ w, Binds c' a mo w ∧
    ∀ m, contents c' w m = mergedBytes inA m mo.size (contents c oa m) (contents c ob m)

theorem contents_of_objects {o o' : Nat} (h : c'.objects[o']? = c.objects[o]?) (m : Valuation) :
    contents c' o' m = contents c o m := by
  rw [contents, contents, h]

theorem contents_of_some {o : Nat} {os : OwnedObject exprArrays} (h : c.objects[o]? = some os) (m : Valuation) :
    contents c o m = os.state.bytes m := by
  rw [contents, h]
  rfl

theorem mergeObject_spec (hin : inA.WellTyped) (hw : inA.width = 1) (hab : a ≠ b) (hf : Fits c a b) {oa ob : Nat} (ha : Binds c a mo oa) (hb : Binds c b mo ob) (hne : oa ≠ ob)
    (h : mergeObject ctx inA a b c mo = some c') : MergedObject inA c a b mo oa ob c' := by
  obtain ⟨osa, hosa, hcoha, hsizea⟩ := hf.object a (.inl rfl) mo oa ha
  obtain ⟨osb, hosb, hcohb, hsizeb⟩ := hf.object b (.inr rfl) mo ob hb
  have hlta := (List.getElem?_eq_some_iff.mp hosa).1
  have hltb := (List.getElem?_eq_some_iff.mp hosb).1
  obtain ⟨as, has, hmema⟩ := id ha
  obtain ⟨bs, hbs, hmemb⟩ := id hb
  unfold mergeObject at h
  simp only [has, hbs, findObject_of_mem hmema, findObject_of_mem hmemb, Option.bind_eq_bind, Option.bind_some] at h
  obtain ⟨⟨w, c₁⟩, hget, h⟩ := Option.bind_eq_some_iff.mp h
  have hp := getWriteable_prepared ha hget
  obtain ⟨osa', ws, hosa', hws, hstate⟩ := hp.state
  obtain rfl := Option.some.inj (hosa.symm.trans hosa')
  have hosb₁ : c₁.objects[ob]? = some osb := (hp.objects ob hltb).trans hosb
  simp only [hws, hosb₁, Option.bind_some] at h
  obtain ⟨⟨wos, oos⟩, hbytes, h⟩ := Option.bind_eq_some_iff.mp h
  obtain rfl := Option.some.inj h
  have hsize : osb.state.size = ws.state.size := by rw [hstate, hsizea, hsizeb]
  have hcohw : ws.state.Coherent := hstate ▸ hcoha
  obtain ⟨hkeeps, hreads, hmerged⟩ := mergeBytes_spec hin hw hcohw hcohb hsize
    (by rw [hstate, hsizea]) hbytes
  have hwob : w ≠ ob := by
    rcases hp.fresh with rfl | rfl
    · exact hne
    · exact Nat.ne_of_gt hltb
  have hltw := (List.getElem?_eq_some_iff.mp hws).1
  have hltb₁ := (List.getElem?_eq_some_iff.mp hosb₁).1
  -- an object state that one of the two maps for another memory object is not the one that is written
  have hkept : ∀ s, s = a ∨ s = b → ∀ mo' o, (s = a → mo' ≠ mo) → Binds c s mo' o → o < c.objects.length ∧ o ≠ w := by
    intro s hs mo' o hmo hbind
    obtain ⟨os, hos, -⟩ := hf.object s hs mo' o hbind
    have hlt := (List.getElem?_eq_some_iff.mp hos).1
    refine ⟨hlt, ?_⟩
    rintro rfl
    rcases hp.fresh with rfl | rfl
    · obtain rfl := hf.unique s a hs (.inl rfl) mo' mo o hbind ha
      rcases hs with rfl | rfl
      · exact hmo rfl rfl
      · exact hne (hbind.unique hb)
    · exact Nat.lt_irrefl _ hlt
  set objects := (c₁.objects.set w { ws with state := wos }).set ob { osb with state := oos } with hobjects
  have hobjw : objects[w]? = some { ws with state := wos } := by simp [hobjects, hwob.symm, hltw]
  have hobjb : objects[ob]? = some { osb with state := oos } := by simp [hobjects, hltb₁]
  have hobj : ∀ o, o < c.objects.length → o ≠ w → o ≠ ob → objects[o]? = c.objects[o]? := by
    intro o hlt how hob
    rw [hobjects, List.getElem?_set_ne hob.symm, List.getElem?_set_ne how.symm, hp.objects o hlt]
  have hbinds : ∀ s, s = a ∨ s = b → ∀ mo' o, Binds ⟨objects, c₁.spaces⟩ s mo' o →
      s = a ∧ mo' = mo ∧ o = w ∨ (s = a → mo' ≠ mo) ∧ Binds c s mo' o := by
    rintro s (rfl | rfl) mo' o hbind
    · rcases (hp.binds mo' o).mp hbind with ⟨hmo, ho⟩ | ⟨hmo, hbind⟩
      · exact .inl ⟨rfl, hmo, ho⟩
      · exact .inr ⟨fun _ => hmo, hbind⟩
    · exact .inr ⟨fun h => absurd h.symm hab, (hp.others s hab.symm mo' o).mp hbind⟩
  have hsecond : ∀ mo' o, Binds c b mo' o → ∀ m, contents ⟨objects, c₁.spaces⟩ o m = contents c o m := by
    intro mo' o hbind m
    obtain ⟨hlt, how⟩ := hkept b (.inr rfl) mo' o (fun h => absurd h.symm hab) hbind
    by_cases hob : o = ob
    · subst hob
      rw [contents_of_some hobjb, contents_of_some hosb]
      exact hreads.bytes m
    · exact contents_of_objects (hobj o hlt how hob) m
  have hother : ∀ mo' o, mo' ≠ mo → Binds c a mo' o → objects[o]? = c.objects[o]? := by
    intro mo' o hmo hbind
    obtain ⟨hlt, how⟩ := hkept a (.inl rfl) mo' o (fun _ => hmo) hbind
    refine hobj o hlt how ?_
    rintro rfl
    exact hmo (hf.unique a b (.inl rfl) (.inr rfl) mo' mo o hbind hb)
  refine ⟨⟨?_, ?_⟩, ?_, fun mo' o => hp.others b hab.symm mo' o, ?_, hsecond, w, ?_, fun m => ?_⟩
  · intro s hs mo' o hbind
    rcases hbinds s hs mo' o hbind with ⟨rfl, rfl, rfl⟩ | ⟨hmo, hbind⟩
    · exact ⟨_, hobjw, hkeeps.coherent, hkeeps.size.trans (by rw [hstate, hsizea])⟩
    · obtain ⟨os, hos, hcoh, hsz⟩ := hf.object s hs mo' o hbind
      obtain ⟨hlt, how⟩ := hkept s hs mo' o hmo hbind
      by_cases hob : o = ob
      · subst hob
        obtain rfl := Option.some.inj (hosb.symm.trans hos)
        exact ⟨_, hobjb, hreads.coherent, hreads.size.trans hsz⟩
      · exact ⟨os, (hobj o hlt how hob).trans hos, hcoh, hsz⟩
  · intro s s' hs hs' mo₁ mo₂ o h₁ h₂
    rcases hbinds s hs mo₁ o h₁ with ⟨-, hmo₁, ho₁⟩ | ⟨hmo₁, hold₁⟩
    · rcases hbinds s' hs' mo₂ o h₂ with ⟨-, hmo₂, -⟩ | ⟨hmo₂, hold₂⟩
      · exact hmo₁.trans hmo₂.symm
      · exact absurd ho₁ (hkept s' hs' mo₂ o hmo₂ hold₂).2
    · rcases hbinds s' hs' mo₂ o h₂ with ⟨-, -, ho₂⟩ | ⟨-, hold₂⟩
      · exact absurd ho₂ (hkept s hs mo₁ o hmo₁ hold₁).2
      · exact hf.unique s s' hs hs' mo₁ mo₂ o hold₁ hold₂
  · intro mo' o hmo
    refine (hp.binds mo' o).trans ⟨?_, fun h => .inr ⟨hmo, h⟩⟩
    rintro (⟨rfl, -⟩ | ⟨-, h⟩)
    · exact absurd rfl hmo
    · exact h
  · intro mo' o hmo hbind m
    exact contents_of_objects (hother mo' o hmo hbind) m
  · exact (hp.binds mo w).mpr (.inl ⟨rfl, rfl⟩)
  · rw [contents_of_some hobjw, contents_of_some hosa, contents_of_some hosb, ← hstate]
    exact hmerged m

structure MergedObjects (inA : Expr) (c : CowConfig exprArrays) (a b : Nat) (mos : List MemoryObject)
    (c' : CowConfig exprArrays) : Prop where
  live : ∀ mo, (∃ o, Binds c' a mo o) ↔ ∃ o, Binds c a mo o
  fits : Fits c' a b
  second : ∀ mo o, Binds c' b mo o ↔ Binds c b mo o
  secondContents : ∀ mo o, Binds c b mo o → ∀ m, contents c' o m = contents c o m
  first : ∀ mo oa, mo ∉ mos → Binds c a mo oa → Binds c' a mo oa ∧ ∀ m, contents c' oa m = contents c oa m
  merged : ∀ mo oa ob, mo ∈ mos → Binds c a mo oa → Binds c b mo ob → ∃ w, Binds c' a mo w ∧
    ∀ m, contents c' w m = mergedBytes inA m mo.size (contents c oa m) (contents c ob m)

theorem mergeObjects_spec (hin : inA.WellTyped) (hw : inA.width = 1) (hab : a ≠ b) :
    ∀ {mos : List MemoryObject} {c : CowConfig exprArrays}, mos.Nodup → Fits c a b →
      (∀ mo ∈ mos, ∃ oa ob, Binds c a mo oa ∧ Binds c b mo ob ∧ oa ≠ ob) →
      mos.foldlM (mergeObject ctx inA a b) c = some c' → MergedObjects inA c a b mos c' := by
  intro mos
  induction mos with
  | nil =>
    intro c _ hf _ h
    obtain rfl := Option.some.inj h
    exact ⟨fun _ => Iff.rfl, hf, fun _ _ => Iff.rfl, fun _ _ _ _ => rfl, fun _ _ _ hb => ⟨hb, fun _ => rfl⟩, nofun⟩
  | cons mo mos ih =>
    intro c hnodup hf hmos h
    obtain ⟨hnot, hnodup⟩ := List.nodup_cons.mp hnodup
    rw [List.foldlM_cons] at h
    obtain ⟨c₁, h₁, h⟩ := Option.bind_eq_some_iff.mp h
    obtain ⟨oa, ob, ha, hb, hne⟩ := hmos mo (.head _)
    have hone := mergeObject_spec hin hw hab hf ha hb hne h₁
    have hneq : ∀ {mo'}, mo' ∈ mos → mo' ≠ mo := fun hm he => hnot (he ▸ hm)
    have hrest := ih hnodup hone.fits (fun mo' hm => by
      obtain ⟨oa', ob', ha', hb', hne'⟩ := hmos mo' (.tail _ hm)
      exact ⟨oa', ob', (hone.first mo' oa' (hneq hm)).mpr ha', (hone.second mo' ob').mpr hb', hne'⟩) h
    refine ⟨fun mo' => (hrest.live mo').trans ?_, hrest.fits, fun mo' o => (hrest.second mo' o).trans (hone.second mo' o),
      fun mo' o hbind m => ?_, fun mo' oa' hmem hbind => ?_, fun mo' oa' ob' hmem ha' hb' => ?_⟩
    · by_cases hmo : mo' = mo
      · obtain ⟨w, hw, -⟩ := hone.merged
        subst hmo
        exact ⟨fun _ => ⟨oa, ha⟩, fun _ => ⟨w, hw⟩⟩
      · exact exists_congr fun o => hone.first mo' o hmo
    · rw [hrest.secondContents mo' o ((hone.second mo' o).mpr hbind) m, hone.secondContents mo' o hbind m]
    · have hmo : mo' ≠ mo := fun he => hmem (he ▸ List.mem_cons_self)
      obtain ⟨hbind', hcontents⟩ := hrest.first mo' oa' (fun hm => hmem (.tail _ hm)) ((hone.first mo' oa' hmo).mpr hbind)
      exact ⟨hbind', fun m => (hcontents m).trans (hone.firstContents mo' oa' hmo hbind m)⟩
    · rcases List.mem_cons.mp hmem with rfl | hm
      · -- later objects leave this one as it is
        obtain rfl := ha.unique ha'
        obtain rfl := hb.unique hb'
        obtain ⟨w, hwb, hwc⟩ := hone.merged
        obtain ⟨hbind, hcontents⟩ := hrest.first mo' w hnot hwb
        exact ⟨w, hbind, fun m => (hcontents m).trans (hwc m)⟩
      · obtain ⟨w, hwb, hwc⟩ := hrest.merged mo' oa' ob' hm ((hone.first mo' oa' (hneq hm)).mpr ha')
          ((hone.second mo' ob').mpr hb')
        refine ⟨w, hwb, fun m => ?_⟩
        rw [hwc m, hone.firstContents mo' oa' (hneq hm) ha' m, hone.secondContents mo' ob' hb' m]

theorem mutatedObjects_spec {as bs : List (MemoryObject × Nat)} {mutated : List MemoryObject}
    (hnodup : (as.map (·.1)).Nodup) (h : mutatedObjects as bs = some mutated) :
    as.map (·.1) = bs.map (·.1) ∧ mutated.Sublist (as.map (·.1)) ∧
      (∀ mo ∈ mutated, ∃ oa ob, (mo, oa) ∈ as ∧ (mo, ob) ∈ bs ∧ oa ≠ ob) ∧
      ∀ mo oa ob, mo ∉ mutated → (mo, oa) ∈ as → (mo, ob) ∈ bs → oa = ob := by
  induction as, bs using mutatedObjects.induct generalizing mutated with
  | case1 =>
    obtain rfl := Option.some.inj h
    exact ⟨rfl, .slnil, nofun, nofun⟩
  | case2 os as mo os' bs ih =>
    rw [mutatedObjects, if_pos rfl] at h
    obtain ⟨rest, hrest, rfl⟩ := Option.map_eq_some_iff.mp h
    obtain ⟨hnot, hnodup⟩ := List.nodup_cons.mp hnodup
    obtain ⟨hsame, hsub, hmutated, hequal⟩ := ih hnodup hrest
    have hnot' : mo ∉ bs.map (·.1) := hsame ▸ hnot
    refine ⟨congrArg (mo :: ·) hsame, ?_, fun x hx => ?_, fun x oa ob hx ha hb => ?_⟩
    · split
      · exact hsub.cons mo
      · exact hsub.cons_cons mo
    · by_cases hos : os = os'
      · rw [if_pos hos] at hx
        obtain ⟨oa, ob, ha, hb, hne⟩ := hmutated x hx
        exact ⟨oa, ob, .tail _ ha, .tail _ hb, hne⟩
      · rw [if_neg hos] at hx
        rcases List.mem_cons.mp hx with rfl | hx
        · exact ⟨os, os', .head _, .head _, hos⟩
        · obtain ⟨oa, ob, ha, hb, hne⟩ := hmutated x hx
          exact ⟨oa, ob, .tail _ ha, .tail _ hb, hne⟩
    · rcases List.mem_cons.mp ha with hhead | hta
      · obtain ⟨rfl, rfl⟩ := Prod.mk.inj hhead
        rcases List.mem_cons.mp hb with hhead' | htb
        · obtain ⟨-, rfl⟩ := Prod.mk.inj hhead'
          by_contra hne
          rw [if_neg hne] at hx
          exact hx List.mem_cons_self
        · exact absurd (List.mem_map_of_mem htb) hnot'
      · rcases List.mem_cons.mp hb with hhead' | htb
        · obtain ⟨rfl, -⟩ := Prod.mk.inj hhead'
          exact absurd (List.mem_map_of_mem hta) hnot
        · refine hequal x oa ob (fun hr => hx ?_) hta htb
          split
          · exact hr
          · exact .tail _ hr
  | case3 mo os as mo' os' bs hne =>
    rw [mutatedObjects, if_neg hne] at h
    cases h
  | case4 as bs hnil hcons =>
    rw [mutatedObjects] at h
    · cases h
    · exact hnil
    · exact hcons

theorem nodup_objects (as : AddressSpace Nat) : (as.objects.map (·.1)).Nodup := by
  refine List.pairwise_map.mpr (as.sorted.imp fun {x y} hlt heq => ?_)
  rw [heq] at hlt
  exact Nat.lt_irrefl _ hlt

def byteAt (c : CowConfig exprArrays) (space : Nat) (mo : MemoryObject) (i : Nat) (m : Valuation) : Option Nat := do
  let as ← c.spaces[space]?
  let object ← as.memory.findObject mo
  let os ← c.objects[object]?
  let (e, _) ← os.state.read8 i
  some (Term.eval m e)

theorem byteAt_eq {s : Nat} (hf : Fits c a b) (hs : s = a ∨ s = b) {o : Nat} (h : Binds c s mo o)
    {i : Nat} (hi : i < mo.size) (m : Valuation) : byteAt c s mo i m = some ((contents c o m).getD i 0) := by
  obtain ⟨os, hos, hcoh, hsize⟩ := hf.object s hs mo o h
  obtain ⟨as, has, hmem⟩ := h
  obtain ⟨e, os', hread, -, -, heval⟩ := ObjectState.read8_spec hcoh (hsize ▸ hi)
  simp only [byteAt, has, findObject_of_mem hmem, hos, hread, Option.bind_eq_bind, Option.bind_some]
  rw [contents_of_some hos]
  exact congrArg some (heval m)

theorem Fits.length_contents (hf : Fits c a b) {s : Nat} (hs : s = a ∨ s = b) {o : Nat}
    (h : Binds c s mo o) (m : Valuation) : (contents c o m).length = mo.size := by
  obtain ⟨os, hos, -, hsize⟩ := hf.object s hs mo o h
  rw [contents_of_some hos, ← hsize]
  exact ObjectState.length_bytes _ _

/-- The constraints are boolean and the registers hold well-typed expressions. -/
structure Typed (S : ExecutionState) : Prop where
  constraints : S.constraints.Typed
  stack : StackTyped S.stack

section Merge

variable {useVisitorHash rewriteEqualities : Bool} {le : Expr → Expr → Bool}
  {pointerLe : MemoryObject → MemoryObject → Bool} {A A' B : ExecutionState}

theorem merge_false (h : merge ctx useVisitorHash rewriteEqualities le pointerLe c A B = some (false, A', c')) :
    A' = A ∧ c' = c := by
  have hsame : some (false, A, c) = some (false, A', c') → A' = A ∧ c' = c := by
    intro heq
    obtain ⟨-, hrest⟩ := Prod.mk.inj (Option.some.inj heq)
    obtain ⟨rfl, rfl⟩ := Prod.mk.inj hrest
    exact ⟨rfl, rfl⟩
  unfold merge at h
  split at h
  · exact hsame h
  · split at h
    · exact hsame h
    · split at h
      · exact hsame h
      · obtain ⟨as, -, h⟩ := Option.bind_eq_some_iff.mp h
        obtain ⟨bs, -, h⟩ := Option.bind_eq_some_iff.mp h
        split at h
        · exact hsame h
        · obtain ⟨inA, -, h⟩ := Option.bind_eq_some_iff.mp h
          obtain ⟨inB, -, h⟩ := Option.bind_eq_some_iff.mp h
          obtain ⟨stack, -, h⟩ := Option.bind_eq_some_iff.mp h
          obtain ⟨c₁, -, h⟩ := Option.bind_eq_some_iff.mp h
          obtain ⟨constraints, -, h⟩ := Option.bind_eq_some_iff.mp h
          simp at h

theorem merge_true (h : merge ctx useVisitorHash rewriteEqualities le pointerLe c A B = some (true, A', c')) :
    ∃ as bs mutated inA inB, c.spaces[A.space]? = some as ∧ c.spaces[B.space]? = some bs ∧
      mutatedObjects as.memory.objects bs.memory.objects = some mutated ∧
      conjunction (suffix le A.constraints B.constraints) = some inA ∧
      conjunction (suffix le B.constraints A.constraints) = some inB ∧
      mergeStack inA A.stack B.stack = some A'.stack ∧
      (mutated.mergeSort pointerLe).foldlM (mergeObject ctx inA A.space B.space) c = some c' ∧
      mergeConstraints useVisitorHash rewriteEqualities (commonConstraints le A.constraints B.constraints) inA inB =
        some A'.constraints ∧ A'.space = A.space := by
  have hfalse : some (false, A, c) ≠ some (true, A', c') := by simp
  unfold merge at h
  split at h
  · exact absurd h hfalse
  · split at h
    · exact absurd h hfalse
    · split at h
      · exact absurd h hfalse
      · obtain ⟨as, has, h⟩ := Option.bind_eq_some_iff.mp h
        obtain ⟨bs, hbs, h⟩ := Option.bind_eq_some_iff.mp h
        split at h
        · exact absurd h hfalse
        · rename_i mutated hmutated
          obtain ⟨inA, hinA, h⟩ := Option.bind_eq_some_iff.mp h
          obtain ⟨inB, hinB, h⟩ := Option.bind_eq_some_iff.mp h
          obtain ⟨stack, hstack, h⟩ := Option.bind_eq_some_iff.mp h
          obtain ⟨c₁, hc₁, h⟩ := Option.bind_eq_some_iff.mp h
          obtain ⟨constraints, hconstraints, h⟩ := Option.bind_eq_some_iff.mp h
          obtain ⟨-, hrest⟩ := Prod.mk.inj (Option.some.inj h)
          obtain ⟨rfl, rfl⟩ := Prod.mk.inj hrest
          exact ⟨as, bs, mutated, inA, inB, has, hbs, hmutated, hinA, hinB, hstack, hc₁, hconstraints, rfl⟩

/-- The memory of the merged state: every object that is live in one of the states is live, and has the bytes of the
state that the condition says. -/
theorem merge_contents {inA : Expr} (hin : inA.WellTyped) (hw : inA.width = 1) (hab : a ≠ b) (hf : Fits c a b)
    {as bs : CowSpace} (has : c.spaces[a]? = some as) (hbs : c.spaces[b]? = some bs) {mutated : List MemoryObject}
    (hmutated : mutatedObjects as.memory.objects bs.memory.objects = some mutated)
    (h : (mutated.mergeSort pointerLe).foldlM (mergeObject ctx inA a b) c = some c') :
    Fits c' a b ∧ (∀ s, s = a ∨ s = b → ∀ mo, (∃ w, Binds c' a mo w) ↔ ∃ o, Binds c s mo o) ∧
      ∀ mo w, Binds c' a mo w → ∃ oa ob, Binds c a mo oa ∧ Binds c b mo ob ∧
        ∀ m, contents c' w m = mergedBytes inA m mo.size (contents c oa m) (contents c ob m) := by
  obtain ⟨hsame, hsub, hdiffer, hequal⟩ := mutatedObjects_spec (nodup_objects as.memory) hmutated
  have hnodup : (mutated.mergeSort pointerLe).Nodup :=
    (List.mergeSort_perm _ _).nodup_iff.mpr (hsub.nodup (nodup_objects as.memory))
  have hmerged := mergeObjects_spec hin hw hab hnodup hf (fun mo hmo => by
    obtain ⟨oa, ob, ha, hb, hne⟩ := hdiffer mo (List.mem_mergeSort.mp hmo)
    exact ⟨oa, ob, ⟨as, has, ha⟩, ⟨bs, hbs, hb⟩, hne⟩) h
  have hlive : ∀ s, s = a ∨ s = b → ∀ mo, (∃ w, Binds c' a mo w) ↔ ∃ o, Binds c s mo o := by
    rintro s (rfl | rfl) mo
    · exact hmerged.live mo
    · rw [hmerged.live mo, binds_iff_mem has, binds_iff_mem hbs, hsame]
  refine ⟨hmerged.fits, hlive, fun mo w hbind => ?_⟩
  obtain ⟨oa, ha⟩ := (hlive a (.inl rfl) mo).mp ⟨w, hbind⟩
  obtain ⟨ob, hb⟩ := (hlive b (.inr rfl) mo).mp ⟨w, hbind⟩
  refine ⟨oa, ob, ha, hb, fun m => ?_⟩
  by_cases hmut : mo ∈ mutated
  · obtain ⟨w', hw', hcontents⟩ := hmerged.merged mo oa ob (List.mem_mergeSort.mpr hmut) ha hb
    obtain rfl := hw'.unique hbind
    exact hcontents m
  · -- both states have the same object state
    obtain ⟨hw', hcontents⟩ := hmerged.first mo oa (fun hm => hmut (List.mem_mergeSort.mp hm)) ha
    obtain rfl := hw'.unique hbind
    obtain rfl := hequal mo oa ob hmut (mem_of_binds has ha) (mem_of_binds hbs hb)
    rw [hcontents m]
    exact (mergedBytes_self _ _).symm

end Merge

/-- Merging keeps both behaviours.  If no assignment satisfies the constraints of both states and they are merged, the
merged constraints hold exactly where those of one of the states do; and there every register that is bound in both
states and every byte of every live object has the value that it has in that state.  If they are not merged, nothing
has changed. -/
theorem merge_keeps_both (ctx : Context) (useVisitorHash rewriteEqualities : Bool) (le : Expr → Expr → Bool)
    (pointerLe : MemoryObject → MemoryObject → Bool) (c : CowConfig exprArrays) (A B : ExecutionState)
    (hA : A.Typed) (hB : B.Typed) (hspace : A.space ≠ B.space) (hfits : Fits c A.space B.space)
    (hdisjoint : ∀ m, ¬(A.constraints.TrueAt m ∧ B.constraints.TrueAt m)) :
    (∀ A' c', merge ctx useVisitorHash rewriteEqualities le pointerLe c A B = some (true, A', c') →
      ∀ m, (A'.constraints.TrueAt m ↔ A.constraints.TrueAt m ∨ B.constraints.TrueAt m) ∧
        ∀ S, S = A ∨ S = B → S.constraints.TrueAt m →
          (∀ k i av bv, local? A.stack k i = some av → local? B.stack k i = some bv →
            ∃ v sv, local? A'.stack k i = some v ∧ local? S.stack k i = some sv ∧ v.eval m = sv.eval m) ∧
          ∀ mo, ((∃ o, Binds c' A'.space mo o) ↔ ∃ o, Binds c S.space mo o) ∧
            ((∃ o, Binds c S.space mo o) → ∀ i < mo.size,
              ∃ v, byteAt c' A'.space mo i m = some v ∧ byteAt c S.space mo i m = some v)) ∧
    ∀ A' c', merge ctx useVisitorHash rewriteEqualities le pointerLe c A B = some (false, A', c') → A' = A ∧ c' = c := by
  refine ⟨fun A' c' h m => ?_, fun A' c' h => merge_false h⟩
  obtain ⟨as, bs, mutated, inA, inB, has, hbs, hmutated, hinA, hinB, hstack, hfold, hconstraints, hspace'⟩ :=
    merge_true h
  have hjA := conjunction_joins (fun e he => hA.constraints e (mem_suffix.mp he).1) hinA
  have hjB := conjunction_joins (fun e he => hB.constraints e (mem_suffix.mp he).1) hinB
  have hcommon : ConstraintSet.Typed (commonConstraints le A.constraints B.constraints) :=
    fun e he => hA.constraints e (mem_commonConstraints.mp he).1
  have hsplitA : A.constraints.TrueAt m ↔ _ := trueAt_iff le B.constraints
  have hsplitB : B.constraints.TrueAt m ↔ _ := trueAt_iff le A.constraints
  rw [trueAt_commonConstraints_comm] at hsplitB
  refine ⟨?_, fun S hS hsat => ⟨fun k i av bv hav hbv => ?_, fun mo => ?_⟩⟩
  · rw [mergeConstraints_spec hcommon hjA hjB hconstraints, hsplitA, hsplitB, and_or_left]
  · obtain ⟨v, hv, heval⟩ := mergeStack_spec hjA.wellTyped hA.stack hB.stack hstack hav hbv
    rcases hS with rfl | rfl
    · exact ⟨v, av, hv, hav, (heval m).trans (if_pos ((hjA.eval m).mpr (hsplitA.mp hsat).2))⟩
    · refine ⟨v, bv, hv, hbv, (heval m).trans (if_neg fun hin => ?_)⟩
      exact hdisjoint m ⟨hsplitA.mpr ⟨(hsplitB.mp hsat).1, (hjA.eval m).mp hin⟩, hsat⟩
  · rw [hspace']
    obtain ⟨hfits', hlive, hcontents⟩ := merge_contents hjA.wellTyped hjA.width hspace hfits has hbs hmutated hfold
    have hS' : S.space = A.space ∨ S.space = B.space := hS.imp (congrArg space) (congrArg space)
    refine ⟨hlive _ hS' mo, fun hmo i hi => ?_⟩
    obtain ⟨w, hw⟩ := (hlive _ hS' mo).mpr hmo
    obtain ⟨oa, ob, ha, hb, hbytes⟩ := hcontents mo w hw
    have hlen := hfits.length_contents (.inl rfl) ha m
    have hbyte : (contents c' w m).getD i 0 = pick inA m ((contents c oa m).getD i 0) ((contents c ob m).getD i 0) := by
      rw [hbytes m, getD_mergedBytes (hlen ▸ hi), if_pos hi]
    rcases hS with rfl | rfl
    · refine ⟨_, byteAt_eq hfits' (.inl rfl) hw hi m, ?_⟩
      rw [byteAt_eq hfits (.inl rfl) ha hi m, hbyte, pick, if_pos ((hjA.eval m).mpr (hsplitA.mp hsat).2)]
    · refine ⟨_, byteAt_eq hfits' (.inl rfl) hw hi m, ?_⟩
      rw [byteAt_eq hfits (.inr rfl) hb hi m, hbyte, pick, if_neg fun hin => ?_]
      exact hdisjoint m ⟨hsplitA.mpr ⟨(hsplitB.mp hsat).1, (hjA.eval m).mp hin⟩, hsat⟩

def byteIsNotFive : Expr := .cmp .eq (.ofBool false) byteIsFive

def fiveState : ExecutionState := ⟨10, [], [⟨0, 0, [some (.ofNat 8 1)]⟩], [byteIsFive], 0⟩

def otherState : ExecutionState := ⟨10, [], [⟨0, 0, [some firstByte]⟩], [byteIsNotFive], 1⟩

def byteSpace (object : Nat) : CowSpace := ⟨2, ⟨[(⟨8, 1⟩, object)], by simp⟩⟩

def branched : CowConfig exprArrays where
  objects := [⟨1, .ofSize 1 none⟩, ⟨2, (ObjectState.ofSize 1 none).write8Concrete 0 7⟩]
  spaces := [byteSpace 0, byteSpace 1]

theorem suffix_singleton (le : Expr → Expr → Bool) {x y : Expr} (h : x ≠ y) : suffix le [x] [y] = [x] := by
  simp [suffix, commonConstraints, constraintSet, h]

theorem commonConstraints_singleton (le : Expr → Expr → Bool) {x y : Expr} (h : x ≠ y) :
    commonConstraints le [x] [y] = [] := by
  simp [commonConstraints, constraintSet, h]

theorem branched_fits : Fits branched 0 1 := by
  have hbinds : ∀ s mo o, Binds branched s mo o → s = 0 ∧ mo = ⟨8, 1⟩ ∧ o = 0 ∨ s = 1 ∧ mo = ⟨8, 1⟩ ∧ o = 1 := by
    rintro s mo o ⟨as, has, hmem⟩
    match s with
    | 0 =>
      obtain rfl := Option.some.inj has
      exact .inl ⟨rfl, by simpa [byteSpace] using hmem⟩
    | 1 =>
      obtain rfl := Option.some.inj has
      exact .inr ⟨rfl, by simpa [byteSpace] using hmem⟩
    | s + 2 => cases has
  have hzero : (ObjectState.ofSize 1 none : ObjectState exprArrays).Coherent :=
    ObjectState.ofSize_coherent (by decide) (by simp)
  refine ⟨fun s _ mo o h => ?_, fun s s' _ _ mo mo' o h h' => ?_⟩
  · rcases hbinds s mo o h with ⟨-, rfl, rfl⟩ | ⟨-, rfl, rfl⟩
    · exact ⟨_, rfl, hzero, rfl⟩
    · exact ⟨_, rfl, (ObjectState.write8Concrete_spec hzero 0 7).1.coherent, rfl⟩
  · rcases hbinds s mo o h with ⟨-, rfl, -⟩ | ⟨-, rfl, -⟩ <;>
      rcases hbinds s' mo' o h' with ⟨-, rfl, -⟩ | ⟨-, rfl, -⟩ <;> rfl

/-- The two states are merged, with constraints that always hold. -/
theorem merge_keeps_both_branch : ∃ A' c',
    merge CowConfig.target32 true true (fun _ _ => true) (fun _ _ => true) branched fiveState otherState =
      some (true, A', c') ∧
    (∀ m, A'.constraints.TrueAt m) ∧ byteAt c' 0 ⟨8, 1⟩ 0 (fun _ _ => 5) = some 0 ∧
      byteAt c' 0 ⟨8, 1⟩ 0 (fun _ _ => 6) = some 7 := by
  have hbyte : firstByte.WellTyped := by decide
  have hdef : ∀ m, firstByte.Defined m := fun m => ⟨trivial, trivial, (by decide : 0 < 4)⟩
  have heither : ∀ m, byteIsNotFive.eval m = .ofBool true ↔ ¬byteIsFive.eval m = .ofBool true := by
    intro m
    obtain ⟨x, hx⟩ := APInt.exists_value (byteIsFive.width_eval m (by decide) : _ = 1)
    simp only [byteIsNotFive, Expr.eval, Expr.ofBool, hx]
    clear hx
    revert x
    decide
  have hA : fiveState.Typed := ⟨by simp [fiveState, ConstraintSet.Typed]; decide, by
    simp [fiveState, StackTyped, LocalsTyped]⟩
  have hB : otherState.Typed := ⟨by simp [otherState, ConstraintSet.Typed]; decide, by
    simp [otherState, StackTyped, LocalsTyped, hbyte]⟩
  have htrueA : ∀ m, fiveState.constraints.TrueAt m ↔ byteIsFive.eval m = .ofBool true := fun m => trueAt_singleton
  have htrueB : ∀ m, otherState.constraints.TrueAt m ↔ byteIsNotFive.eval m = .ofBool true := fun m => trueAt_singleton
  have hne : byteIsFive ≠ byteIsNotFive := by decide
  obtain ⟨stack, hstack⟩ := Option.isSome_iff_exists.mp
    (by decide : (mergeStack byteIsFive fiveState.stack otherState.stack).isSome = true)
  obtain ⟨c', hc'⟩ := Option.isSome_iff_exists.mp
    (by decide : (mergeObject CowConfig.target32 byteIsFive 0 1 branched ⟨8, 1⟩).isSome = true)
  have htyped : ConstraintSet.Typed ([] ++ [Expr.binary .or byteIsFive byteIsNotFive]) :=
    typed_singleton.mpr ⟨by decide, rfl⟩
  have hholds : HoldsAt (fun _ _ => 5) ([] ++ [Expr.binary .or byteIsFive byteIsNotFive]) :=
    holdsAt_singleton.mpr ⟨⟨⟨trivial, hdef _⟩, ⟨trivial, trivial, hdef _⟩, fun h => by cases h⟩, by decide⟩
  obtain ⟨C, hC, -⟩ := addConstraint_spec false true true htyped hholds
  have hmerge : merge CowConfig.target32 true true (fun _ _ => true) (fun _ _ => true) branched fiveState otherState =
      some (true, { fiveState with stack, constraints := C }, c') := by
    have hcommon : mergeConstraints true true [] byteIsFive byteIsNotFive = some C := hC
    have hfold : ([⟨8, 1⟩] : List MemoryObject).foldlM (mergeObject CowConfig.target32 byteIsFive 0 1) branched =
        some c' := by
      rw [List.foldlM_cons, hc']
      rfl
    unfold merge
    rw [if_neg (by decide), if_neg (by decide), if_neg (by decide)]
    simp only [show branched.spaces[0]? = some (byteSpace 0) from rfl,
      show branched.spaces[1]? = some (byteSpace 1) from rfl,
      show mutatedObjects (byteSpace 0).memory.objects (byteSpace 1).memory.objects = some [⟨8, 1⟩] from rfl,
      show fiveState.constraints = [byteIsFive] from rfl, show otherState.constraints = [byteIsNotFive] from rfl,
      suffix_singleton _ hne, suffix_singleton _ hne.symm, commonConstraints_singleton _ hne,
      show conjunction [byteIsFive] = some byteIsFive from rfl,
      show conjunction [byteIsNotFive] = some byteIsNotFive from rfl, List.mergeSort_singleton, hstack, hcommon,
      show fiveState.space = 0 from rfl, show otherState.space = 1 from rfl, hfold, Option.bind_eq_bind,
      Option.bind_some]
  have hkeeps := (merge_keeps_both CowConfig.target32 true true (fun _ _ => true) (fun _ _ => true) branched
    fiveState otherState hA hB (by decide) branched_fits fun m h =>
      (heither m).mp ((htrueB m).mp h.2) ((htrueA m).mp h.1)).1 _ _ hmerge
  have hfive := (hkeeps fun _ _ => 5).2 fiveState (.inl rfl) ((htrueA _).mpr (by decide))
  have hsix := (hkeeps fun _ _ => 6).2 otherState (.inr rfl) ((htrueB _).mpr (by decide))
  refine ⟨_, c', hmerge, fun m => (hkeeps m).1.mpr ?_, ?_, ?_⟩
  · rw [htrueA, htrueB, heither]
    exact Classical.em _
  · obtain ⟨v, hv, hv'⟩ := (hfive.2 ⟨8, 1⟩).2 ⟨0, _, rfl, .head _⟩ 0 (by decide)
    rw [show v = 0 from (Option.some.inj hv').symm] at hv
    exact hv
  · obtain ⟨v, hv, hv'⟩ := (hsix.2 ⟨8, 1⟩).2 ⟨1, _, rfl, .head _⟩ 0 (by decide)
    rw [show v = 7 from (Option.some.inj hv').symm] at hv
    exact hv

end ExecutionState

end CgsKlee
