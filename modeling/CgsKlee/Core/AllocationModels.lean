import CgsKlee.Core.Allocation
import CgsKlee.Core.MemoryModels
import Mathlib.Algebra.GroupWithZero.Nat
import Mathlib.Algebra.Order.BigOperators.Group.List
import Mathlib.Algebra.Order.Group.Nat

/-!
# Allocation honours its request

The states that `executeAlloc` leaves and those that it terminates share out the models of the state it starts from.
A state that is left has the target bound to null or to a new object, which has the size, the alignment and the bytes
that were asked for.  The requested alignment is for sizes with one value only: the recursive calls for the others do
not pass it on.
-/

namespace CgsKlee

open Symbolic FlatMemory

variable {T : ExprTheory} {A : ArrayTheory T} {σ ρ : Type} {B : Backend T}

/-- The states of a list of results share out a set of models. -/
structure SharesModels (X : Set T.Model) (results : List (SymState T σ × ρ)) : Prop where
  cover : ∀ m, m ∈ X ↔ ∃ p ∈ results, m ∈ T.models p.1.constraints
  disjoint : results.Pairwise fun p q => ∀ m, ¬(m ∈ T.models p.1.constraints ∧ m ∈ T.models q.1.constraints)

variable {X Y Z : Set T.Model} {ps qs : List (SymState T σ × ρ)}

theorem SharesModels.singleton {p : SymState T σ × ρ} (h : T.models p.1.constraints = X) : SharesModels X [p] := by
  refine ⟨fun m => ?_, List.pairwise_singleton _ _⟩
  rw [← h]
  constructor
  · exact fun hm => ⟨p, List.mem_singleton.mpr rfl, hm⟩
  · rintro ⟨q, hq, hm⟩
    rwa [List.mem_singleton.mp hq] at hm

theorem SharesModels.append (hp : SharesModels Y ps) (hq : SharesModels Z qs) (hX : ∀ m, m ∈ X ↔ m ∈ Y ∨ m ∈ Z)
    (hYZ : ∀ m, ¬(m ∈ Y ∧ m ∈ Z)) : SharesModels X (ps ++ qs) := by
  constructor
  · intro m
    rw [hX, hp.cover, hq.cover]
    constructor
    · rintro (⟨p, hmem, hm⟩ | ⟨q, hmem, hm⟩)
      · exact ⟨p, List.mem_append_left _ hmem, hm⟩
      · exact ⟨q, List.mem_append_right _ hmem, hm⟩
    · rintro ⟨p, hmem, hm⟩
      exact (List.mem_append.mp hmem).imp (fun h => ⟨p, h, hm⟩) fun h => ⟨p, h, hm⟩
  · refine List.pairwise_append.mpr ⟨hp.disjoint, hq.disjoint, fun p hpm q hqm m hm => hYZ m ⟨?_, ?_⟩⟩
    · exact (hp.cover m).mpr ⟨p, hpm, hm.1⟩
    · exact (hq.cover m).mpr ⟨q, hqm, hm.2⟩

def limitDepth (maxDepth : Nat) (r : ForkResult T σ) : ForkResult T σ :=
  match r.trueState, r.falseState with
  | some trueState, some falseState =>
    if maxDepth ≠ 0 ∧ maxDepth ≤ trueState.depth then
      { trueState := none, falseState := none, terminated := [trueState, falseState] }
    else r
  | _, _ => r

theorem fork_limitDepth (env : ForkEnv) (coin : Bool) (s : SymState T σ) (c : T.Expr) :
    fork B env coin s c = (fork B { env with maxDepth := 0 } coin s c).map (limitDepth env.maxDepth) := by
  have hstatic : ∀ s : SymState T σ, s.maxStaticPctChecks B { env with maxDepth := 0 } c =
      s.maxStaticPctChecks B env c := fun _ => rfl
  have hpermitted : ∀ s : SymState T σ, { env with maxDepth := 0 }.branchingPermitted s = env.branchingPermitted s :=
    fun _ => rfl
  unfold fork
  rw [hstatic]
  cases s.maxStaticPctChecks B env c with
  | none => rfl
  | some p =>
    obtain ⟨s, c⟩ := p
    simp only [Option.bind_eq_bind, Option.bind_some, hpermitted]
    cases B.evaluate s.constraints c with
    | true | false => rfl
    | unknown =>
      dsimp only
      split
      · split
        · cases s.addConstraint B c <;> rfl
        · cases s.addConstraint B (T.isZero c) <;> rfl
      · cases s.branch.addConstraint B c with
        | none => rfl
        | some trueState =>
          cases s.branch.addConstraint B (T.isZero c) with
          | none => rfl
          | some falseState =>
            have hno : ¬(0 ≠ 0 ∧ 0 ≤ trueState.depth) := fun h => h.1 rfl
            rw [Option.bind_some, Option.bind_some, Option.bind_some, Option.bind_some, if_neg hno, Option.map_some]
            unfold limitDepth
            dsimp only
            split <;> rfl

/-- A state is what a fork leaves for the models that satisfy a condition. -/
structure IsBranch (s t : SymState T σ) (X : Set T.Model) : Prop where
  models : T.models t.constraints = X
  nonempty : X.Nonempty
  data : t.data = s.data
  forkDisabled : t.forkDisabled = s.forkDisabled

/-- What a fork that branching is permitted for does with the two sides of a condition: the states that it leaves have
the models of their side, and if one is missing there are none, or `MaxDepth` has terminated both. -/
inductive ForkCases (s : SymState T σ) (c : T.Expr) (r : ForkResult T σ) : Prop
  | both {t f : SymState T σ} (hr : r = ⟨some t, some f, []⟩)
    (ht : IsBranch s t {m | m ∈ T.models s.constraints ∧ T.Holds m c})
    (hf : IsBranch s f {m | m ∈ T.models s.constraints ∧ ¬T.Holds m c})
  | terminated {t f : SymState T σ} (hr : r = ⟨none, none, [t, f]⟩)
    (ht : IsBranch s t {m | m ∈ T.models s.constraints ∧ T.Holds m c})
    (hf : IsBranch s f {m | m ∈ T.models s.constraints ∧ ¬T.Holds m c})
  | onlyTrue {t : SymState T σ} (hr : r = ⟨some t, none, []⟩) (ht : IsBranch s t (T.models s.constraints))
    (hall : ∀ m ∈ T.models s.constraints, T.Holds m c)
  | onlyFalse {f : SymState T σ} (hr : r = ⟨none, some f, []⟩) (hf : IsBranch s f (T.models s.constraints))
    (hall : ∀ m ∈ T.models s.constraints, ¬T.Holds m c)

theorem fork_cases (hB : B.Exact) {env : ForkEnv} {s : SymState T σ} (hpermitted : env.branchingPermitted s)
    (hstatic : env.staticLimitReached = false) (hs : (T.models s.constraints).Nonempty) {c : T.Expr}
    (hc : T.width c = 1) (coin : Bool) : ∃ r, fork B env coin s c = some r ∧ ForkCases s c r := by
  have hunlimited : { env with maxDepth := 0 }.Unlimited s := ⟨hpermitted, hstatic, Or.inl rfl⟩
  obtain ⟨r, hr, hforked⟩ := fork_forked hB hunlimited hs hc coin
  rw [fork_limitDepth, hr]
  refine ⟨_, rfl, ?_⟩
  obtain ⟨htrue, hfalse, hterminated, htdata, hfdata, -, htne, hfne⟩ := hforked
  obtain ⟨trueState, falseState, terminated⟩ := r
  dsimp only at hterminated htrue hfalse htdata hfdata htne hfne
  subst hterminated
  -- a side without a state has no models
  have htrueNone : trueState = none → ∀ m ∈ T.models s.constraints, ¬T.Holds m c := by
    rintro rfl m hm hh
    exact (htrue ▸ ⟨hm, hh⟩ : m ∈ modelsOf (none : Option (SymState T σ)))
  have hfalseNone : falseState = none → ∀ m ∈ T.models s.constraints, T.Holds m c := by
    rintro rfl m hm
    by_contra hh
    exact (hfalse ▸ ⟨hm, hh⟩ : m ∈ modelsOf (none : Option (SymState T σ)))
  have htbranch : ∀ t ∈ trueState, IsBranch s t {m | m ∈ T.models s.constraints ∧ T.Holds m c} := by
    rintro t rfl
    exact ⟨htrue, htrue ▸ htne t rfl, (htdata t rfl).1, (htdata t rfl).2⟩
  have hfbranch : ∀ f ∈ falseState, IsBranch s f {m | m ∈ T.models s.constraints ∧ ¬T.Holds m c} := by
    rintro f rfl
    exact ⟨hfalse, hfalse ▸ hfne f rfl, (hfdata f rfl).1, (hfdata f rfl).2⟩
  cases trueState with
  | none =>
    have hall := htrueNone rfl
    cases falseState with
    | none =>
      obtain ⟨m, hm⟩ := hs
      exact absurd (hfalseNone rfl m hm) (hall m hm)
    | some f =>
      refine .onlyFalse rfl ?_ hall
      have heq : {m | m ∈ T.models s.constraints ∧ ¬T.Holds m c} = T.models s.constraints :=
        Set.ext fun m => ⟨fun hm => hm.1, fun hm => ⟨hm, hall m hm⟩⟩
      exact heq ▸ hfbranch f rfl
  | some t =>
    cases falseState with
    | none =>
      have hall := hfalseNone rfl
      refine .onlyTrue rfl ?_ hall
      have heq : {m | m ∈ T.models s.constraints ∧ T.Holds m c} = T.models s.constraints :=
        Set.ext fun m => ⟨fun hm => hm.1, fun hm => ⟨hm, hall m hm⟩⟩
      exact heq ▸ htbranch t rfl
    | some f =>
      unfold limitDepth
      dsimp only
      split
      · exact .terminated rfl (htbranch t rfl) (hfbranch f rfl)
      · exact .both rfl (htbranch t rfl) (hfbranch f rfl)

theorem ForkCases.sides {s : SymState T σ} {c : T.Expr} {r : ForkResult T σ} (h : ForkCases s c r) :
    (∀ t ∈ r.trueState, IsBranch s t {m | m ∈ T.models s.constraints ∧ T.Holds m c}) ∧
      ∀ f ∈ r.falseState, IsBranch s f {m | m ∈ T.models s.constraints ∧ ¬T.Holds m c} := by
  cases h with
  | both hr ht hf =>
    subst hr
    exact ⟨fun t h => Option.some.inj h ▸ ht, fun f h => Option.some.inj h ▸ hf⟩
  | terminated hr ht hf =>
    subst hr
    exact ⟨nofun, nofun⟩
  | onlyTrue hr ht hall =>
    subst hr
    have heq : T.models s.constraints = {m | m ∈ T.models s.constraints ∧ T.Holds m c} :=
      Set.ext fun m => ⟨fun hm => ⟨hm, hall m hm⟩, And.left⟩
    exact ⟨fun t h => Option.some.inj h ▸ heq ▸ ht, nofun⟩
  | onlyFalse hr hf hall =>
    subst hr
    have heq : T.models s.constraints = {m | m ∈ T.models s.constraints ∧ ¬T.Holds m c} :=
      Set.ext fun m => ⟨fun hm => ⟨hm, hall m hm⟩, And.left⟩
    exact ⟨nofun, fun f h => Option.some.inj h ▸ heq ▸ hf⟩

/-- The allocation functions of the host return aligned memory that no live object has. -/
structure HostAllocator.Documented (host : HostAllocator) : Prop where
  malloc_aligned : ∀ live size, 8 ∣ host.malloc live size
  malloc_fresh : ∀ live size, host.malloc live size ≠ 0 → ∀ o ∈ live, o.address ≠ host.malloc live size
  posixMemalign_aligned : ∀ live alignment size address, host.posixMemalign live alignment size = some address →
    alignment ∣ address
  posixMemalign_fresh : ∀ live alignment size address, host.posixMemalign live alignment size = some address →
    ∀ o ∈ live, o.address ≠ address

/-- The free slots of the preallocated space lie behind the objects in it, and the space is not too large. -/
structure MemoryManager.SlotsFree (opts : AllocatorOptions) (mm : MemoryManager) : Prop where
  redzone : opts.redzoneSize < 2 ^ 32
  space : mm.deterministicSpace + mm.spaceSize ≤ 2 ^ 61
  slot : mm.nextFreeSlot ≤ 2 ^ 62
  free : ∀ o ∈ mm.objects, o.address < mm.nextFreeSlot ∨ mm.deterministicSpace + mm.spaceSize ≤ o.address

theorem isPowerOf2_iff {n : Nat} : isPowerOf2 n = true ↔ n.isPowerOfTwo := by
  rw [← Nat.ne_zero_and_sub_one_eq_zero_iff_isPowerOfTwo, isPowerOf2, Bool.and_eq_true, decide_eq_true_iff,
    decide_eq_true_iff]

theorem dvd_alignTo (value align : Nat) : align ∣ alignTo value align := Nat.dvd_mul_left _ _

theorem le_alignTo {value align : Nat} (halign : 0 < align) (h : value + align - 1 < 2 ^ 64) :
    value ≤ alignTo value align ∧ alignTo value align ≤ value + align - 1 := by
  unfold alignTo
  rw [Nat.mod_eq_of_lt h]
  have hdiv := Nat.div_add_mod (value + align - 1) align
  have hlt := Nat.mod_lt (value + align - 1) halign
  rw [Nat.mul_comm] at hdiv
  omega

theorem alignTo_le {value align : Nat} (halign : align.isPowerOfTwo) (hlt : align < 2 ^ 64) :
    alignTo value align ≤ 2 ^ 64 - align := by
  obtain ⟨k, rfl⟩ := halign
  have hk : k < 64 := (Nat.pow_lt_pow_iff_right (by decide)).mp hlt
  obtain ⟨q, hq⟩ : 2 ^ k ∣ 2 ^ 64 := Nat.pow_dvd_pow 2 hk.le
  unfold alignTo
  have hmod : (value + 2 ^ k - 1) % 2 ^ 64 < 2 ^ k * q := hq ▸ Nat.mod_lt _ (Nat.two_pow_pos 64)
  have hdiv := Nat.div_lt_of_lt_mul hmod
  have hmul := Nat.mul_le_mul_right (2 ^ k) (Nat.le_sub_one_of_lt hdiv)
  rwa [Nat.sub_mul, Nat.one_mul, Nat.mul_comm q, ← hq] at hmul

namespace MemoryManager

variable {opts : AllocatorOptions} {host : HostAllocator} {mm mm' : MemoryManager} {size alignment : Nat}
  {mo : MemoryObject}

theorem objects_takeSlot : (mm.takeSlot opts size alignment).2.objects = mm.objects := by
  unfold takeSlot
  dsimp only
  split <;> rfl

theorem allocate_cases (h : mm.allocate opts host size alignment = (some mo, mm')) :
    isPowerOf2 alignment = true ∧ mo.address ≠ 0 ∧ mo.size = size % 2 ^ 32 ∧
      (opts.deterministicAllocation = true ∧ mo.address = (mm.takeSlot opts size alignment).1 ∧
          mm' = { (mm.takeSlot opts size alignment).2 with objects := mo :: mm.objects } ∨
        opts.deterministicAllocation = false ∧ mm' = { mm with objects := mo :: mm.objects } ∧
          (alignment ≤ 8 ∧ mo.address = host.malloc mm.objects size ∨
            host.posixMemalign mm.objects alignment size = some mo.address)) := by
  unfold allocate at h
  split at h
  · cases h
  · split at h
    · cases h
    · rename_i hpower
      rw [Bool.not_eq_true, Bool.not_eq_false'] at hpower
      cases hdet : opts.deterministicAllocation with
      | true =>
        rw [hdet, if_pos rfl] at h
        dsimp only at h
        split at h
        · cases h
        · rename_i hne
          rw [Prod.mk.injEq, Option.some.injEq] at h
          obtain ⟨rfl, rfl⟩ := h
          refine ⟨hpower, hne, rfl, Or.inl ⟨rfl, rfl, ?_⟩⟩
          rw [objects_takeSlot]
      | false =>
        rw [hdet, if_neg Bool.false_ne_true] at h
        by_cases hsmall : alignment ≤ 8
        · rw [if_pos hsmall] at h
          dsimp only at h
          split at h
          · cases h
          · rename_i hne
            rw [Prod.mk.injEq, Option.some.injEq] at h
            obtain ⟨rfl, rfl⟩ := h
            exact ⟨hpower, hne, rfl, Or.inr ⟨rfl, rfl, Or.inl ⟨hsmall, rfl⟩⟩⟩
        · rw [if_neg hsmall] at h
          dsimp only at h
          split at h
          · cases h
          · rename_i hne
            rw [Prod.mk.injEq, Option.some.injEq] at h
            obtain ⟨rfl, rfl⟩ := h
            refine ⟨hpower, hne, rfl, Or.inr ⟨rfl, rfl, Or.inr ?_⟩⟩
            cases hmemalign : host.posixMemalign mm.objects alignment size with
            | none =>
              rw [hmemalign] at hne
              exact absurd rfl hne
            | some address => rfl

theorem allocate_aligned (hhost : host.Documented)
    (h : mm.allocate opts host size alignment = (some mo, mm')) : alignment ∣ mo.address := by
  obtain ⟨hpower, -, -, ⟨-, haddress, -⟩ | ⟨-, -, ⟨hsmall, haddress⟩ | haddress⟩⟩ := allocate_cases h
  · rw [haddress]
    unfold takeSlot
    dsimp only
    split
    · exact dvd_alignTo _ _
    · exact Nat.dvd_zero _
  · have height : alignment ∣ 8 := by
      obtain ⟨k, rfl⟩ := isPowerOf2_iff.mp hpower
      have hk : k ≤ 3 := (Nat.pow_le_pow_iff_right (by decide)).mp (hsmall.trans_eq (by decide : 8 = 2 ^ 3))
      exact Nat.pow_dvd_pow 2 hk
    rw [haddress]
    exact Nat.dvd_trans height (hhost.malloc_aligned _ _)
  · exact hhost.posixMemalign_aligned _ _ _ _ haddress

theorem allocate_none (h : mm.allocate opts host size alignment = (none, mm')) :
    mm' = mm ∨ opts.deterministicAllocation = true ∧ isPowerOf2 alignment = true ∧
      (mm.takeSlot opts size alignment).1 = 0 ∧ mm' = (mm.takeSlot opts size alignment).2 := by
  unfold allocate at h
  split at h
  · cases h
    exact Or.inl rfl
  · split at h
    · cases h
      exact Or.inl rfl
    · rename_i hpower
      rw [Bool.not_eq_true, Bool.not_eq_false'] at hpower
      cases hdet : opts.deterministicAllocation with
      | true =>
        rw [hdet, if_pos rfl] at h
        dsimp only at h
        split at h
        · rename_i hzero
          cases h
          exact Or.inr ⟨rfl, hpower, hzero, rfl⟩
        · cases h
      | false =>
        rw [hdet, if_neg Bool.false_ne_true] at h
        by_cases hsmall : alignment ≤ 8
        · rw [if_pos hsmall] at h
          dsimp only at h
          split at h <;> cases h
          exact Or.inl rfl
        · rw [if_neg hsmall] at h
          dsimp only at h
          split at h <;> cases h
          exact Or.inl rfl

theorem objects_allocate {r : Option MemoryObject} (h : mm.allocate opts host size alignment = (r, mm')) :
    mm.objects ⊆ mm'.objects := by
  cases r with
  | some mo =>
    obtain ⟨-, -, -, ⟨-, -, rfl⟩ | ⟨-, rfl, -⟩⟩ := allocate_cases h
    · exact List.subset_cons_self _ _
    · exact List.subset_cons_self _ _
  | none =>
    rcases allocate_none h with rfl | ⟨-, -, -, rfl⟩
    · exact List.Subset.refl _
    · rw [objects_takeSlot]
      exact List.Subset.refl _

/-- The slot lies between the next free one and the end, and before the next one. -/
def TakesSlot (mm : MemoryManager) (r : Nat × MemoryManager) : Prop :=
  mm.nextFreeSlot ≤ r.1 ∧ r.1 < r.2.nextFreeSlot ∧ r.2.nextFreeSlot ≤ 2 ^ 62 ∧
    r.1 < mm.deterministicSpace + mm.spaceSize ∧ r.2.objects = mm.objects ∧
    r.2.deterministicSpace + r.2.spaceSize = mm.deterministicSpace + mm.spaceSize

theorem takeSlot_cases (h : mm.SlotsFree opts) (hsize : size < 2 ^ 32) (hpos : 0 < alignment)
    (halign : alignment ≤ 2 ^ 62) :
    mm.takeSlot opts size alignment = (0, mm) ∨ mm.TakesSlot (mm.takeSlot opts size alignment) := by
  obtain ⟨hredzone, hspace, hslot, -⟩ := h
  unfold takeSlot TakesSlot
  have hvalue : (mm.nextFreeSlot + alignment - 1) % 2 ^ 64 = mm.nextFreeSlot + alignment - 1 :=
    Nat.mod_eq_of_lt (by omega)
  have haddress : mm.nextFreeSlot + alignment - 1 ≤ alignTo (mm.nextFreeSlot + alignment - 1) alignment ∧
      alignTo (mm.nextFreeSlot + alignment - 1) alignment ≤ mm.nextFreeSlot + alignment - 1 + alignment - 1 :=
    le_alignTo hpos (by omega)
  rw [hvalue]
  generalize alignTo (mm.nextFreeSlot + alignment - 1) alignment = address at haddress
  dsimp only
  split
  · rename_i hroom
    dsimp only
    refine Or.inr ⟨by omega, by omega, by omega, by omega, rfl, rfl⟩
  · exact Or.inl rfl

theorem takeSlot_eq_zero (h : mm.SlotsFree opts) (hsize : size < 2 ^ 32) (hpower : alignment.isPowerOfTwo)
    (hbig : 2 ^ 62 < alignment) (halign : alignment < 2 ^ 64) : (mm.takeSlot opts size alignment).1 = 0 := by
  have hspace := h.space
  unfold takeSlot
  extract_lets address allocSize
  have hle : address ≤ 2 ^ 64 - alignment := alignTo_le hpower halign
  obtain ⟨q, hq⟩ : alignment ∣ address := dvd_alignTo _ _
  split
  · rename_i hroom
    have hzero : q = 0 := by
      by_contra hq0
      have := Nat.le_mul_of_pos_right alignment (Nat.pos_of_ne_zero hq0)
      omega
    rw [hzero, Nat.mul_zero] at hq
    exact hq
  · rfl

theorem allocate_fresh (hhost : host.Documented) (h : mm.allocate opts host size alignment = (some mo, mm'))
    (hslots : opts.deterministicAllocation = true → mm.SlotsFree opts ∧ size < 2 ^ 32 ∧ alignment < 2 ^ 64) :
    ∀ o ∈ mm.objects, o.address ≠ mo.address := by
  obtain ⟨hpower, hne, -, ⟨hdet, haddress, -⟩ | ⟨-, -, ⟨-, haddress⟩ | haddress⟩⟩ := allocate_cases h
  · obtain ⟨hfree, hsize, halign⟩ := hslots hdet
    have hpower' := isPowerOf2_iff.mp hpower
    rw [haddress] at hne ⊢
    by_cases hbig : alignment ≤ 2 ^ 62
    · rcases takeSlot_cases hfree hsize (Nat.pos_of_isPowerOfTwo hpower') hbig with hnone | htakes
      · rw [hnone] at hne
        exact absurd rfl hne
      · intro o ho
        have := hfree.free o ho
        have := htakes.1
        have := htakes.2.2.2.1
        omega
    · exact absurd (takeSlot_eq_zero hfree hsize hpower' (by omega) halign) hne
  · rw [haddress] at hne ⊢
    exact hhost.malloc_fresh _ _ hne
  · exact hhost.posixMemalign_fresh _ _ _ _ haddress

theorem SlotsFree.allocate {r : Option MemoryObject} (hslots : mm.SlotsFree opts) (hsize : size < 2 ^ 32)
    (halign : alignment ≤ 2 ^ 62) (h : mm.allocate opts host size alignment = (r, mm'))
    (hdet : opts.deterministicAllocation = true) : mm'.SlotsFree opts := by
  -- the objects that were there, when a slot has been taken
  have hold : mm.TakesSlot (mm.takeSlot opts size alignment) → ∀ o ∈ mm.objects,
      o.address < (mm.takeSlot opts size alignment).2.nextFreeSlot ∨
        mm.deterministicSpace + mm.spaceSize ≤ o.address := by
    intro htakes o ho
    have := hslots.free o ho
    have := htakes.1
    have := htakes.2.1
    omega
  cases r with
  | none =>
    rcases allocate_none h with rfl | ⟨-, hpower, hzero, rfl⟩
    · exact hslots
    · have hpos := Nat.pos_of_isPowerOfTwo (isPowerOf2_iff.mp hpower)
      rcases takeSlot_cases hslots hsize hpos halign with hnone | htakes
      · rw [hnone]
        exact hslots
      · have hall := hold htakes
        obtain ⟨-, -, hslot, -, hobjects, hend⟩ := htakes
        exact ⟨hslots.redzone, hend ▸ hslots.space, hslot, hobjects ▸ hend ▸ hall⟩
  | some mo =>
    obtain ⟨hpower, hne, -, ⟨-, haddress, rfl⟩ | ⟨hhost, -⟩⟩ := allocate_cases h
    · have hpos := Nat.pos_of_isPowerOfTwo (isPowerOf2_iff.mp hpower)
      rcases takeSlot_cases hslots hsize hpos halign with hnone | htakes
      · rw [haddress, hnone] at hne
        exact absurd rfl hne
      · have hall := hold htakes
        obtain ⟨-, hlt, hslot, -, hobjects, hend⟩ := htakes
        refine ⟨hslots.redzone, hend ▸ hslots.space, hslot, ?_⟩
        dsimp only
        rw [hend]
        exact List.forall_mem_cons.mpr ⟨Or.inl (haddress ▸ hlt), hall⟩
    · rw [hdet] at hhost
      cases hhost

end MemoryManager

theorem store_byte (littleEndian : Bool) (bytes : List Nat) (offset : Nat) {value : Nat} (h : value < 256) :
    store littleEndian bytes offset 8 value = bytes.set offset value := by
  unfold store
  rw [if_neg (by decide)]
  cases littleEndian <;> simp [writeWord, byteIndex, byteOf, Nat.mod_eq_of_lt h]

namespace Allocator

variable {S : Allocator T A} {mm mm' : MemoryManager} {state t : AllocState A} {req : AllocRequest A}
  {mo : MemoryObject} {old os : ObjectState A} {size : T.Expr} {value : Nat}

theorem copyBytes_spec (S : Allocator T A) (hold : old.Coherent) (hos : os.Coherent) {count : Nat}
    (hcount : count ≤ old.size) : ∃ old' os', S.copyBytes old os count = some (old', os') ∧ old.Reads old' ∧
      os.Keeps os' ∧ ∀ m i, i < os.size →
        (os'.bytes m).getD i 0 = if i < count then (old.bytes m).getD i 0 else (os.bytes m).getD i 0 := by
  induction count with
  | zero => exact ⟨old, os, rfl, ⟨.refl hold, fun _ => rfl⟩, .refl hos, fun m i _ => rfl⟩
  | succ count ih =>
    obtain ⟨old₁, os₁, h₁, hreads₁, hkeeps₁, hbytes₁⟩ := ih (by omega)
    have hlt : count < old₁.size := by
      rw [hreads₁.size]
      omega
    obtain ⟨e, old₂, h₂, hreads₂, hwidth, heval⟩ := ObjectState.read8_spec hreads₁.coherent hlt
    have hsized : ByteSized (T.width e) := Or.inr ⟨1, Nat.one_pos, hwidth⟩
    obtain ⟨os₂, h₃, hkeeps₂, hbytes₂⟩ := ObjectState.writeAt_spec S.ctx hkeeps₁.coherent count hsized
    refine ⟨old₂, os₂, ?_, hreads₁.trans hreads₂, hkeeps₁.trans hkeeps₂, fun m i hi => ?_⟩
    · unfold copyBytes
      rw [h₁]
      dsimp only [Option.bind_eq_bind, Option.bind_some]
      rw [h₂]
      dsimp only [Option.bind_eq_bind, Option.bind_some]
      rw [h₃]
      rfl
    · have hbyte : T.eval m e < 256 := by
        have h := T.eval_lt m e
        rwa [hwidth] at h
      rw [hbytes₂, hwidth, store_byte _ _ _ hbyte]
      by_cases hic : i = count
      · subst hic
        have hlen : i < (os₁.bytes m).length := by rwa [ObjectState.length_bytes, hkeeps₁.size]
        rw [if_pos (Nat.lt_succ_self i), List.getD_eq_getElem?_getD, List.getElem?_set_self hlen, Option.getD_some,
          heval, hreads₁.bytes]
      · have hiff : i < count + 1 ↔ i < count := by omega
        rw [List.getD_eq_getElem?_getD, List.getElem?_set_ne (Ne.symm hic), ← List.getD_eq_getElem?_getD,
          hbytes₁ m i hi]
        simp only [hiff]

/-- The byte of a new object: that of the old one if there is one, else the fill. -/
def newByte (req : AllocRequest A) (m : T.Model) (i : Nat) : Nat :=
  let fill := if req.zeroMemory then 0 else 0xAB
  match req.reallocFrom with
  | none => fill
  | some (_, old) => if i < old.size then (old.bytes m).getD i 0 else fill

theorem newObjectState_spec (S : Allocator T A) (hsize : mo.size < 2 ^ 32)
    (hold : ∀ old ∈ req.reallocFrom, old.2.Coherent) : ∃ os, S.newObjectState mo req = some os ∧ os.Coherent ∧
      os.size = mo.size ∧ ∀ m i, i < mo.size → (os.bytes m).getD i 0 = newByte req m i := by
  have hcoherent : (ObjectState.ofSize (A := A) mo.size ((S.updatesArray mo.size).map (·.1))).Coherent := by
    refine ObjectState.ofSize_coherent hsize ?_
    intro a ha
    obtain ⟨array, -, rfl⟩ := Option.map_eq_some_iff.mp ha
    exact array.2
  unfold newObjectState newByte
  extract_lets new filled fill
  have hnew : new.size = mo.size := rfl
  have hfilled : new.Keeps filled ∧ ∀ m i, i < mo.size → (filled.bytes m).getD i 0 = fill := by
    have hreplicate : ∀ (n i : Nat), i < mo.size → (List.replicate new.size n).getD i 0 = n := by
      intro n i hi
      rw [List.getD_eq_getElem?_getD, List.getElem?_replicate_of_lt (by omega)]
      rfl
    unfold filled fill
    cases req.zeroMemory with
    | true =>
      obtain ⟨hkeeps, hbytes⟩ := ObjectState.initializeToZero_spec hcoherent
      exact ⟨hkeeps, fun m i hi => hbytes m ▸ hreplicate 0 i hi⟩
    | false =>
      obtain ⟨hkeeps, hbytes⟩ := ObjectState.initializeToRandom_spec hcoherent
      exact ⟨hkeeps, fun m i hi => hbytes m ▸ hreplicate 0xAB i hi⟩
  obtain ⟨hkeeps, hbytes⟩ := hfilled
  cases hfrom : req.reallocFrom with
  | none => exact ⟨filled, rfl, hkeeps.coherent, hkeeps.size, hbytes⟩
  | some p =>
    obtain ⟨source, old⟩ := p
    obtain ⟨old', os, hcopy, -, hkeeps', hbytes'⟩ :=
      copyBytes_spec S (hold _ hfrom) hkeeps.coherent (Nat.min_le_left old.size filled.size)
    refine ⟨os, ?_, hkeeps'.coherent, hkeeps'.size.trans hkeeps.size, fun m i hi => ?_⟩
    · dsimp only
      rw [hcopy]
      rfl
    · have hi' : i < filled.size := by rwa [hkeeps.size]
      have hiff : i < min old.size filled.size ↔ i < old.size := by omega
      rw [hbytes' m i hi', hbytes m i hi]
      simp only [hiff]

/-- The target is bound to an object that was not there, which has the bytes that were asked for; the old object of a
`realloc` is not there any more. -/
structure NewObject (S : Allocator T A) (s t : AllocState A) (req : AllocRequest A) (mo : MemoryObject)
    (os : ObjectState A) : Prop where
  locals : t.data.locals = Function.update s.data.locals req.target (some (T.const mo.address S.ctx.pointerWidth))
  allocas : t.data.allocas = if req.isLocal then mo :: s.data.allocas else s.data.allocas
  coherent : os.Coherent
  size : os.size = mo.size
  bytes : ∀ m i, i < mo.size → (os.bytes m).getD i 0 = newByte req m i
  objects : ∀ op, op ∈ t.data.addressSpace.objects ↔
    (op = (mo, os) ∨ op ∈ s.data.addressSpace.objects ∧ op.1.address ≠ mo.address) ∧
      ∀ old ∈ req.reallocFrom, op.1.address ≠ old.1.address

theorem NewObject.unbound (h : NewObject S state t req mo os) {old : MemoryObject × ObjectState A}
    (hold : old ∈ req.reallocFrom) : t.data.addressSpace.findObject old.1 = none := by
  unfold AddressSpace.findObject
  rw [Option.map_eq_none_iff, List.find?_eq_none]
  intro op hop
  rw [decide_eq_true_iff]
  exact ((h.objects op).mp hop).2 old hold

theorem NewObject.bound (h : NewObject S state t req mo os)
    (hne : ∀ old ∈ req.reallocFrom, old.1.address ≠ mo.address) : t.data.addressSpace.findObject mo = some os :=
  findObject_of_mem ((h.objects (mo, os)).mpr ⟨Or.inl rfl, fun old hold => (hne old hold).symm⟩)

/-- The alignment that `executeAlloc` asks the memory manager for. -/
def alignmentFor (S : Allocator T A) (req : AllocRequest A) : Nat :=
  if req.allocationAlignment = 0 then S.allocationAlignment else req.allocationAlignment

theorem executeConstantAlloc_spec (S : Allocator T A) (mm : MemoryManager) (state : AllocState A) (value : Nat)
    (req : AllocRequest A) (hold : ∀ old ∈ req.reallocFrom, old.2.Coherent) :
    ∃ r mm' t, mm.allocate S.options S.host value (S.alignmentFor req) = (r, mm') ∧
      S.executeConstantAlloc mm state value req = some (mm', t) ∧ t.constraints = state.constraints ∧
      (r = none ∧ t = S.bindPointer state req.target 0 ∨
        ∃ mo os, r = some mo ∧ NewObject S state t req mo os ∧ mo.size = value % 2 ^ 32) := by
  cases hallocate : mm.allocate S.options S.host value (S.alignmentFor req) with
  | mk r mm' =>
    have hallocate' := hallocate
    unfold alignmentFor at hallocate'
    unfold executeConstantAlloc
    dsimp only
    rw [hallocate']
    cases r with
    | none => exact ⟨_, _, _, rfl, rfl, rfl, Or.inl ⟨rfl, rfl⟩⟩
    | some mo =>
      have hsize : mo.size = value % 2 ^ 32 := (MemoryManager.allocate_cases hallocate).2.2.1
      have hlt : mo.size < 2 ^ 32 := hsize ▸ Nat.mod_lt _ (Nat.two_pow_pos 32)
      obtain ⟨os, hos, hcoherent, hossize, hbytes⟩ := newObjectState_spec S hlt hold
      dsimp only
      rw [hos]
      refine ⟨_, _, _, rfl, rfl, rfl, Or.inr ⟨mo, os, rfl, ⟨rfl, rfl, hcoherent, hossize, hbytes, ?_⟩, hsize⟩⟩
      intro op
      have hreplace : op ∈ (state.data.addressSpace.replace (mo, os)).objects ↔
          op = (mo, os) ∨ op ∈ state.data.addressSpace.objects ∧ op.1.address ≠ mo.address :=
        mem_replaceEntry_iff state.data.addressSpace.sorted
      unfold bindPointer bindObject
      dsimp only
      rw [← hreplace]
      cases hfrom : req.reallocFrom with
      | none => exact ⟨fun h => ⟨h, nofun⟩, And.left⟩
      | some old =>
        have hremove : op ∈ ((state.data.addressSpace.replace (mo, os)).remove old.1).objects ↔
            op ∈ (state.data.addressSpace.replace (mo, os)).objects ∧ op.1.address ≠ old.1.address := by
          unfold AddressSpace.remove
          rw [List.mem_filter, decide_eq_true_iff]
        dsimp only [MemoryData.bindLocal]
        rw [hremove]
        exact and_congr_right fun _ => ⟨fun h _ heq => Option.some.inj heq ▸ h, fun h => h old rfl⟩

theorem toUnique_spec (hB : S.backend.Exact) {cs : List T.Expr} (hne : (T.models cs).Nonempty) (e : T.Expr) :
    (∃ v, T.constant? (S.toUnique cs e) = some v ∧ ∀ m ∈ T.models cs, T.eval m e = v) ∨
      S.toUnique cs e = e ∧ T.constant? e = none ∧ ¬∃ v, ∀ m ∈ T.models cs, T.eval m e = v := by
  unfold toUnique
  cases hconstant : T.constant? e with
  | some v => exact Or.inl ⟨v, hconstant, fun m _ => T.eval_of_constant? hconstant m⟩
  | none =>
    dsimp only
    obtain ⟨m₀, hm₀, heval₀⟩ := hB.getValue (e := e) hne
    have hlt := T.eval_lt m₀ e
    generalize S.backend.getValue cs e = value at heval₀
    rw [heval₀] at hlt
    have hmust := hB.mustBeTrue hne (T.width_eq e (T.const value (T.width e)))
    simp only [ExprTheory.holds_eq_const hlt] at hmust
    split
    · rename_i htrue
      refine Or.inl ⟨value, ?_, hmust.mp htrue⟩
      rw [T.constant?_const, Nat.mod_eq_of_lt hlt]
    · rename_i hfalse
      refine Or.inr ⟨rfl, rfl, ?_⟩
      rintro ⟨v, hv⟩
      refine hfalse (hmust.mpr fun m hm => ?_)
      rw [hv m hm, ← heval₀, hv m₀ hm₀]

theorem smallExample_feasible (hB : S.backend.Exact) {cs : List T.Expr} {e : T.Expr} (fuel : Nat) {start : Nat}
    (hstart : ∃ m ∈ T.models cs, T.eval m e = start) :
    ∃ m ∈ T.models cs, T.eval m e = S.smallExample cs e fuel start := by
  induction fuel generalizing start with
  | zero => exact hstart
  | succ fuel ih =>
    obtain ⟨m, hm, heval⟩ := hstart
    have hlt : start / 2 < 2 ^ T.width e := lt_of_le_of_lt (Nat.div_le_self _ _) (heval ▸ T.eval_lt m e)
    unfold smallExample
    dsimp only
    split
    · split
      · rename_i hmay
        obtain ⟨m', hm', hholds⟩ := (hB.mayBeTrue ⟨m, hm⟩ (T.width_eq _ _)).mp hmay
        exact ih ⟨m', hm', (ExprTheory.holds_const_eq hlt).mp hholds⟩
      · exact ⟨m, hm, heval⟩
    · exact ⟨m, hm, heval⟩

/-- The preallocated space, the alignments and the size are such that no address overflows. -/
structure Roomy (S : Allocator T A) (mm : MemoryManager) (s : AllocState A) (e : T.Expr) (req : AllocRequest A) :
    Prop where
  slots : S.options.deterministicAllocation = true → mm.SlotsFree S.options
  siteAlignment : S.allocationAlignment ≤ 2 ^ 62
  alignment : req.allocationAlignment < 2 ^ 64
  size : ∀ m ∈ T.models s.constraints, T.eval m e < 2 ^ 32

/-- The objects of a state live, and a `realloc` has one of them as source. -/
structure ValidRequest (mm : MemoryManager) (s : AllocState A) (req : AllocRequest A) : Prop where
  objects : ∀ op ∈ s.data.addressSpace.objects, op.2.Coherent ∧ op.1 ∈ mm.objects
  source : ∀ old ∈ req.reallocFrom, old ∈ s.data.addressSpace.objects

/-- A new object honours the request of the state `s` for the size `e`.  The size is kept in 32 bits, and a size that
has several values is allocated with the alignment of the allocation site. -/
structure Honours (S : Allocator T A) (mm : MemoryManager) (s : AllocState A) (e : T.Expr) (req : AllocRequest A)
    (t : AllocState A) (mo : MemoryObject) (os : ObjectState A) : Prop extends NewObject S s t req mo os where
  hasSize : ∀ m ∈ T.models t.constraints, T.eval m e < 2 ^ 32 → mo.size = T.eval m e
  siteAligned : req.allocationAlignment = 0 → S.allocationAlignment ∣ mo.address
  aligned : req.allocationAlignment ≠ 0 → (∃ v, ∀ m ∈ T.models s.constraints, T.eval m e = v) →
    req.allocationAlignment ∣ mo.address
  unbound : ∀ old ∈ req.reallocFrom, t.data.addressSpace.findObject old.1 = none
  bound : Roomy S mm s e req → t.data.addressSpace.findObject mo = some os ∧ ∀ o ∈ mm.objects, o.address ≠ mo.address

/-- A state that `executeAlloc` leaves has the target bound to null, or to an object that honours the request. -/
def Outcome (S : Allocator T A) (mm : MemoryManager) (s : AllocState A) (e : T.Expr) (req : AllocRequest A)
    (p : AllocState A × Option AllocReport) : Prop :=
  p.2 = none → p.1.data = (S.bindPointer s req.target 0).data ∨ ∃ mo os, Honours S mm s e req p.1 mo os

/-- What is left of the memory manager after some allocations. -/
structure Grown (S : Allocator T A) (mm : MemoryManager) (s : AllocState A) (e : T.Expr) (req : AllocRequest A)
    (mm' : MemoryManager) : Prop where
  objects : mm.objects ⊆ mm'.objects
  slots : Roomy S mm s e req → S.options.deterministicAllocation = true → mm'.SlotsFree S.options

theorem Grown.refl {s : AllocState A} {e : T.Expr} : Grown S mm s e req mm :=
  ⟨List.Subset.refl _, fun hroomy => hroomy.slots⟩

/-- The alignments that the branches of `executeAlloc` pass on: the requested one for a size with one value, and zero
in the recursive calls. -/
def PassedAlignment (s : AllocState A) (e : T.Expr) (req : AllocRequest A) (alignment : Nat) : Prop :=
  alignment = req.allocationAlignment ∨
    alignment = 0 ∧ ¬∃ v, ∀ m ∈ T.models s.constraints, T.eval m e = v

theorem executeConstantAlloc_outcome {mm₀ : MemoryManager} {s s' : AllocState A} {e : T.Expr} {alignment : Nat}
    (hhost : S.host.Documented) (hvalid : ValidRequest mm₀ s req) (hgrown : Grown S mm₀ s e req mm)
    (hdata : s'.data = s.data) (hne : (T.models s'.constraints).Nonempty)
    (hsub : ∀ m ∈ T.models s'.constraints, m ∈ T.models s.constraints)
    (hvalue : ∀ m ∈ T.models s'.constraints, T.eval m e = value) (halignment : PassedAlignment s e req alignment) :
    ∃ mm' t, S.executeConstantAlloc mm s' value { req with allocationAlignment := alignment } = some (mm', t) ∧
      t.constraints = s'.constraints ∧ Outcome S mm₀ s e req (t, none) ∧
      (alignment = 0 → Grown S mm₀ s e req mm') := by
  obtain ⟨m₀, hm₀⟩ := hne
  have hsource : ∀ old ∈ req.reallocFrom, old.2.Coherent ∧ old.1 ∈ mm.objects := by
    intro old hold
    have := hvalid.objects old (hvalid.source old hold)
    exact ⟨this.1, hgrown.objects this.2⟩
  obtain ⟨r, mm', t, hallocate, hexec, hconstraints, hresult⟩ :=
    executeConstantAlloc_spec S mm s' value { req with allocationAlignment := alignment }
      fun old hold => (hsource old hold).1
  have hsmall : Roomy S mm₀ s e req → value < 2 ^ 32 := by
    intro hroomy
    rw [← hvalue m₀ hm₀]
    exact hroomy.size m₀ (hsub m₀ hm₀)
  refine ⟨mm', t, hexec, hconstraints, fun _ => ?_, ?_⟩
  · rcases hresult with ⟨-, rfl⟩ | ⟨mo, os, rfl, hnew, hmosize⟩
    · left
      unfold bindPointer
      rw [hdata]
    · right
      have haligned : S.alignmentFor { req with allocationAlignment := alignment } ∣ mo.address :=
        MemoryManager.allocate_aligned hhost hallocate
      have hfresh : Roomy S mm₀ s e req → ∀ o ∈ mm.objects, o.address ≠ mo.address := by
        intro hroomy
        refine MemoryManager.allocate_fresh hhost hallocate fun hdet =>
          ⟨hgrown.slots hroomy hdet, hsmall hroomy, ?_⟩
        unfold alignmentFor
        have hsite := hroomy.siteAlignment
        have hrequested := hroomy.alignment
        rcases halignment with rfl | ⟨rfl, -⟩
        · split <;> omega
        · rw [if_pos rfl]
          omega
      refine ⟨mo, os, ⟨hdata ▸ hnew.locals, hdata ▸ hnew.allocas, hnew.coherent, hnew.size, hnew.bytes,
        hdata ▸ hnew.objects⟩, ?_, ?_, ?_, fun old hold => hnew.unbound hold, fun hroomy => ⟨?_, ?_⟩⟩
      · intro m hm hlt
        rw [hvalue m (hconstraints ▸ hm)] at hlt ⊢
        exact hmosize.trans (Nat.mod_eq_of_lt hlt)
      · intro hzero
        have hsite : alignment = 0 := halignment.elim (fun h => h.trans hzero) And.left
        unfold alignmentFor at haligned
        rwa [if_pos hsite] at haligned
      · intro hne hunique
        rcases halignment with rfl | ⟨-, hseveral⟩
        · unfold alignmentFor at haligned
          rwa [if_neg hne] at haligned
        · exact absurd hunique hseveral
      · exact hnew.bound fun old hold => hfresh hroomy old.1 (hsource old hold).2
      · exact fun o ho => hfresh hroomy o (hgrown.objects ho)
  · rintro rfl
    refine ⟨fun o ho => MemoryManager.objects_allocate hallocate (hgrown.objects ho), fun hroomy hdet => ?_⟩
    exact (hgrown.slots hroomy hdet).allocate (hsmall hroomy) hroomy.siteAlignment hallocate hdet

theorem shares_of_forkCases {s : AllocState A} {c : T.Expr} {r : ForkResult T (AllocData A)} (h : ForkCases s c r)
    {ts fs : List (AllocState A × Option AllocReport)}
    (ht : ∀ t ∈ r.trueState, SharesModels (T.models t.constraints) ts) (htnone : r.trueState = none → ts = [])
    (hf : ∀ f ∈ r.falseState, SharesModels (T.models f.constraints) fs) (hfnone : r.falseState = none → fs = []) :
    SharesModels (T.models s.constraints) (terminated r ++ ts ++ fs) ∧
      SharesModels (T.models s.constraints) (terminated r ++ fs ++ ts) := by
  have hsplit : ∀ m, m ∈ T.models s.constraints ↔ m ∈ {m | m ∈ T.models s.constraints ∧ T.Holds m c} ∨
      m ∈ {m | m ∈ T.models s.constraints ∧ ¬T.Holds m c} := by
    intro m
    by_cases hh : T.Holds m c
    · exact ⟨fun hm => Or.inl ⟨hm, hh⟩, fun hm => hm.elim And.left And.left⟩
    · exact ⟨fun hm => Or.inr ⟨hm, hh⟩, fun hm => hm.elim And.left And.left⟩
  have hapart : ∀ m, ¬(m ∈ {m | m ∈ T.models s.constraints ∧ T.Holds m c} ∧
      m ∈ {m | m ∈ T.models s.constraints ∧ ¬T.Holds m c}) := fun m hm => hm.2.2 hm.1.2
  cases h with
  | both hr htbranch hfbranch =>
    subst hr
    have ht' := ht _ rfl
    have hf' := hf _ rfl
    rw [htbranch.models] at ht'
    rw [hfbranch.models] at hf'
    exact ⟨ht'.append hf' hsplit hapart,
      hf'.append ht' (fun m => (hsplit m).trans or_comm) fun m hm => hapart m ⟨hm.2, hm.1⟩⟩
  | @terminated t f hr htbranch hfbranch =>
    subst hr
    rw [htnone rfl, hfnone rfl, List.append_nil, List.append_nil]
    have hshare := SharesModels.append (SharesModels.singleton (p := (t, some AllocReport.maxDepth)) htbranch.models)
      (SharesModels.singleton (p := (f, some AllocReport.maxDepth)) hfbranch.models) hsplit hapart
    exact ⟨hshare, hshare⟩
  | onlyTrue hr htbranch hall =>
    subst hr
    have ht' := ht _ rfl
    rw [htbranch.models] at ht'
    rw [hfnone rfl, List.append_nil, List.append_nil]
    exact ⟨ht', ht'⟩
  | onlyFalse hr hfbranch hall =>
    subst hr
    have hf' := hf _ rfl
    rw [hfbranch.models] at hf'
    rw [htnone rfl, List.append_nil, List.append_nil]
    exact ⟨hf', hf'⟩

/-- What a kind of state and of memory manager needs to be what `executeAlloc` leaves: an allocation of a size that the
expression has under all models of a part of the state, and null. -/
structure Allocates (S : Allocator T A) (s : AllocState A) (e : T.Expr) (req : AllocRequest A)
    (Q : AllocState A → Prop) (I : MemoryManager → Prop) : Prop where
  constant : ∀ {mm s' value alignment}, I mm → s'.data = s.data → (T.models s'.constraints).Nonempty →
    (∀ m ∈ T.models s'.constraints, m ∈ T.models s.constraints) → (∀ m ∈ T.models s'.constraints, T.eval m e = value) →
    PassedAlignment s e req alignment →
    ∃ mm' t, S.executeConstantAlloc mm s' value { req with allocationAlignment := alignment } = some (mm', t) ∧
      t.constraints = s'.constraints ∧ Q t ∧ (alignment = 0 → I mm')
  null : ∀ {s' : AllocState A}, s'.data = s.data → Q (S.bindPointer s' req.target 0)

section Branches

variable {s : AllocState A} {e : T.Expr} {Q : AllocState A → Prop} {I : MemoryManager → Prop}

theorem executeOtherSizes_spec (h : Allocates S s e req Q I) {f : AllocState A} {env : ForkEnv}
    (hB : S.backend.Exact) (hI : I mm) (hdata : f.data = s.data) (hne : (T.models f.constraints).Nonempty)
    (hsub : ∀ m ∈ T.models f.constraints, m ∈ T.models s.constraints)
    (hseveral : ¬∃ v, ∀ m ∈ T.models s.constraints, T.eval m e = v) (hpermitted : env.branchingPermitted f)
    (hstatic : env.staticLimitReached = false) (coin : Bool) :
    ∃ mm' results, S.executeOtherSizes env coin mm f e req = some (mm', results) ∧
      SharesModels (T.models f.constraints) results ∧ (∀ p ∈ results, p.2 = none → Q p.1) ∧ I mm' := by
  unfold executeOtherSizes
  dsimp only
  obtain ⟨m₀, hm₀, heval₀⟩ := hB.getValue (e := e) hne
  have hlt := T.eval_lt m₀ e
  generalize S.backend.getValue f.constraints e = tmp at heval₀
  rw [heval₀] at hlt
  split
  · rename_i hmust
    have hvalue : ∀ m ∈ T.models f.constraints, T.eval m e = tmp := by
      intro m hm
      have hholds := (hB.mustBeTrue hne (T.width_eq _ _)).mp hmust m hm
      exact (ExprTheory.holds_const_eq hlt).mp hholds
    obtain ⟨mm', t, hexec, hconstraints, hQ, hI'⟩ := h.constant hI hdata hne hsub hvalue (Or.inr ⟨rfl, hseveral⟩)
    rw [hexec]
    refine ⟨mm', _, rfl, SharesModels.singleton (by rw [hconstraints]), ?_, hI' rfl⟩
    exact fun p hp _ => List.mem_singleton.mp hp ▸ hQ
  · obtain ⟨r, hfork, hcases⟩ := fork_cases hB hpermitted hstatic hne
      (T.width_ult (T.const (2 ^ 31) (T.width e)) e) coin
    rw [hfork]
    obtain ⟨hsideTrue, hsideFalse⟩ := hcases.sides
    refine ⟨mm, _, rfl, ?_, ?_, hI⟩
    · refine (shares_of_forkCases hcases ?_ ?_ ?_ ?_).1
      · rintro t ht
        rw [Option.mem_def.mp ht]
        exact SharesModels.singleton rfl
      · intro hnone
        rw [hnone]
        rfl
      · rintro t ht
        rw [Option.mem_def.mp ht]
        exact SharesModels.singleton rfl
      · intro hnone
        rw [hnone]
        rfl
    · intro p hp
      rw [List.mem_append, List.mem_append] at hp
      rcases hp with (hp | hp) | hp
      · obtain ⟨t, -, rfl⟩ := List.mem_map.mp hp
        exact nofun
      · obtain ⟨t, ht, rfl⟩ := List.mem_map.mp hp
        exact fun _ => h.null ((hsideTrue t (Option.mem_toList.mp ht)).data.trans hdata)
      · obtain ⟨t, -, rfl⟩ := List.mem_map.mp hp
        exact nofun

/-- As long as branching is permitted, `executeAlloc` shares out the models of the state.  Without `MaxDepth` a state is
left, one with the example if the size has several values. -/
theorem executeAlloc_spec (h : Allocates S s e req Q I) {env : Nat → ForkEnv} (hB : S.backend.Exact) (hI : I mm)
    (hs : (T.models s.constraints).Nonempty)
    (henv : ∀ i < 2, (env i).branchingPermitted s ∧ (env i).staticLimitReached = false) (coin : Nat → Bool) :
    ∃ mm' results, S.executeAlloc env coin mm s e req = some (mm', results) ∧
      SharesModels (T.models s.constraints) results ∧ (∀ p ∈ results, p.2 = none → Q p.1) ∧
      (req.allocationAlignment = 0 → I mm') ∧
      ((env 0).maxDepth = 0 → ∃ p ∈ results, p.2 = none ∧ (T.models p.1.constraints).Nonempty) := by
  unfold executeAlloc
  dsimp only
  rcases toUnique_spec hB hs e with ⟨v, hconstant, hvalue⟩ | ⟨hsame, hconstant, hseveral⟩
  · obtain ⟨mm', t, hexec, hconstraints, hQ, hI'⟩ := h.constant hI rfl hs (fun _ => id) hvalue (Or.inl rfl)
    rw [hconstant]
    dsimp only
    rw [hexec]
    refine ⟨mm', _, rfl, SharesModels.singleton (by rw [hconstraints]), ?_, hI', fun _ => ?_⟩
    · exact fun p hp _ => List.mem_singleton.mp hp ▸ hQ
    · refine ⟨(t, none), List.mem_singleton.mpr rfl, rfl, ?_⟩
      rw [hconstraints]
      exact hs
  · rw [hsame, hconstant]
    dsimp only
    obtain ⟨m₀, hm₀, heval₀⟩ := smallExample_feasible hB (T.width e) (hB.getValue (e := e) hs)
    have hlt := T.eval_lt m₀ e
    generalize S.smallExample s.constraints e (T.width e) (S.backend.getValue s.constraints e) = value at heval₀
    rw [heval₀] at hlt
    obtain ⟨r, hfork, hcases⟩ := fork_cases hB (henv 0 Nat.two_pos).1 (henv 0 Nat.two_pos).2 hs
      (T.width_eq (T.const value (T.width e)) e) (coin 0)
    have htrueState : (env 0).maxDepth = 0 → r.trueState ≠ none := by
      intro hdepth hnone
      obtain ⟨r', hfork', hforked⟩ := fork_forked hB ⟨(henv 0 Nat.two_pos).1, (henv 0 Nat.two_pos).2, Or.inl hdepth⟩ hs
        (T.width_eq (T.const value (T.width e)) e) (coin 0)
      obtain rfl := Option.some.inj (hfork.symm.trans hfork')
      have hmem : m₀ ∈ modelsOf r.trueState :=
        hforked.trueModels ▸ ⟨hm₀, (ExprTheory.holds_const_eq hlt).mpr heval₀⟩
      rw [hnone] at hmem
      exact hmem
    rw [hfork]
    obtain ⟨hsideTrue, hsideFalse⟩ := hcases.sides
    dsimp only [Option.bind_eq_bind, Option.bind_some]
    -- the side of the other sizes, if there is one
    have hothers : ∃ mm' others,
        r.falseState.elim (some (mm, [])) (S.executeOtherSizes (env 1) (coin 1) mm · e req) = some (mm', others) ∧
        (∀ f ∈ r.falseState, SharesModels (T.models f.constraints) others) ∧ (r.falseState = none → others = []) ∧
        (∀ p ∈ others, p.2 = none → Q p.1) ∧ I mm' := by
      cases hfalse : r.falseState with
      | none => exact ⟨mm, [], rfl, nofun, fun _ => rfl, nofun, hI⟩
      | some f =>
        have hside := hsideFalse f hfalse
        have hpermitted : (env 1).branchingPermitted f := by
          have h := (henv 1 Nat.one_lt_two).1
          unfold ForkEnv.branchingPermitted at h ⊢
          rwa [hside.forkDisabled]
        have hne : (T.models f.constraints).Nonempty := hside.models ▸ hside.nonempty
        have hsub : ∀ m ∈ T.models f.constraints, m ∈ T.models s.constraints := by
          intro m hm
          rw [hside.models] at hm
          exact hm.1
        obtain ⟨mm', others, hexec, hshares, hQ, hI'⟩ := executeOtherSizes_spec h hB hI
          hside.data hne hsub hseveral hpermitted (henv 1 Nat.one_lt_two).2 (coin 1)
        exact ⟨mm', others, hexec, fun f' hf' => Option.some.inj hf' ▸ hshares, nofun, hQ, hI'⟩
    obtain ⟨mm₁, others, hexec, hshares, hothersNone, hothersQ, hI₁⟩ := hothers
    rw [hexec]
    dsimp only [Option.bind_some]
    have hterminated : ∀ p ∈ terminated r, p.2 = none → Q p.1 := by
      intro p hp
      obtain ⟨t, -, rfl⟩ := List.mem_map.mp hp
      exact nofun
    cases htrue : r.trueState with
    | none =>
      refine ⟨mm₁, _, rfl, ?_, ?_, fun _ => hI₁, fun hdepth => absurd htrue (htrueState hdepth)⟩
      · have hnil : ∀ t ∈ r.trueState, SharesModels (T.models t.constraints)
            ([] : List (AllocState A × Option AllocReport)) := by
          rw [htrue]
          exact nofun
        have h := (shares_of_forkCases hcases hnil (fun _ => rfl) hshares hothersNone).2
        rwa [List.append_nil] at h
      · exact fun p hp => (List.mem_append.mp hp).elim (hterminated p) (hothersQ p)
    | some t =>
      have hside := hsideTrue t htrue
      have hne : (T.models t.constraints).Nonempty := hside.models ▸ hside.nonempty
      have hmem : ∀ m ∈ T.models t.constraints, m ∈ T.models s.constraints ∧ T.eval m e = value := by
        intro m hm
        rw [hside.models] at hm
        exact ⟨hm.1, (ExprTheory.holds_const_eq hlt).mp hm.2⟩
      obtain ⟨mm₂, t', hexec', hconstraints, hQ, hI₂⟩ := h.constant hI₁ hside.data hne (fun m hm => (hmem m hm).1)
        (fun m hm => (hmem m hm).2) (Or.inr ⟨rfl, hseveral⟩)
      dsimp only
      rw [hexec']
      refine ⟨mm₂, _, rfl, ?_, ?_, fun _ => hI₂ rfl, fun _ => ?_⟩
      · refine (shares_of_forkCases hcases ?_ (fun hnone => ?_) hshares hothersNone).2
        · intro t'' ht''
          obtain rfl := Option.some.inj (htrue.symm.trans ht'')
          exact SharesModels.singleton (by rw [hconstraints])
        · rw [htrue] at hnone
          cases hnone
      · intro p hp
        rw [List.mem_append, List.mem_append] at hp
        rcases hp with (hp | hp) | hp
        · exact hterminated p hp
        · exact hothersQ p hp
        · exact fun _ => List.mem_singleton.mp hp ▸ hQ
      · refine ⟨(t', none), List.mem_append_right _ (List.mem_singleton.mpr rfl), rfl, ?_⟩
        rw [hconstraints]
        exact hne

end Branches

/-- As long as branching is permitted, `executeAlloc` shares out the models of the state among the states that it
leaves and those that it terminates, and each state that it leaves has null or an object that honours the request. -/
theorem executeAlloc_honours {s : AllocState A} {env : Nat → ForkEnv} (hB : S.backend.Exact)
    (hhost : S.host.Documented) (hs : (T.models s.constraints).Nonempty) (hvalid : ValidRequest mm s req)
    (henv : ∀ i < 2, (env i).branchingPermitted s ∧ (env i).staticLimitReached = false) (coin : Nat → Bool)
    (e : T.Expr) :
    ∃ mm' results, S.executeAlloc env coin mm s e req = some (mm', results) ∧
      SharesModels (T.models s.constraints) results ∧ ∀ p ∈ results, Outcome S mm s e req p := by
  have hallocates : Allocates S s e req (fun t => Outcome S mm s e req (t, none)) (Grown S mm s e req) := by
    constructor
    · intro mm' s' value alignment hgrown hdata hne hsub hvalue halignment
      exact executeConstantAlloc_outcome hhost hvalid hgrown hdata hne hsub hvalue halignment
    · intro s' hdata _
      left
      unfold bindPointer
      rw [hdata]
  obtain ⟨mm', results, hexec, hshares, houtcome, -⟩ := executeAlloc_spec hallocates hB .refl hs henv coin
  refine ⟨mm', results, hexec, hshares, fun p hp hnone => ?_⟩
  exact houtcome p hp hnone rfl

end Allocator

/-- A host that puts an object above the live ones. -/
def bumpHost : HostAllocator where
  malloc live _ := 8 * ((live.map (·.address)).sum + 1)
  posixMemalign live alignment _ :=
    if isPowerOf2 alignment then some (alignment * ((live.map (·.address)).sum + 1)) else none

theorem bumpHost_documented : bumpHost.Documented := by
  have hle : ∀ (live : List MemoryObject), ∀ o ∈ live, o.address ≤ (live.map (·.address)).sum :=
    fun live o ho => List.le_sum_of_mem (List.mem_map_of_mem ho)
  refine ⟨fun live size => Nat.dvd_mul_right _ _, fun live size _ o ho => ?_, fun live alignment size address h => ?_,
    fun live alignment size address h o ho => ?_⟩
  · have := hle live o ho
    unfold bumpHost
    dsimp only
    omega
  · unfold bumpHost at h
    dsimp only at h
    split at h
    · exact Option.some.inj h ▸ Nat.dvd_mul_right _ _
    · cases h
  · unfold bumpHost at h
    dsimp only at h
    split at h
    · rename_i hpower
      have hpos := Nat.pos_of_isPowerOfTwo (isPowerOf2_iff.mp hpower)
      have := hle live o ho
      have := Nat.le_mul_of_pos_left ((live.map (·.address)).sum + 1) hpos
      have := Option.some.inj h
      omega
    · cases h

/-- An allocator for a target with 64 bits, whose allocation sites have the alignment 8. -/
def allocator64 : Allocator (shallow 1) (shallowArrays 1) where
  ctx := target64
  backend := shallowBackend 1
  options := {}
  host := bumpHost
  allocationAlignment := 8
  updatesArray _ := none

def allocState (addressSpace : AddressSpace (ObjectState (shallowArrays 1))) : AllocState (shallowArrays 1) where
  constraints := []
  depth := 0
  forkDisabled := false
  data := { addressSpace, locals := fun _ => none, allocas := [] }

theorem allocState_nonempty {addressSpace : AddressSpace (ObjectState (shallowArrays 1))} :
    ((shallow 1).models (allocState addressSpace).constraints).Nonempty :=
  ⟨(0 : Fin 2), fun _ h => nomatch h⟩

def eitherSize : (shallow 1).Expr := ⟨64, fun m => BitVec.ofNat 64 (16 + 8 * m)⟩

def reallocByte : AllocRequest (shallowArrays 1) :=
  { isLocal := false, target := 0, zeroMemory := true, reallocFrom := some (⟨8, 1⟩, .ofSize 1 none) }

theorem executeAlloc_honours_reallocByte :
    ∃ mm' results, allocator64.executeAlloc (fun _ => {}) (fun _ => true) ⟨[⟨8, 1⟩], 0, 0, 0⟩
        (allocState oneByte.data.addressSpace) eitherSize reallocByte = some (mm', results) ∧
      SharesModels ((shallow 1).models (allocState oneByte.data.addressSpace).constraints) results ∧
      ∀ p ∈ results, allocator64.Outcome ⟨[⟨8, 1⟩], 0, 0, 0⟩ (allocState oneByte.data.addressSpace) eitherSize
        reallocByte p :=
  Allocator.executeAlloc_honours (S := allocator64) (shallowBackend_exact 1) bumpHost_documented allocState_nonempty
    ⟨fun _ hop => List.mem_singleton.mp hop ▸ ⟨ObjectState.ofSize_coherent (by decide) nofun, List.mem_singleton_self _⟩,
      fun _ hold => Option.some.inj hold ▸ List.mem_singleton_self _⟩
    (fun _ _ => ⟨rfl, by decide⟩) (fun _ => true) eitherSize

/-- The state has null, or an object of the size and with the alignment that were asked for. -/
def HonoursExactly (e : (shallow 1).Expr) (req : AllocRequest (shallowArrays 1)) (t : AllocState (shallowArrays 1)) :
    Prop :=
  t.data = (allocator64.bindPointer (allocState ⟨[], by simp⟩) req.target 0).data ∨
    ∃ mo os, allocator64.NewObject (allocState ⟨[], by simp⟩) t req mo os ∧
      (∀ m ∈ (shallow 1).models t.constraints, mo.size = (shallow 1).eval m e) ∧
      (req.allocationAlignment ≠ 0 → req.allocationAlignment ∣ mo.address)

def firstAlloc (env : ForkEnv) (e : (shallow 1).Expr) (req : AllocRequest (shallowArrays 1)) :
    Option (MemoryManager × List (AllocState (shallowArrays 1) × Option AllocReport)) :=
  allocator64.executeAlloc (fun _ => env) (fun _ => true) ⟨[], 0, 0, 0⟩ (allocState ⟨[], by simp⟩) e req

def HonoursAllocation (env : ForkEnv) (e : (shallow 1).Expr) (req : AllocRequest (shallowArrays 1)) : Prop :=
  ∃ mm' results, firstAlloc env e req = some (mm', results) ∧ SharesModels ((shallow 1).models []) results ∧
    ∀ p ∈ results, p.2 = none → HonoursExactly e req p.1

private theorem HonoursExactly.of_object {e : (shallow 1).Expr} {req : AllocRequest (shallowArrays 1)}
    {t : AllocState (shallowArrays 1)} {mo : MemoryObject} (h : HonoursExactly e req t)
    (hfrom : req.reallocFrom = none) (hobject : t.data.addressSpace.objects.map (·.1) = [mo]) :
    (∀ m ∈ (shallow 1).models t.constraints, mo.size = (shallow 1).eval m e) ∧
      (req.allocationAlignment ≠ 0 → req.allocationAlignment ∣ mo.address) := by
  rcases h with hnull | ⟨mo', os, hnew, hsize, halign⟩
  · rw [hnull] at hobject
    cases hobject
  · have hmem : (mo', os) ∈ t.data.addressSpace.objects :=
      (hnew.objects _).mpr ⟨Or.inl rfl, fun old hold => by rw [hfrom] at hold; cases hold⟩
    have hmem' := List.mem_map_of_mem (f := (·.1)) hmem
    rw [hobject] at hmem'
    rw [← List.mem_singleton.mp hmem']
    exact ⟨hsize, halign⟩

/-- Inputs are lost where branching is not permitted, a size that has two values loses the alignment that was asked
for, and the size of an object has 32 bits only. -/
theorem not_honoursAllocation :
    ¬HonoursAllocation { inhibitForking := true } eitherSize { isLocal := false, target := 0 } ∧
    ¬HonoursAllocation {} eitherSize { isLocal := false, target := 0, allocationAlignment := 64 } ∧
    ¬HonoursAllocation {} ((shallow 1).const (2 ^ 32) 64) { isLocal := false, target := 0 } := by
  refine ⟨?_, ?_, ?_⟩
  · rintro ⟨mm', results, hr, hshares, -⟩
    have hlost : (firstAlloc { inhibitForking := true } eitherSize { isLocal := false, target := 0 }).map
        (·.2.any fun p => satisfies (1 : Fin 2) p.1.constraints) = some false := by decide
    obtain ⟨p, hp, hm⟩ := (hshares.cover (1 : Fin 2)).mp fun _ h => nomatch h
    rw [hr, Option.map_some, Option.some.injEq, List.any_eq_false] at hlost
    exact hlost p hp (satisfies_iff.2 hm)
  · rintro ⟨mm', results, hr, -, hall⟩
    have hunaligned : (firstAlloc {} eitherSize { isLocal := false, target := 0, allocationAlignment := 64 }).map
        (·.2.any fun p => p.2 = none ∧ p.1.data.addressSpace.objects.map (·.1) = [⟨8, 24⟩]) = some true := by
      decide
    rw [hr, Option.map_some, Option.some.injEq, List.any_eq_true] at hunaligned
    obtain ⟨p, hp, hleft⟩ := hunaligned
    rw [decide_eq_true_iff] at hleft
    exact absurd (((hall p hp hleft.1).of_object rfl hleft.2).2 (by decide)) (by decide)
  · rintro ⟨mm', results, hr, hshares, hall⟩
    have hempty : (firstAlloc {} ((shallow 1).const (2 ^ 32) 64) { isLocal := false, target := 0 }).map
        (·.2.all fun p => p.2 = none ∧ p.1.data.addressSpace.objects.map (·.1) = [⟨8, 0⟩]) = some true := by
      decide
    obtain ⟨p, hp, hm⟩ := (hshares.cover (0 : Fin 2)).mp fun _ h => nomatch h
    rw [hr, Option.map_some, Option.some.injEq, List.all_eq_true] at hempty
    have hleft := of_decide_eq_true (hempty p hp)
    exact absurd (((hall p hp hleft.1).of_object rfl hleft.2).1 _ hm) (by decide)

end CgsKlee
