import CgsKlee.Solver.BuilderStates
import CgsKlee.Solver.STPBuilder
import CgsKlee.Solver.Z3Builder

/-!
# The translations and the evaluator

Both builders translate an expression to terms of the same value, and if no shift goes beyond the width it is the value
of the expression.  That holds as long as the variables of its arrays are different: the name of an array with the
counter after it is not unique, since `a1` and `11` make the name that `a11` and `1` make.
-/

namespace CgsKlee

open Smt

def BinaryKind.isShift : BinaryKind → Bool
  | .shl | .lshr | .ashr => true
  | _ => false

def Expr.ShiftInRange (m : Valuation) : Expr → Prop
  | .binary kind left right => kind.isShift = true → (right.eval m).toNat < left.width
  | _ => True

/-- All shift amounts in the expression are smaller than the width. -/
def Expr.ShiftsInRange (m : Valuation) : Expr → Prop := Expr.ForallNodes (Expr.ShiftInRange m)

def Expr.UnsignedWidths : Expr → Prop := Expr.ForallNodes fun e => e.width < 2 ^ 32

theorem shiftAmount_eq {right : Expr} {c : APInt} (hconst : ∀ d, right.asConstant = some d → d = c)
    (hc : c.toNat < 2 ^ 32) : shiftAmount right c = c.toNat := by
  unfold shiftAmount
  split
  · rename_i d hd
    rw [hconst d hd]
    unfold Backend.shiftConstant
    omega
  · rfl

theorem BinaryKind.solverValue_eq {kind : BinaryKind} {right : Expr} {a c : APInt} (hw : a.width = c.width)
    (hdiv : kind.isDivision = true → c.toNat ≠ 0) (hshift : kind.isShift = true → c.toNat < a.width)
    (hwidth : a.width < 2 ^ 32) (hconst : ∀ d, right.asConstant = some d → d = c) :
    kind.solverValue right a c = APInt.map₂ kind.apply a c := by
  have hamount : kind.isShift = true → shiftAmount right c = c.toNat := fun hk =>
    shiftAmount_eq hconst ((hshift hk).trans hwidth)
  obtain ⟨w, x⟩ := a
  obtain ⟨w', y⟩ := c
  obtain rfl : w = w' := hw
  have hy : kind.isDivision = true → y ≠ 0#w := fun hk hy => hdiv hk (by rw [hy]; rfl)
  have hdivisor : kind.isDivision = true → divisor y = y := fun hk => if_neg (hy hk)
  cases kind with
  | add | sub | mul | and | or | xor => rfl
  | udiv =>
    show APInt.map₂ BvOp.udiv.apply _ _ = _
    rw [APInt.map₂_mk, APInt.map₂_mk]
    show APInt.mk w (x.smtUDiv y) = APInt.mk w (x / divisor y)
    rw [hdivisor rfl, BitVec.smtUDiv_eq, if_neg (hy rfl)]
  | sdiv =>
    show APInt.map₂ BvOp.sdiv.apply _ _ = _
    rw [APInt.map₂_mk, APInt.map₂_mk]
    show APInt.mk w (x.smtSDiv y) = APInt.mk w (x.sdiv (divisor y))
    rw [hdivisor rfl, smtSDiv_eq_sdiv (hy rfl)]
  | urem =>
    show APInt.map₂ BvOp.urem.apply _ _ = _
    rw [APInt.map₂_mk, APInt.map₂_mk]
    show APInt.mk w (x % y) = APInt.mk w (x % divisor y)
    rw [hdivisor rfl]
  | srem =>
    show APInt.map₂ BvOp.srem.apply _ _ = _
    rw [APInt.map₂_mk, APInt.map₂_mk]
    show APInt.mk w (x.srem y) = APInt.mk w (x.srem (divisor y))
    rw [hdivisor rfl]
  | shl =>
    show shiftLeft _ (shiftAmount right _) = _
    rw [hamount rfl, APInt.map₂_mk]
    exact if_pos (hshift rfl)
  | lshr =>
    show shiftRight _ (shiftAmount right _) = _
    rw [hamount rfl, APInt.map₂_mk]
    exact if_pos (hshift rfl)
  | ashr =>
    show arithShiftRight _ (shiftAmount right _) = _
    rw [hamount rfl, APInt.map₂_mk]
    exact if_pos (hshift rfl)

section Values

variable {m : Valuation}

mutual

theorem Expr.solverValue_eq_eval : ∀ {e : Expr}, e.WellTyped → e.Defined m → e.ShiftsInRange m → e.UnsignedWidths →
    e.solverValue m = e.eval m
  | .constant _, _, _, _, _ => rfl
  | .notOptimized src, ht, hd, hs, hw => Expr.solverValue_eq_eval (e := src) ht hd hs.1 hw.1
  | .read root head index, ht, hd, hs, hw => by
    have hindex : index.solverValue m = index.eval m := Expr.solverValue_eq_eval ht.2.2.1 hd.2.1 hs.2.1 hw.2.1
    have hcontents : root.contents m (index.eval m).toNat = root.initial m (index.eval m).toNat := by
      unfold ExprArray.initial
      split
      · rename_i hsym
        exact ExprArray.contents_free (.inl hsym) m
      · rename_i hsym
        exact ExprArray.contents_constant (by simpa using hsym) hd.2.2 m
    unfold Expr.solverValue Expr.eval
    rw [hindex, hcontents]
    exact UpdateNode.solverLookup_eq_lookup ht.2.1 hd.1 hs.1 hw.1 _ _
  | .select c t f, ht, hd, hs, hw => by
    have hc : c.solverValue m = c.eval m := Expr.solverValue_eq_eval ht.1 hd.1 hs.1 hw.1
    have ht' : t.solverValue m = t.eval m := Expr.solverValue_eq_eval ht.2.1 hd.2.1 hs.2.1 hw.2.1
    have hf : f.solverValue m = f.eval m := Expr.solverValue_eq_eval ht.2.2.1 hd.2.2 hs.2.2.1 hw.2.2.1
    unfold Expr.solverValue Expr.eval
    rw [hc, ht', hf]
  | .concat l r, ht, hd, hs, hw => by
    have hl : l.solverValue m = l.eval m := Expr.solverValue_eq_eval ht.1 hd.1 hs.1 hw.1
    have hr : r.solverValue m = r.eval m := Expr.solverValue_eq_eval ht.2 hd.2 hs.2.1 hw.2.1
    unfold Expr.solverValue Expr.eval
    rw [hl, hr]
  | .extract e offset width, ht, hd, hs, hw => by
    have he : e.solverValue m = e.eval m := Expr.solverValue_eq_eval ht.1 hd hs.1 hw.1
    exact congrArg (APInt.extract · offset width) he
  | .cast kind src width, ht, hd, hs, hw => by
    have he : src.solverValue m = src.eval m := Expr.solverValue_eq_eval ht.1 hd hs.1 hw.1
    exact congrArg (kind.apply · width) he
  | .not e, ht, hd, hs, hw => by
    have he : e.solverValue m = e.eval m := Expr.solverValue_eq_eval (e := e) ht hd hs.1 hw.1
    exact congrArg APInt.complement he
  | .binary kind l r, ht, hd, hs, hw => by
    have hl : l.solverValue m = l.eval m := Expr.solverValue_eq_eval ht.1 hd.1 hs.1 hw.1
    have hr : r.solverValue m = r.eval m := Expr.solverValue_eq_eval ht.2.1 hd.2.1 hs.2.1 hw.2.1
    have hlw : (l.eval m).width = l.width := l.width_eval m ht.1
    have hrw : (r.eval m).width = r.width := r.width_eval m ht.2.1
    have hwidth : l.width < 2 ^ 32 := hw.2.2
    have hshift : kind.isShift = true → (r.eval m).toNat < l.width := hs.2.2
    unfold Expr.solverValue Expr.eval
    rw [hl, hr]
    refine BinaryKind.solverValue_eq (hlw.trans (ht.2.2.trans hrw.symm)) hd.2.2 (hlw ▸ hshift) (hlw ▸ hwidth)
      fun d hd => ?_
    rw [Expr.asConstant_eq_some hd]
    rfl
  | .cmp kind l r, ht, hd, hs, hw => by
    have hl : l.solverValue m = l.eval m := Expr.solverValue_eq_eval ht.1 hd.1 hs.1 hw.1
    have hr : r.solverValue m = r.eval m := Expr.solverValue_eq_eval ht.2.1 hd.2 hs.2.1 hw.2.1
    unfold Expr.solverValue Expr.eval
    rw [hl, hr]

theorem UpdateNode.solverLookup_eq_lookup {root : ExprArray} : ∀ {u : UpdateNode}, u.WellTyped root → u.Defined m →
    u.ForallNodes (Expr.ShiftInRange m) → u.ForallNodes (fun e => e.width < 2 ^ 32) → ∀ (initial : APInt) (i : Nat),
      u.solverLookup m initial i = u.lookup m initial i
  | .nil, _, _, _, _, _, _ => rfl
  | .cons index value next, ht, hd, hs, hw, initial, i => by
    have hindex : index.solverValue m = index.eval m := Expr.solverValue_eq_eval ht.1 hd.1 hs.1 hw.1
    have hvalue : value.solverValue m = value.eval m := Expr.solverValue_eq_eval ht.2.1 hd.2.1 hs.2.1 hw.2.1
    have hnext : next.solverLookup m initial i = next.lookup m initial i :=
      UpdateNode.solverLookup_eq_lookup ht.2.2.1 hd.2.2 hs.2.2 hw.2.2 initial i
    unfold UpdateNode.solverLookup UpdateNode.lookup
    rw [hindex, hvalue, hnext]

end

variable {m' : Valuation}

mutual

theorem Expr.ShiftsInRange.congr (h : AgreeInBounds m m') : ∀ {e : Expr}, e.Defined m → e.ShiftsInRange m →
    e.ShiftsInRange m'
  | .constant _, _, _ => trivial
  | .notOptimized src, hd, hs => ⟨Expr.ShiftsInRange.congr h (e := src) hd hs.1, trivial⟩
  | .read _ _ _, hd, hs =>
    ⟨UpdateNode.shiftsInRange_congr h hd.1 hs.1, Expr.ShiftsInRange.congr h hd.2.1 hs.2.1, trivial⟩
  | .select _ _ _, hd, hs =>
    ⟨Expr.ShiftsInRange.congr h hd.1 hs.1, Expr.ShiftsInRange.congr h hd.2.1 hs.2.1,
      Expr.ShiftsInRange.congr h hd.2.2 hs.2.2.1, trivial⟩
  | .concat _ _, hd, hs =>
    ⟨Expr.ShiftsInRange.congr h hd.1 hs.1, Expr.ShiftsInRange.congr h hd.2 hs.2.1, trivial⟩
  | .extract e _ _, hd, hs => ⟨Expr.ShiftsInRange.congr h (e := e) hd hs.1, trivial⟩
  | .cast _ src _, hd, hs => ⟨Expr.ShiftsInRange.congr h (e := src) hd hs.1, trivial⟩
  | .not e, hd, hs => ⟨Expr.ShiftsInRange.congr h (e := e) hd hs.1, trivial⟩
  | .binary _ _ _, hd, hs =>
    ⟨Expr.ShiftsInRange.congr h hd.1 hs.1, Expr.ShiftsInRange.congr h hd.2.1 hs.2.1, fun hk => by
      have hamount := hs.2.2 hk
      rwa [(hd.2.1.congr h).2] at hamount⟩
  | .cmp _ _ _, hd, hs =>
    ⟨Expr.ShiftsInRange.congr h hd.1 hs.1, Expr.ShiftsInRange.congr h hd.2 hs.2.1, trivial⟩

theorem UpdateNode.shiftsInRange_congr (h : AgreeInBounds m m') : ∀ {u : UpdateNode}, u.Defined m →
    u.ForallNodes (Expr.ShiftInRange m) → u.ForallNodes (Expr.ShiftInRange m')
  | .nil, _, _ => trivial
  | .cons _ _ _, hd, hs =>
    ⟨Expr.ShiftsInRange.congr h hd.1 hs.1, Expr.ShiftsInRange.congr h hd.2.1 hs.2.1,
      UpdateNode.shiftsInRange_congr h hd.2.2 hs.2.2⟩

end

end Values

namespace Backend

variable {b : Backend} {name : ExprArray → String} {s s' : BuilderState} {e : Expr}

/-- The variables of the arrays of the expression are different after it was built. -/
def NamesDistinct (name : ExprArray → String) (e : Expr) (s : BuilderState) : Prop :=
  DistinctNames (nameArrays name s.arrayNames e.roots) e.roots

instance (name : ExprArray → String) (e : Expr) (s : BuilderState) : Decidable (NamesDistinct name e s) := by
  unfold NamesDistinct
  infer_instance

theorem construct_reachable (hb : b.Sound) (hs : b.Reachable name s) {opt : Bool} (hc : e.Created opt)
    (ht : e.WellTyped) (hbuild : e.Buildable) (hd : e.NonzeroDivisors) :
    ∃ t s', b.construct name e s = some ((t, e.width), s') ∧ s'.Inv ∧
      s'.arrayNames = nameArrays name s.arrayNames e.roots ∧ s.Grows name e.roots s' ∧ TermFor s' t e := by
  have hspec : BuildsTerm name (b.construct name e) e := construct_spec hb e ht hc.canonical hbuild hd
  obtain ⟨t, s', hrun, hinv, hgrows, hterm⟩ := hspec s (hs.inv hb)
  exact ⟨t, s', hrun, hinv, hgrows.arrayNames_eq, hgrows, hterm⟩

theorem namesDistinct_of_represents (m : Valuation) (hbuild : e.Buildable)
    (hnames : s'.arrayNames = nameArrays name s.arrayNames e.roots)
    (h : ∀ m', AgreeInBounds m m' → ∃ env, s'.Represents e.roots env m') : NamesDistinct name e s := by
  unfold NamesDistinct
  rw [← hnames]
  intro p' hp' q' hq' hproot hqroot hname
  obtain ⟨p, hp, rfl⟩ := List.mem_map.mp hp'
  obtain ⟨q, hq, rfl⟩ := List.mem_map.mp hq'
  by_contra hne
  obtain ⟨env, henv⟩ := h _ (BuilderState.agreeInBounds_separate m p.1 q.1)
  have hindexed : p.1.Indexed := hbuild.indexed _ hproot
  exact BuilderState.not_represents_separate hp hq hproot hqroot hname hne (Nat.lt_of_succ_lt hindexed.2) env henv

theorem exists_represents (hinv : s'.Inv) (hnames : s'.arrayNames = nameArrays name s.arrayNames e.roots)
    (h : NamesDistinct name e s) (m : Valuation) : ∃ env, s'.Represents e.roots env m := by
  unfold NamesDistinct at h
  rw [← hnames] at h
  exact ⟨_, BuilderState.represents_interpretation hinv h m⟩

/-- For every assignment that makes no divisor zero, keeps the reads in bounds and the shift amounts below the width, the
term that the builder constructs denotes the value of the expression: there is an interpretation of its variables, and
under each one it has this value. -/
def MeansExpr (b : Backend) (name : ExprArray → String) (e : Expr) (s : BuilderState) : Prop :=
  ∀ m : Valuation, e.Defined m → e.ShiftsInRange m → ∃ t s',
    b.construct name e s = some ((t, e.width), s') ∧ (∃ env, s'.Represents e.roots env m) ∧
    (e.eval m).width = e.width ∧
    ∀ env, s'.Represents e.roots env m → t.denote env = some (sortValue (e.eval m))

theorem meansExpr_iff (hb : b.Sound) (hs : b.Reachable name s) {opt : Bool} (hc : e.Created opt) (ht : e.WellTyped)
    (hbuild : e.Buildable) (hw : e.UnsignedWidths) :
    b.MeansExpr name e s ↔ ((∃ m, e.Defined m ∧ e.ShiftsInRange m) → NamesDistinct name e s) := by
  constructor
  · rintro h ⟨m, hd, hshift⟩
    obtain ⟨t, s', hrun, hinv, hnames, -, -⟩ := construct_reachable hb hs hc ht hbuild hd.nonzeroDivisors
    refine namesDistinct_of_represents m hbuild hnames fun m' hagree => ?_
    obtain ⟨t₁, s₁, hrun₁, hrep, -⟩ := h m' (hd.congr hagree).1 (hshift.congr hagree hd)
    rw [hrun] at hrun₁
    obtain ⟨-, rfl⟩ := Prod.mk.inj (Option.some.inj hrun₁)
    exact hrep
  · intro h m hd hshift
    obtain ⟨t, s', hrun, hinv, hnames, -, hterm⟩ := construct_reachable hb hs hc ht hbuild hd.nonzeroDivisors
    refine ⟨t, s', hrun, exists_represents hinv hnames (h ⟨m, hd, hshift⟩) m, e.width_eval m ht, fun env henv => ?_⟩
    rw [← Expr.solverValue_eq_eval ht hd hshift hw]
    exact hterm.denote henv

variable {b' : Backend} {s₂ : BuilderState}

/-- For every assignment that makes no divisor zero and keeps the reads in bounds, the terms that the two builders
construct denote the same value: there are interpretations of the variables of both, and under each two of them the
values are the same. -/
def SameTerms (b b' : Backend) (name : ExprArray → String) (e : Expr) (s s₂ : BuilderState) : Prop :=
  ∀ m : Valuation, e.Defined m → ∃ t s' t₂ s₂',
    b.construct name e s = some ((t, e.width), s') ∧ b'.construct name e s₂ = some ((t₂, e.width), s₂') ∧
    (∃ env, s'.Represents e.roots env m) ∧ (∃ env, s₂'.Represents e.roots env m) ∧
    ∀ env env', s'.Represents e.roots env m → s₂'.Represents e.roots env' m →
      ∃ v, t.denote env = some v ∧ t₂.denote env' = some v

theorem sameTerms_iff (hb : b.Sound) (hb' : b'.Sound) (hs : b.Reachable name s) (hs₂ : b'.Reachable name s₂) {opt : Bool}
    (hc : e.Created opt) (ht : e.WellTyped) (hbuild : e.Buildable) :
    SameTerms b b' name e s s₂ ↔ ((∃ m, e.Defined m) → NamesDistinct name e s ∧ NamesDistinct name e s₂) := by
  constructor
  · rintro h ⟨m, hd⟩
    obtain ⟨t, s', hrun, hinv, hnames, -, -⟩ := construct_reachable hb hs hc ht hbuild hd.nonzeroDivisors
    obtain ⟨t₂, s₂', hrun₂, hinv₂, hnames₂, -, -⟩ := construct_reachable hb' hs₂ hc ht hbuild hd.nonzeroDivisors
    have hboth : ∀ m', AgreeInBounds m m' →
        (∃ env, s'.Represents e.roots env m') ∧ ∃ env, s₂'.Represents e.roots env m' := fun m' hagree => by
      obtain ⟨u, s₁, u₂, s₂₁, hrun₁, hrun₂₁, hrep, hrep₂, -⟩ := h m' (hd.congr hagree).1
      rw [hrun] at hrun₁
      rw [hrun₂] at hrun₂₁
      obtain ⟨-, rfl⟩ := Prod.mk.inj (Option.some.inj hrun₁)
      obtain ⟨-, rfl⟩ := Prod.mk.inj (Option.some.inj hrun₂₁)
      exact ⟨hrep, hrep₂⟩
    exact ⟨namesDistinct_of_represents m hbuild hnames fun m' hagree => (hboth m' hagree).1,
      namesDistinct_of_represents m hbuild hnames₂ fun m' hagree => (hboth m' hagree).2⟩
  · intro h m hd
    obtain ⟨hdistinct, hdistinct₂⟩ := h ⟨m, hd⟩
    obtain ⟨t, s', hrun, hinv, hnames, -, hterm⟩ := construct_reachable hb hs hc ht hbuild hd.nonzeroDivisors
    obtain ⟨t₂, s₂', hrun₂, hinv₂, hnames₂, -, hterm₂⟩ :=
      construct_reachable hb' hs₂ hc ht hbuild hd.nonzeroDivisors
    exact ⟨t, s', t₂, s₂', hrun, hrun₂, exists_represents hinv hnames hdistinct m,
      exists_represents hinv₂ hnames₂ hdistinct₂ m,
      fun env env' henv henv' => ⟨_, hterm.denote henv, hterm₂.denote henv'⟩⟩

end Backend

def byteArray (id : Nat) : ExprArray := ⟨id, 1, 32, 8, []⟩

def firstByte (a : ExprArray) : Expr := .read a .nil (.constant (.ofNat 32 0))

def chosenByte (a : ExprArray) : Expr := .read a .nil (.cast .zext (.extract (firstByte (byteArray 0)) 0 1) 32)

def conjunction (e : Expr) (kids : List Expr) : Expr := kids.foldl (.binary .and) e

structure IsByte (e : Expr) : Prop where
  created : e.Created true
  wellTyped : e.WellTyped
  buildable : e.Buildable
  widths : e.UnsignedWidths
  width : e.width = 8
  asConstant : e.asConstant = none
  defined : ∀ m, e.Defined m
  shifts : ∀ m, e.ShiftsInRange m

theorem AndExpr.create_eq {l r : Expr} (hw : l.width = r.width) (hl : l.asConstant = none) (hr : r.asConstant = none) :
    AndExpr.create l r = some (.binary .and l r) := by
  unfold AndExpr.create createR
  rw [if_pos hw]
  cases l with
  | constant => cases hl
  | _ =>
    cases r with
    | constant => cases hr
    | _ => rfl

theorem IsByte.and {l r : Expr} (hl : IsByte l) (hr : IsByte r) : IsByte (.binary .and l r) where
  created := by
    refine .create (p := .binary .and l r) (fun k hk => ?_) .nil
      (AndExpr.create_eq (hl.width.trans hr.width.symm) hl.asConstant hr.asConstant)
    rcases List.mem_cons.mp hk with rfl | hk
    · exact hl.created
    · obtain rfl := List.mem_singleton.mp hk
      exact hr.created
  wellTyped := ⟨hl.wellTyped, hr.wellTyped, hl.width.trans hr.width.symm⟩
  buildable := ⟨hl.buildable, hr.buildable, trivial⟩
  widths := ⟨hl.widths, hr.widths, by show l.width < _; rw [hl.width]; decide⟩
  width := hl.width
  asConstant := rfl
  defined := fun m => ⟨hl.defined m, hr.defined m, nofun⟩
  shifts := fun m => ⟨hl.shifts m, hr.shifts m, nofun⟩

theorem IsByte.conjunction {e : Expr} {kids : List Expr} (he : IsByte e) (hkids : ∀ k ∈ kids, IsByte k) :
    IsByte (conjunction e kids) := by
  induction kids generalizing e with
  | nil => exact he
  | cons k kids ih => exact ih (he.and (hkids k (.head _))) fun k' hk' => hkids k' (.tail _ hk')

theorem isByte_firstByte (id : Nat) : IsByte (firstByte (byteArray id)) where
  created := by
    refine .create (p := firstByte (byteArray id)) (fun k hk => ?_) .nil rfl
    obtain rfl := List.mem_singleton.mp hk
    exact .create (p := .constant (.ofNat 32 0)) nofun .nil rfl
  wellTyped := ⟨⟨nofun, (by decide : 32 ≤ 64), (by decide : 1 ≤ 2 ^ 32)⟩, trivial, trivial, rfl⟩
  buildable := ⟨trivial, (by decide : 0 < 32), (by decide : 1 < 32), (by decide : 1 < 8)⟩
  widths := ⟨trivial, (by decide : 32 < 2 ^ 32), (by decide : 8 < 2 ^ 32)⟩
  width := rfl
  asConstant := rfl
  defined := fun _ => ⟨trivial, trivial, (by decide : 0 < 1)⟩
  shifts := fun _ => ⟨trivial, trivial, trivial⟩

theorem isByte_chosenByte {a : ExprArray} (ha : a.WellFormed) (hsize : a.size = 2) (hdomain : a.domain = 32)
    (hrange : a.range = 8) : IsByte (chosenByte a) := by
  have hbyte : IsByte (firstByte (byteArray 0)) := isByte_firstByte 0
  have hindex : (Expr.cast .zext (.extract (firstByte (byteArray 0)) 0 1) 32).Created true := by
    refine .create (p := .cast .zext (.extract (firstByte (byteArray 0)) 0 1) 32) (fun k hk => ?_) .nil (by decide)
    obtain rfl := List.mem_singleton.mp hk
    refine .create (p := .extract (firstByte (byteArray 0)) 0 1) (fun k hk => ?_) .nil (by decide +kernel)
    obtain rfl := List.mem_singleton.mp hk
    exact hbyte.created
  constructor
  · refine .create (p := chosenByte a) (fun k hk => ?_) .nil rfl
    obtain rfl := List.mem_singleton.mp hk
    exact hindex
  · exact ⟨ha, trivial, ⟨⟨hbyte.wellTyped, by decide, by decide⟩, by decide⟩, hdomain.symm⟩
  · exact ⟨trivial, ⟨⟨hbyte.buildable, trivial⟩, trivial⟩, by rw [hdomain]; decide, by rw [hrange]; decide⟩
  · exact ⟨trivial, ⟨⟨hbyte.widths, by decide⟩, by decide⟩, by show a.range < _; rw [hrange]; decide⟩
  · exact hrange
  · rfl
  · intro m
    refine ⟨trivial, hbyte.defined m, ?_⟩
    have hbit : (((firstByte (byteArray 0)).eval m).extract 0 1).toNat < 2 ^ 1 := APInt.toNat_lt _
    rw [hsize]
    show ((((firstByte (byteArray 0)).eval m).extract 0 1).value.setWidth 32).toNat < 2
    rw [BitVec.toNat_setWidth]
    exact (Nat.mod_le _ _).trans_lt hbit
  · exact fun m => ⟨trivial, ⟨⟨hbyte.shifts m, trivial⟩, trivial⟩, trivial⟩

def seventh : Expr := .binary .sdiv (.cast .zext (firstByte (byteArray 0)) 32) (.constant (.ofNat 32 7))

theorem seventh_created : seventh.Created true := by
  refine .create (p := seventh) (fun k hk => ?_) .nil (by decide)
  rcases List.mem_cons.mp hk with rfl | hk
  · refine .create (p := .cast .zext (firstByte (byteArray 0)) 32) (fun k hk => ?_) .nil (by decide)
    obtain rfl := List.mem_singleton.mp hk
    exact (isByte_firstByte 0).created
  · obtain rfl := List.mem_singleton.mp hk
    exact .create (p := .constant (.ofNat 32 7)) nofun .nil rfl

theorem seventh_wellTyped : seventh.WellTyped :=
  ⟨⟨(isByte_firstByte 0).wellTyped, (by decide : 8 ≤ 32)⟩, trivial, rfl⟩

theorem seventh_buildable : seventh.Buildable :=
  ⟨⟨(isByte_firstByte 0).buildable, trivial⟩, (by decide : 0 < 32), trivial⟩

/-- The eleven bytes after the first, two of them from arrays whose names and counters make one name. -/
def sharedBytes : Expr :=
  conjunction (firstByte (byteArray 0)) ((List.range 11).map fun i => firstByte (byteArray (i + 1)))

def sharedName (a : ExprArray) : String := if a.id = 1 then "a1" else if a.id = 11 then "a" else "arr"

theorem isByte_sharedBytes : IsByte sharedBytes := by
  refine (isByte_firstByte 0).conjunction fun k hk => ?_
  obtain ⟨i, -, rfl⟩ := List.mem_map.mp hk
  exact isByte_firstByte (i + 1)

def constantBytes : Expr :=
  conjunction (firstByte (byteArray 0))
    (chosenByte ⟨1, 2, 32, 8, [1, 2]⟩ :: (List.range 9).map (fun i => firstByte (byteArray (i + 2))) ++
      [chosenByte ⟨11, 2, 32, 8, [3, 4]⟩])

def constantName (a : ExprArray) : String :=
  if a.id = 1 then "const_arr11" else if a.id = 11 then "const_arr1" else "arr"

theorem isByte_constantBytes : IsByte constantBytes := by
  refine (isByte_firstByte 0).conjunction fun k hk => ?_
  rcases List.mem_append.mp hk with hk | hk
  · rcases List.mem_cons.mp hk with rfl | hk
    · exact isByte_chosenByte ⟨fun _ => rfl, by decide, by decide⟩ rfl rfl rfl
    · obtain ⟨i, -, rfl⟩ := List.mem_map.mp hk
      exact isByte_firstByte (i + 2)
  · obtain rfl := List.mem_singleton.mp hk
    exact isByte_chosenByte ⟨fun _ => rfl, by decide, by decide⟩ rfl rfl rfl

namespace STPBuilder

end STPBuilder

theorem constantBytes_assertions :
    ((Z3Builder.backend true).construct constantName constantBytes .empty).map (fun r => r.2.constantArrayAssertions) =
      some [(⟨11, 2, 32, 8, [3, 4]⟩, Z3Builder.arrayAssertions ⟨11, 2, 32, 8, [3, 4]⟩ (.var "const_arr111" 32 8)),
        (⟨1, 2, 32, 8, [1, 2]⟩, Z3Builder.arrayAssertions ⟨1, 2, 32, 8, [1, 2]⟩ (.var "const_arr111" 32 8))] := by
  decide +kernel

end CgsKlee
