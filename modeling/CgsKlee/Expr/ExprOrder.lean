import CgsKlee.Expr.ExprObject
import Mathlib.Data.Set.Basic

/-!
# The order of expressions

`Expr::compare` compares the words that describe two expressions: kind, hash, contents and kids, one after the other.
This holds whatever objects share, with the table of equal pairs and without it.  So the order is total, and it finds
exactly the expressions equal that are.
-/

namespace CgsKlee

open CodeCompare

variable (name : ExprArray → List UInt8) (hash_value : APInt → BitVec 64) (useEquivs : Bool)

mutual

/-- The word of an expression: its kind, its hash, its contents and its kids. -/
def Expr.code : Expr → List Nat
  | .constant value =>
    [ExprKind.constant.number] ++ ([((Expr.constant value).hash name hash_value).toNat] ++
      ([value.width] ++ [value.toNat]))
  | .notOptimized src =>
    [ExprKind.notOptimized.number] ++ ([((Expr.notOptimized src).hash name hash_value).toNat] ++ src.code)
  | .read root head index =>
    [ExprKind.read.number] ++ ([((Expr.read root head index).hash name hash_value).toNat] ++
      ((terminated ((name root).map UInt8.toNat) ++ ([root.id] ++ ([head.size] ++ head.code))) ++ index.code))
  | .select cond trueExpr falseExpr =>
    [ExprKind.select.number] ++ ([((Expr.select cond trueExpr falseExpr).hash name hash_value).toNat] ++
      (cond.code ++ (trueExpr.code ++ falseExpr.code)))
  | .concat left right =>
    [ExprKind.concat.number] ++ ([((Expr.concat left right).hash name hash_value).toNat] ++
      ([left.width + right.width] ++ (left.code ++ right.code)))
  | .extract expr offset width =>
    [ExprKind.extract.number] ++ ([((Expr.extract expr offset width).hash name hash_value).toNat] ++
      ([offset] ++ ([width] ++ expr.code)))
  | .cast kind src width =>
    [(ExprKind.cast kind).number] ++ ([((Expr.cast kind src width).hash name hash_value).toNat] ++
      ([width] ++ src.code))
  | .not expr => [ExprKind.not.number] ++ ([((Expr.not expr).hash name hash_value).toNat] ++ expr.code)
  | .binary kind left right =>
    [(ExprKind.binary kind).number] ++ ([((Expr.binary kind left right).hash name hash_value).toNat] ++
      (left.code ++ right.code))
  | .cmp kind left right =>
    [(ExprKind.cmp kind).number] ++ ([((Expr.cmp kind left right).hash name hash_value).toNat] ++
      (left.code ++ right.code))

/-- The words of the updates, the most recent one first. -/
def UpdateNode.code : UpdateNode → List Nat
  | .nil => []
  | .cons index value next => (index.code ++ value.code) ++ next.code

end

def Expr.codeTail (e : Expr) : List Nat := (e.code name hash_value).drop 2

theorem Expr.code_eq (e : Expr) :
    e.code name hash_value = [e.kind.number] ++ ([(e.hash name hash_value).toNat] ++ e.codeTail name hash_value) := by
  cases e <;> rfl

def ExprKind.all : List ExprKind :=
  [.constant, .notOptimized, .read, .select, .concat, .extract, .cast .zext, .cast .sext, .not] ++
    [.add, .sub, .mul, .udiv, .sdiv, .urem, .srem, .and, .or, .xor, .shl, .lshr, .ashr].map .binary ++
    [.eq, .ne, .ult, .ule, .ugt, .uge, .slt, .sle, .sgt, .sge].map .cmp

theorem ExprKind.find_number (k : ExprKind) : all.find? (·.number == k.number) = some k := by
  cases k with
  | cast kind | binary kind | cmp kind => cases kind <;> rfl
  | _ => rfl

theorem ExprKind.number_inj {k k' : ExprKind} (h : k.number = k'.number) : k = k' := by
  have hfind := k.find_number
  rw [h, k'.find_number] at hfind
  exact (Option.some.inj hfind).symm

def Heap.Sound (H : Heap) (equivs : Equivs) : Prop :=
  ∀ p ∈ equivs, ∀ x ∈ H.objects, ∀ y ∈ H.objects, x.address = p.1 → y.address = p.2 → x.erase = y.erase

theorem Heap.sound_nil (H : Heap) : H.Sound [] := List.forall_mem_nil _

variable {name hash_value useEquivs} {H : Heap} {a b : ExprObject} {f : Comparing Equivs} {x y : List Nat} {P : Prop}

theorem Heap.pair_cases {p q : ExprObject} (h : p.address = min a.address b.address)
    (h' : q.address = max a.address b.address) :
    (p.address = a.address ∧ q.address = b.address) ∨ (p.address = b.address ∧ q.address = a.address) := by
  rcases Nat.le_total a.address b.address with hle | hle
  · rw [Nat.min_eq_left hle] at h
    rw [Nat.max_eq_right hle] at h'
    exact Or.inl ⟨h, h'⟩
  · rw [Nat.min_eq_right hle] at h
    rw [Nat.max_eq_left hle] at h'
    exact Or.inr ⟨h, h'⟩

theorem Heap.Sound.insert {equivs : Equivs} (h : H.Sound equivs) (ha : a ∈ H.objects) (hb : b ∈ H.objects)
    (heq : a.erase = b.erase) : H.Sound ((min a.address b.address, max a.address b.address) :: equivs) := by
  intro pair hpair p hp q hq hpa hqb
  rcases List.mem_cons.mp hpair with rfl | hmem
  · rcases Heap.pair_cases hpa hqb with ⟨hpa, hqb⟩ | ⟨hpb, hqa⟩
    · rw [H.object_unique p hp a ha hpa, H.object_unique q hq b hb hqb]
      exact heq
    · rw [H.object_unique p hp b hb hpb, H.object_unique q hq a ha hqa]
      exact heq.symm
  · exact h pair hmem p hp q hq hpa hqb

theorem Heap.Sound.erase_eq {equivs : Equivs} (h : H.Sound equivs) (ha : a ∈ H.objects) (hb : b ∈ H.objects)
    (hmem : (min a.address b.address, max a.address b.address) ∈ equivs) : a.erase = b.erase := by
  rcases Nat.le_total a.address b.address with hle | hle
  · rw [Nat.min_eq_left hle, Nat.max_eq_right hle] at hmem
    exact h _ hmem a ha b hb rfl rfl
  · rw [Nat.min_eq_right hle, Nat.max_eq_left hle] at hmem
    exact (h _ hmem b hb a ha rfl rfl).symm

theorem Heap.follows_clearing (h : Follows H.Sound f x y P) : Follows H.Sound (clearing f) x y P := by
  intro equivs hequivs
  obtain ⟨o, equivs', hf, hcompare, hP, -⟩ := h equivs hequivs
  exact ⟨o, [], by simp [clearing, hf], hcompare, hP, H.sound_nil⟩

theorem ExprObject.compareAround_follows (ha : a ∈ H.objects) (hb : b ∈ H.objects)
    (h : a.erase.kind = b.erase.kind →
      Follows H.Sound f (a.erase.codeTail name hash_value) (b.erase.codeTail name hash_value) (a.erase = b.erase)) :
    Follows H.Sound (ExprObject.compareAround name hash_value useEquivs a b f) (a.erase.code name hash_value)
      (b.erase.code name hash_value) (a.erase = b.erase) := by
  -- expressions known to be equal have the same word
  have hequal : ∀ equivs, H.Sound equivs → a.erase = b.erase → ∃ o m', some (Ordering.eq, equivs) = some (o, m') ∧
      (∀ r s, Ord.compare (a.erase.code name hash_value ++ r) (b.erase.code name hash_value ++ s) =
        o.then (Ord.compare r s)) ∧
      (o = .eq → a.erase = b.erase) ∧ H.Sound m' := by
    intro equivs hequivs heq
    refine ⟨.eq, equivs, rfl, fun r s => ?_, fun _ => heq, hequivs⟩
    rw [heq]
    exact compare_append_left _ r s
  have hlast : a.erase = b.erase → Follows H.Sound
      (fun equivs => some (.eq, (min a.address b.address, max a.address b.address) :: equivs)) [] [] (a.erase = b.erase) :=
    fun heq equivs hequivs => ⟨.eq, _, rfl, fun _ _ => rfl, fun _ => heq, hequivs.insert ha hb heq⟩
  have hwhole := Follows.andThen (Follows.nat H.Sound a.erase.kind.number b.erase.kind.number) fun hkind =>
    Follows.andThen (Follows.nat _ (a.erase.hash name hash_value).toNat (b.erase.hash name hash_value).toNat) fun _ =>
      Follows.andThen (h (ExprKind.number_inj hkind)) hlast
  rw [List.append_nil, List.append_nil, ← Expr.code_eq, ← Expr.code_eq] at hwhole
  intro equivs hequivs
  unfold ExprObject.compareAround
  split
  · rename_i haddress
    exact hequal equivs hequivs (congrArg ExprObject.erase (H.object_unique a ha b hb haddress))
  · dsimp only
    split
    · rename_i hmem
      rw [Bool.and_eq_true, List.contains_iff_mem] at hmem
      exact hequal equivs hequivs (hequivs.erase_eq ha hb hmem.2)
    · exact (hwhole.mono fun heq => heq.2.2.2) equivs hequivs

theorem Heap.follows_compareRoots (name : ExprArray → List UInt8) {root root' : ExprArray} (hroot : root ∈ H.arrays) (hroot' : root' ∈ H.arrays)
    {size size' : Nat} (h : size = size' → Follows H.Sound f x y P) :
    Follows H.Sound (compareRoots name root root' size size' f)
      (terminated ((name root).map UInt8.toNat) ++ ([root.id] ++ ([size] ++ x)))
      (terminated ((name root').map UInt8.toNat) ++ ([root'.id] ++ ([size'] ++ y))) (root = root' ∧ P) := by
  have hname := Follows.string H.Sound ((name root).map UInt8.toNat) ((name root').map UInt8.toNat)
  have hwhole := hname.andThen fun _ => Follows.andThen (Follows.nat _ root.id root'.id) fun _ => Follows.andThen (Follows.nat _ size size') h
  exact hwhole.mono fun ⟨_, hid, _, hP⟩ => ⟨H.array_unique root hroot root' hroot' hid, hP⟩

mutual

theorem ExprObject.compareIn_follows : ∀ a b : ExprObject, a ∈ H.objects → b ∈ H.objects →
    Follows H.Sound (a.compareIn name hash_value useEquivs b) (a.erase.code name hash_value)
      (b.erase.code name hash_value) (a.erase = b.erase)
  | .constant p value, b, ha, hb => ExprObject.compareAround_follows ha hb fun hk => by
    match b, hk with
    | .constant _ value', _ =>
      have hvalue := Follows.andThen (Follows.nat H.Sound value.width value'.width) fun _ =>
        Follows.nat _ value.toNat value'.toNat
      exact hvalue.mono fun h => congrArg Expr.constant (APInt.ext_toNat h.1 h.2)
  | .notOptimized p src, b, ha, hb => ExprObject.compareAround_follows ha hb fun hk => by
    match b, hk with
    | .notOptimized _ src', _ =>
      have hsrc := ExprObject.compareIn_follows src src' (H.kids_mem _ ha _ (.head _))
        (H.kids_mem _ hb _ (.head _))
      exact hsrc.mono fun h => congrArg Expr.notOptimized h
  | .read p root head index, b, ha, hb => ExprObject.compareAround_follows ha hb fun hk => by
    match b, hk with
    | .read _ root' head' index', _ =>
      obtain ⟨hroot, hhead⟩ := H.read_mem _ _ _ _ ha
      obtain ⟨hroot', hhead'⟩ := H.read_mem _ _ _ _ hb
      have hindex := ExprObject.compareIn_follows index index' (H.kids_mem _ ha _ (.head _))
        (H.kids_mem _ hb _ (.head _))
      have hread := Follows.andThen (Heap.follows_compareRoots name hroot hroot' fun hsize =>
        UpdateObject.compareNodes_follows head head' hhead hhead' hsize) fun _ => hindex
      refine hread.mono fun ⟨⟨hroot, hhead⟩, hindex⟩ => ?_
      unfold ExprObject.erase
      rw [hroot, hhead, hindex]
  | .select p cond trueExpr falseExpr, b, ha, hb => ExprObject.compareAround_follows ha hb fun hk => by
    match b, hk with
    | .select _ cond' trueExpr' falseExpr', _ =>
      have hcond := ExprObject.compareIn_follows cond cond' (H.kids_mem _ ha _ (.head _))
        (H.kids_mem _ hb _ (.head _))
      have htrue := ExprObject.compareIn_follows trueExpr trueExpr'
        (H.kids_mem _ ha _ (.tail _ (.head _))) (H.kids_mem _ hb _ (.tail _ (.head _)))
      have hfalse := ExprObject.compareIn_follows falseExpr falseExpr'
        (H.kids_mem _ ha _ (.tail _ (.tail _ (.head _))))
        (H.kids_mem _ hb _ (.tail _ (.tail _ (.head _))))
      refine (hcond.andThen fun _ => htrue.andThen fun _ => hfalse).mono fun ⟨hcond, htrue, hfalse⟩ => ?_
      unfold ExprObject.erase
      rw [hcond, htrue, hfalse]
  | .concat p left right, b, ha, hb => ExprObject.compareAround_follows ha hb fun hk => by
    match b, hk with
    | .concat _ left' right', _ =>
      have hleft := ExprObject.compareIn_follows left left' (H.kids_mem _ ha _ (.head _))
        (H.kids_mem _ hb _ (.head _))
      have hright := ExprObject.compareIn_follows right right' (H.kids_mem _ ha _ (.tail _ (.head _)))
        (H.kids_mem _ hb _ (.tail _ (.head _)))
      have hconcat := Follows.andThen (Follows.nat H.Sound (left.erase.width + right.erase.width)
        (left'.erase.width + right'.erase.width)) fun _ => hleft.andThen fun _ => hright
      refine hconcat.mono fun ⟨_, hleft, hright⟩ => ?_
      unfold ExprObject.erase
      rw [hleft, hright]
  | .extract p expr offset width, b, ha, hb => ExprObject.compareAround_follows ha hb fun hk => by
    match b, hk with
    | .extract _ expr' offset' width', _ =>
      have hexpr := ExprObject.compareIn_follows expr expr' (H.kids_mem _ ha _ (.head _))
        (H.kids_mem _ hb _ (.head _))
      have hextract := Follows.andThen (Follows.nat H.Sound offset offset') fun _ =>
        Follows.andThen (Follows.nat _ width width') fun _ => hexpr
      refine hextract.mono fun ⟨hoffset, hwidth, hexpr⟩ => ?_
      unfold ExprObject.erase
      rw [hoffset, hwidth, hexpr]
  | .cast p kind src width, b, ha, hb => ExprObject.compareAround_follows ha hb fun hk => by
    match b, hk with
    | .cast _ kind' src' width', hk =>
      obtain rfl : kind = kind' := ExprKind.cast.inj hk
      have hsrc := ExprObject.compareIn_follows src src' (H.kids_mem _ ha _ (.head _))
        (H.kids_mem _ hb _ (.head _))
      have hcast := Follows.andThen (Follows.nat H.Sound width width') fun _ => hsrc
      refine hcast.mono fun ⟨hwidth, hsrc⟩ => ?_
      unfold ExprObject.erase
      rw [hwidth, hsrc]
  | .not p expr, b, ha, hb => ExprObject.compareAround_follows ha hb fun hk => by
    match b, hk with
    | .not _ expr', _ =>
      have hexpr := ExprObject.compareIn_follows expr expr' (H.kids_mem _ ha _ (.head _))
        (H.kids_mem _ hb _ (.head _))
      exact hexpr.mono fun h => congrArg Expr.not h
  | .binary p kind left right, b, ha, hb => ExprObject.compareAround_follows ha hb fun hk => by
    match b, hk with
    | .binary _ kind' left' right', hk =>
      obtain rfl : kind = kind' := ExprKind.binary.inj hk
      have hleft := ExprObject.compareIn_follows left left' (H.kids_mem _ ha _ (.head _))
        (H.kids_mem _ hb _ (.head _))
      have hright := ExprObject.compareIn_follows right right' (H.kids_mem _ ha _ (.tail _ (.head _)))
        (H.kids_mem _ hb _ (.tail _ (.head _)))
      refine (hleft.andThen fun _ => hright).mono fun ⟨hleft, hright⟩ => ?_
      unfold ExprObject.erase
      rw [hleft, hright]
  | .cmp p kind left right, b, ha, hb => ExprObject.compareAround_follows ha hb fun hk => by
    match b, hk with
    | .cmp _ kind' left' right', hk =>
      obtain rfl : kind = kind' := ExprKind.cmp.inj hk
      have hleft := ExprObject.compareIn_follows left left' (H.kids_mem _ ha _ (.head _))
        (H.kids_mem _ hb _ (.head _))
      have hright := ExprObject.compareIn_follows right right' (H.kids_mem _ ha _ (.tail _ (.head _)))
        (H.kids_mem _ hb _ (.tail _ (.head _)))
      refine (hleft.andThen fun _ => hright).mono fun ⟨hleft, hright⟩ => ?_
      unfold ExprObject.erase
      rw [hleft, hright]

theorem UpdateObject.compareNodes_follows : ∀ u v : UpdateObject, u ∈ H.updates → v ∈ H.updates →
    u.erase.size = v.erase.size →
    Follows H.Sound (u.compareNodes name hash_value useEquivs v) (u.erase.code name hash_value)
      (v.erase.code name hash_value) (u.erase = v.erase)
  | .nil, .nil, _, _, _ => Follows.refl [] rfl
  | .nil, .cons _ _ _ _, _, _, hsize => absurd hsize (Nat.succ_ne_zero _).symm
  | .cons _ _ _ _, .nil, _, _, hsize => absurd hsize (Nat.succ_ne_zero _)
  | .cons p index value next, .cons p' index' value' next', hu, hv, hsize => by
    obtain ⟨hi, hvalue, hnext⟩ := H.update_mem _ _ _ _ hu
    obtain ⟨hi', hvalue', hnext'⟩ := H.update_mem _ _ _ _ hv
    unfold UpdateObject.compareNodes
    split
    · -- the same node, and with it the same updates behind
      rename_i heq
      subst heq
      rw [H.update_unique _ _ _ _ _ _ _ hu hv]
      exact Follows.refl _ rfl
    · have hindex := Heap.follows_clearing (ExprObject.compareIn_follows index index' hi hi')
      have hval := Heap.follows_clearing (ExprObject.compareIn_follows value value' hvalue hvalue')
      have hrest := UpdateObject.compareNodes_follows next next' hnext hnext' (Nat.succ.inj hsize)
      refine ((hindex.andThen fun _ => hval).andThen fun _ => hrest).mono fun ⟨⟨hindex, hval⟩, hrest⟩ => ?_
      unfold UpdateObject.erase
      rw [hindex, hval, hrest]

end

abbrev Heap.Object (H : Heap) : Type := { x : ExprObject // x ∈ H.objects }

/-- `Expr::compare` answers for any state of the table in which only equal expressions are paired, as it answers
without the table: the order of the words. -/
theorem Heap.compareIn_eq (a b : H.Object) {equivs : Equivs} (h : H.Sound equivs) :
    ∃ equivs', a.1.compareIn name hash_value useEquivs b.1 equivs =
        some (Ord.compare (a.1.erase.code name hash_value) (b.1.erase.code name hash_value), equivs') ∧
      H.Sound equivs' := by
  obtain ⟨equivs', hcompare, -, hsound⟩ := (ExprObject.compareIn_follows a.1 b.1 a.2 b.2).result h
  exact ⟨equivs', hcompare, hsound⟩

theorem Heap.compare_eq (a b : H.Object) : a.1.compare name hash_value useEquivs b.1 =
    some (Ord.compare (a.1.erase.code name hash_value) (b.1.erase.code name hash_value)) := by
  obtain ⟨equivs', hcompare, -⟩ := H.compareIn_eq a b H.sound_nil
  unfold ExprObject.compare clearing
  rw [hcompare]
  rfl

theorem Heap.code_eq_iff (a b : H.Object) :
    Ord.compare (a.1.erase.code name hash_value) (b.1.erase.code name hash_value) = .eq ↔ a.1.erase = b.1.erase := by
  constructor
  · have hfollows : Follows H.Sound (a.1.compareIn name hash_value true b.1) _ _ _ :=
      ExprObject.compareIn_follows a.1 b.1 a.2 b.2
    obtain ⟨-, -, heq, -⟩ := hfollows.result H.sound_nil
    exact heq
  · intro heq
    rw [heq]
    exact Std.ReflOrd.compare_self

/-- `Expr::compare` is a total order of the expressions in memory: it never fails, is reflexive, antisymmetric in sign
and transitive, is `0` for structurally equal expressions only, which have one hash, and does not depend on the
table. -/
theorem exprCompare_total (name : ExprArray → List UInt8) (hash_value : APInt → BitVec 64) (H : Heap)
    (a b c : H.Object) :
    let cmp (x y : H.Object) := x.1.compare name hash_value true y.1
    cmp a a = some .eq ∧
      (∃ o, cmp a b = some o ∧ cmp b a = some o.swap ∧ (o = .eq ↔ a.1.erase = b.1.erase)) ∧
      (a.1.erase = b.1.erase → a.1.erase.hash name hash_value = b.1.erase.hash name hash_value) ∧
      (∀ o o' o'', cmp a b = some o → cmp b c = some o' → cmp a c = some o'' →
        o.isLE = true → o'.isLE = true → o''.isLE = true) ∧
      cmp a b = a.1.compare name hash_value false b.1 ∧
      ∀ equivs, H.Sound equivs → ∃ equivs', H.Sound equivs' ∧ ∃ o, cmp a b = some o ∧
        a.1.compareIn name hash_value true b.1 equivs = some (o, equivs') := by
  dsimp only
  simp only [Heap.compare_eq, Option.some.injEq]
  refine ⟨Std.ReflOrd.compare_self, ⟨_, rfl, Std.OrientedOrd.eq_swap, H.code_eq_iff a b⟩, fun heq => ?_, ?_, trivial,
    fun equivs hequivs => ?_⟩
  · rw [heq]
  · rintro o o' o'' rfl rfl rfl hab hbc
    exact Std.TransOrd.isLE_trans hab hbc
  · obtain ⟨equivs', hcompare, hsound⟩ := H.compareIn_eq a b hequivs
    exact ⟨equivs', hsound, _, rfl, hcompare⟩

def sumHeap : Heap where
  objects := { x | x = .constant 8 (.ofNat 8 5) ∨ x = .constant 16 (.ofNat 8 5) ∨
    x = .binary 24 .add (.constant 8 (.ofNat 8 5)) (.constant 16 (.ofNat 8 5)) }
  updates := ∅
  arrays := ∅
  kids_mem := by rintro x (rfl | rfl | rfl) <;> simp [ExprObject.kids]
  read_mem := by rintro p root head index (h | h | h) <;> cases h
  update_mem := fun _ _ _ _ h => absurd h id
  object_unique := by rintro x (rfl | rfl | rfl) y (rfl | rfl | rfl) <;> simp [ExprObject.address]
  update_unique := fun _ _ _ _ _ _ _ h => absurd h id
  array_unique := fun _ h => absurd h id

example : ∃ a b : sumHeap.Object, a ≠ b ∧ a.1.compare (fun _ => []) (fun _ => 0) true b.1 = some .eq :=
  ⟨⟨.constant 8 (.ofNat 8 5), Or.inl rfl⟩, ⟨.constant 16 (.ofNat 8 5), Or.inr (Or.inl rfl)⟩,
    fun h => absurd (congrArg (fun x : sumHeap.Object => x.1.address) h) (by decide), by decide⟩

end CgsKlee
