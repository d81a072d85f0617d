import CgsKlee.Core.Resolution

/-!
# The bound on the resolutions

A caller of `resolve` can bound the number of objects it wants, and a query of the solver or the whole search can time
out.  With a bound of two or more the search stops as soon as the list has that many entries, and says that it is
incomplete.  The first entry is not compared with the bound, so that a bound of one is no bound: the search lists every
object that the pointer may point into.
-/

namespace CgsKlee

open Symbolic

variable {T : ExprTheory} {ω : Type}

/-- The queries of a `TimingSolver`; one that fails has no answer. -/
structure FallibleSolver (T : ExprTheory) where
  mayBeTrue : List T.Expr → T.Expr → Option Bool
  mustBeTrue : List T.Expr → T.Expr → Option Bool
  getValue : List T.Expr → T.Expr → Option Nat

namespace FallibleSolver

def answering (B : Backend T) : FallibleSolver T where
  mayBeTrue cs e := some (B.mayBeTrue cs e)
  mustBeTrue cs e := some (B.mustBeTrue cs e)
  getValue cs e := some (B.getValue cs e)

/-- The answers that are given are right, for satisfiable constraints. -/
structure Right (S : FallibleSolver T) : Prop where
  mayBeTrue : ∀ {cs e b}, (T.models cs).Nonempty → T.width e = 1 → S.mayBeTrue cs e = some b →
    (b = true ↔ ∃ m ∈ T.models cs, T.Holds m e)
  mustBeTrue : ∀ {cs e b}, (T.models cs).Nonempty → T.width e = 1 → S.mustBeTrue cs e = some b →
    (b = true ↔ ∀ m ∈ T.models cs, T.Holds m e)
  getValue : ∀ {cs e v}, (T.models cs).Nonempty → S.getValue cs e = some v → ∃ m ∈ T.models cs, T.eval m e = v

theorem right_answering {B : Backend T} (hB : B.Exact) : (answering B).Right where
  mayBeTrue := by
    rintro cs e b hs hw ⟨⟩
    exact hB.mayBeTrue hs hw
  mustBeTrue := by
    rintro cs e b hs hw ⟨⟩
    exact hB.mustBeTrue hs hw
  getValue := by
    rintro cs e v hs ⟨⟩
    exact hB.getValue hs

section Search

variable (ctx : Context) (S : FallibleSolver T) (constraints : List T.Expr)

def checkPointerInObject (p : T.Expr) (maxResolutions : Nat) (op : MemoryObject × ω) (rl : List (MemoryObject × ω)) :
    PointerCheck × List (MemoryObject × ω) :=
  let inBounds := op.1.getBoundsCheckPointer ctx p
  match S.mayBeTrue constraints inBounds with
  | none => (.incomplete, rl)
  | some false => (.unknown, rl)
  | some true =>
    let rl := rl ++ [op]
    if rl.length = 1 then
      match S.mustBeTrue constraints inBounds with
      | none => (.incomplete, rl)
      | some true => (.complete, rl)
      | some false => (.unknown, rl)
    else if rl.length = maxResolutions then (.incomplete, rl)
    else (.unknown, rl)

/-- The backwards search of `AddressSpace::resolve`: what it returns, if it does, and the resolution list.  `late` says
whether the timeout is over when the search comes to an object. -/
def resolveBackwards (late : MemoryObject → Bool) (p : T.Expr) (maxResolutions : Nat) :
    List (MemoryObject × ω) → List (MemoryObject × ω) → Option Bool × List (MemoryObject × ω)
  | [], rl => (none, rl)
  | op :: rest, rl =>
    if late op.1 then (some true, rl)
    else
      match checkPointerInObject ctx S constraints p maxResolutions op rl with
      | (.complete, rl) => (some false, rl)
      | (.incomplete, rl) => (some true, rl)
      | (.unknown, rl) =>
        match S.mustBeTrue constraints (T.ule (op.1.getBaseExpr ctx T) p) with
        | none => (some true, rl)
        | some true => (none, rl)
        | some false => resolveBackwards late p maxResolutions rest rl

/-- The forwards search of `AddressSpace::resolve`. -/
def resolveForwards (late : MemoryObject → Bool) (p : T.Expr) (maxResolutions : Nat) :
    List (MemoryObject × ω) → List (MemoryObject × ω) → Bool × List (MemoryObject × ω)
  | [], rl => (false, rl)
  | op :: rest, rl =>
    if late op.1 then (true, rl)
    else
      match S.mustBeTrue constraints (T.ult p (op.1.getBaseExpr ctx T)) with
      | none => (true, rl)
      | some true => (false, rl)
      | some false =>
        match checkPointerInObject ctx S constraints p maxResolutions op rl with
        | (.complete, rl) => (false, rl)
        | (.incomplete, rl) => (true, rl)
        | (.unknown, rl) => resolveForwards late p maxResolutions rest rl

/-- `AddressSpace::resolve`: whether it is incomplete, and the resolution list. -/
def resolve (late : MemoryObject → Bool) (as : AddressSpace ω) (p : T.Expr) (maxResolutions : Nat) :
    Bool × List (MemoryObject × ω) :=
  match T.constant? p with
  | some v => (false, (as.resolveOneConstant v).toList)
  | none =>
    match S.getValue constraints p with
    | none => (true, [])
    | some example_ =>
      match resolveBackwards ctx S constraints late p maxResolutions (as.upTo example_).reverse [] with
      | (some incomplete, rl) => (incomplete, rl)
      | (none, rl) => resolveForwards ctx S constraints late p maxResolutions (as.above example_) rl

end Search

variable {ctx : Context} {S : FallibleSolver T} {cs : List T.Expr} {late : MemoryObject → Bool} {p : T.Expr}
  {as : AddressSpace ω} {maxResolutions : Nat}

section Answering

variable {B : Backend T}

private theorem checkPointerInObject_answering (op : MemoryObject × ω) (rl : List (MemoryObject × ω)) :
    checkPointerInObject ctx (answering B) cs p maxResolutions op rl =
      CgsKlee.checkPointerInObject ctx B cs p maxResolutions op rl := by
  unfold checkPointerInObject CgsKlee.checkPointerInObject answering
  dsimp only
  cases B.mayBeTrue cs (op.1.getBoundsCheckPointer ctx p) with
  | false => rfl
  | true => cases B.mustBeTrue cs (op.1.getBoundsCheckPointer ctx p) <;> rfl

private theorem resolveBackwards_answering (ops rl : List (MemoryObject × ω)) :
    resolveBackwards ctx (answering B) cs (fun _ => false) p maxResolutions ops rl =
      CgsKlee.resolveBackwards ctx B cs p maxResolutions ops rl := by
  induction ops generalizing rl with
  | nil => rfl
  | cons op ops ih =>
    unfold resolveBackwards CgsKlee.resolveBackwards
    rw [checkPointerInObject_answering]
    rcases CgsKlee.checkPointerInObject ctx B cs p maxResolutions op rl with ⟨check, rl'⟩
    cases check with
    | complete => rfl
    | incomplete => rfl
    | unknown =>
      simp only [answering, Bool.false_eq_true, if_false]
      cases B.mustBeTrue cs (T.ule (op.1.getBaseExpr ctx T) p) with
      | true => rfl
      | false => exact ih rl'

private theorem resolveForwards_answering (ops rl : List (MemoryObject × ω)) :
    resolveForwards ctx (answering B) cs (fun _ => false) p maxResolutions ops rl =
      CgsKlee.resolveForwards ctx B cs p maxResolutions ops rl := by
  induction ops generalizing rl with
  | nil => rfl
  | cons op ops ih =>
    unfold resolveForwards CgsKlee.resolveForwards
    rw [checkPointerInObject_answering]
    simp only [answering, Bool.false_eq_true, if_false]
    cases B.mustBeTrue cs (T.ult p (op.1.getBaseExpr ctx T)) with
    | true => rfl
    | false =>
      simp only [Bool.false_eq_true, if_false]
      rcases CgsKlee.checkPointerInObject ctx B cs p maxResolutions op rl with ⟨check, rl'⟩
      cases check with
      | complete => rfl
      | incomplete => rfl
      | unknown => exact ih rl'

theorem resolve_answering :
    resolve ctx (answering B) cs (fun _ => false) as p maxResolutions = as.resolve ctx B cs p maxResolutions := by
  unfold resolve AddressSpace.resolve
  cases T.constant? p with
  | some v => rfl
  | none =>
    simp only [show (answering B).getValue cs p = some (B.getValue cs p) from rfl, resolveBackwards_answering]
    rcases CgsKlee.resolveBackwards ctx B cs p maxResolutions (as.upTo (B.getValue cs p)).reverse [] with ⟨r, rl⟩
    cases r with
    | some r => rfl
    | none => exact resolveForwards_answering _ rl

end Answering

section Bounded

variable (ctx S cs late p as)

/-- The search goes on with fewer than `n` entries only, and `stopped` is its answer when it has `n`. -/
private def Bounded {α : Type} (n : Nat) (stopped : α) (result : α × List (MemoryObject × ω)) : Prop :=
  result.2.length < n ∨ result.2.length = n ∧ result.1 = stopped

private theorem checkPointerInObject_bounded (hn : 2 ≤ maxResolutions) (op : MemoryObject × ω)
    {rl : List (MemoryObject × ω)} (h : rl.length < maxResolutions) :
    Bounded maxResolutions .incomplete (checkPointerInObject ctx S cs p maxResolutions op rl) := by
  unfold checkPointerInObject
  dsimp only
  split
  · exact .inl h
  · exact .inl h
  · have hlen : (rl ++ [op]).length = rl.length + 1 := by simp
    split
    · -- the first entry is below a bound of two or more
      rename_i hone
      split <;> exact .inl (by dsimp only; omega)
    · split
      · rename_i heq
        exact .inr ⟨heq, rfl⟩
      · exact .inl (by dsimp only; omega)

private theorem resolveBackwards_bounded (hn : 2 ≤ maxResolutions) (ops : List (MemoryObject × ω))
    {rl : List (MemoryObject × ω)} (h : rl.length < maxResolutions) :
    Bounded maxResolutions (some true) (resolveBackwards ctx S cs late p maxResolutions ops rl) := by
  induction ops generalizing rl with
  | nil => exact .inl h
  | cons op ops ih =>
    have hcheck := checkPointerInObject_bounded ctx S cs p hn op h
    unfold resolveBackwards
    split
    · exact .inl h
    · split <;> rename_i rl' heq <;> rw [heq] at hcheck <;> rcases hcheck with hlt | ⟨hlen, hstop⟩
      · exact .inl hlt
      · cases hstop
      · exact .inl hlt
      · exact .inr ⟨hlen, rfl⟩
      · split
        · exact .inl hlt
        · exact .inl hlt
        · exact ih hlt
      · cases hstop

private theorem resolveForwards_bounded (hn : 2 ≤ maxResolutions) (ops : List (MemoryObject × ω))
    {rl : List (MemoryObject × ω)} (h : rl.length < maxResolutions) :
    Bounded maxResolutions true (resolveForwards ctx S cs late p maxResolutions ops rl) := by
  induction ops generalizing rl with
  | nil => exact .inl h
  | cons op ops ih =>
    have hcheck := checkPointerInObject_bounded ctx S cs p hn op h
    unfold resolveForwards
    split
    · exact .inl h
    · split
      · exact .inl h
      · exact .inl h
      · split <;> rename_i rl' heq <;> rw [heq] at hcheck <;> rcases hcheck with hlt | ⟨hlen, hstop⟩
        · exact .inl hlt
        · cases hstop
        · exact .inl hlt
        · exact .inr ⟨hlen, rfl⟩
        · exact ih hlt
        · cases hstop

private theorem resolve_bounded (hn : 2 ≤ maxResolutions) :
    Bounded maxResolutions true (resolve ctx S cs late as p maxResolutions) := by
  unfold resolve
  split
  · rename_i v _
    have hle : (as.resolveOneConstant v).toList.length ≤ 1 := by cases as.resolveOneConstant v <;> simp
    exact .inl (by dsimp only; omega)
  · split
    · exact .inl (by dsimp only [List.length_nil]; omega)
    · rename_i v _
      have hback := resolveBackwards_bounded ctx S cs late p hn (as.upTo v).reverse
        (show [].length < maxResolutions by rw [List.length_nil]; omega)
      split <;> rename_i heq <;> rw [heq] at hback <;> rcases hback with hlt | ⟨hlen, hstop⟩
      · exact .inl hlt
      · exact .inr ⟨hlen, Option.some.inj hstop⟩
      · exact resolveForwards_bounded ctx S cs late p hn _ hlt
      · cases hstop

end Bounded

section One

private theorem checkPointerInObject_one (op : MemoryObject × ω) (rl : List (MemoryObject × ω)) :
    checkPointerInObject ctx S cs p 1 op rl = checkPointerInObject ctx S cs p 0 op rl := by
  unfold checkPointerInObject
  dsimp only
  split
  · rfl
  · rfl
  · split
    · rfl
    · rename_i hone
      rw [if_neg (by simp)]

private theorem resolveBackwards_one (ops rl : List (MemoryObject × ω)) :
    resolveBackwards ctx S cs late p 1 ops rl = resolveBackwards ctx S cs late p 0 ops rl := by
  induction ops generalizing rl with
  | nil => rfl
  | cons op ops ih =>
    unfold resolveBackwards
    simp only [checkPointerInObject_one, ih]

private theorem resolveForwards_one (ops rl : List (MemoryObject × ω)) :
    resolveForwards ctx S cs late p 1 ops rl = resolveForwards ctx S cs late p 0 ops rl := by
  induction ops generalizing rl with
  | nil => rfl
  | cons op ops ih =>
    unfold resolveForwards
    simp only [checkPointerInObject_one, ih]

theorem resolve_one : resolve ctx S cs late as p 1 = resolve ctx S cs late as p 0 := by
  unfold resolve
  simp only [resolveBackwards_one, resolveForwards_one]

variable (maxResolutions late)

/-- What a search adds to the list: some of the objects it looks at, in their order, that the pointer may point
into. -/
private def Finds {α : Type} (cs : List T.Expr) (p : T.Expr) (ops rl : List (MemoryObject × ω))
    (result : α × List (MemoryObject × ω)) : Prop :=
  ∃ found, result.2 = rl ++ found ∧ found.Sublist ops ∧ ∀ op ∈ found, MayPointInto cs p op

private theorem Finds.nothing {α : Type} (ops rl : List (MemoryObject × ω)) (answer : α) :
    Finds cs p ops rl (answer, rl) :=
  ⟨[], by simp, List.nil_sublist ops, by simp⟩

private theorem Finds.step {α β : Type} {op : MemoryObject × ω} {ops rl rl' : List (MemoryObject × ω)} {a : α}
    {result : β × List (MemoryObject × ω)} (h : Finds cs p [op] rl (a, rl')) (h' : Finds cs p ops rl' result) :
    Finds cs p (op :: ops) rl result := by
  obtain ⟨found, heq, hsub, hall⟩ := h
  obtain ⟨found', heq', hsub', hall'⟩ := h'
  refine ⟨found ++ found', ?_, hsub.append hsub', ?_⟩
  · rw [heq', show rl' = rl ++ found from heq, List.append_assoc]
  · intro x hx
    rcases List.mem_append.1 hx with hx | hx
    · exact hall x hx
    · exact hall' x hx

private theorem checkPointerInObject_finds (hS : S.Right) (hs : (T.models cs).Nonempty)
    (hp : T.width p = ctx.pointerWidth) {op : MemoryObject × ω} (hf : op.1.Fits ctx) (rl : List (MemoryObject × ω)) :
    Finds cs p [op] rl (checkPointerInObject ctx S cs p maxResolutions op rl) := by
  unfold checkPointerInObject
  dsimp only
  split
  · exact .nothing _ _ _
  · exact .nothing _ _ _
  · rename_i hmay
    have hpoint : MayPointInto cs p op := by
      obtain ⟨m, hm, hin⟩ := (hS.mayBeTrue hs (by simp) hmay).1 rfl
      exact ⟨m, hm, (MemoryObject.holds_getBoundsCheckPointer hf hp m).1 hin⟩
    have hadd : ∀ {α : Type} (answer : α), Finds cs p [op] rl (answer, rl ++ [op]) := fun answer =>
      ⟨[op], rfl, List.Sublist.refl _, by simpa using hpoint⟩
    split
    · split <;> exact hadd _
    · split <;> exact hadd _

private theorem resolveBackwards_finds (hS : S.Right) (hs : (T.models cs).Nonempty)
    (hp : T.width p = ctx.pointerWidth) {ops : List (MemoryObject × ω)} (hf : ∀ op ∈ ops, op.1.Fits ctx)
    (rl : List (MemoryObject × ω)) : Finds cs p ops rl (resolveBackwards ctx S cs late p maxResolutions ops rl) := by
  induction ops generalizing rl with
  | nil => exact .nothing _ _ _
  | cons op ops ih =>
    have hcheck := checkPointerInObject_finds maxResolutions hS hs hp (hf op (by simp)) rl
    unfold resolveBackwards
    split
    · exact .nothing _ _ _
    · split <;> rename_i rl' heq <;> rw [heq] at hcheck
      · exact hcheck.step (.nothing _ _ _)
      · exact hcheck.step (.nothing _ _ _)
      · split
        · exact hcheck.step (.nothing _ _ _)
        · exact hcheck.step (.nothing _ _ _)
        · exact hcheck.step (ih (fun x hx => hf x (by simp [hx])) rl')

private theorem resolveForwards_finds (hS : S.Right) (hs : (T.models cs).Nonempty)
    (hp : T.width p = ctx.pointerWidth) {ops : List (MemoryObject × ω)} (hf : ∀ op ∈ ops, op.1.Fits ctx)
    (rl : List (MemoryObject × ω)) : Finds cs p ops rl (resolveForwards ctx S cs late p maxResolutions ops rl) := by
  induction ops generalizing rl with
  | nil => exact .nothing _ _ _
  | cons op ops ih =>
    have hcheck := checkPointerInObject_finds maxResolutions hS hs hp (hf op (by simp)) rl
    unfold resolveForwards
    split
    · exact .nothing _ _ _
    · split
      · exact .nothing _ _ _
      · exact .nothing _ _ _
      · split <;> rename_i rl' heq <;> rw [heq] at hcheck
        · exact hcheck.step (.nothing _ _ _)
        · exact hcheck.step (.nothing _ _ _)
        · exact hcheck.step (ih (fun x hx => hf x (by simp [hx])) rl')

private theorem resolve_length_le_one (hS : S.Right) (hs : (T.models cs).Nonempty) (hp : T.width p = ctx.pointerWidth)
    (hf : ∀ op ∈ as.objects, op.1.Fits ctx)
    (hone : ∀ a ∈ as.objects, ∀ b ∈ as.objects, MayPointInto cs p a → MayPointInto cs p b → a = b) :
    (resolve ctx S cs late as p 0).2.length ≤ 1 := by
  have hle : ∀ {l : List (MemoryObject × ω)}, l.Nodup → (∀ op ∈ l, op ∈ as.objects ∧ MayPointInto cs p op) →
      l.length ≤ 1 := by
    intro l hnodup hall
    match l, hnodup, hall with
    | [], _, _ => simp
    | [_], _, _ => simp
    | a :: b :: _, hnodup, hall =>
      obtain ⟨ha, hma⟩ := hall a (by simp)
      obtain ⟨hb, hmb⟩ := hall b (by simp)
      rw [hone a ha b hb hma hmb] at hnodup
      simp at hnodup
  unfold resolve
  split
  · rename_i v _
    cases as.resolveOneConstant v <;> simp
  · split
    · simp
    · rename_i v _
      have hup : ∀ op ∈ (as.upTo v).reverse, op ∈ as.objects := fun op hop =>
        (List.mem_filter.1 (List.mem_reverse.1 hop)).1
      have hab : ∀ op ∈ as.above v, op ∈ as.objects := fun op hop => (List.mem_filter.1 hop).1
      have hback := resolveBackwards_finds late 0 hS hs hp
        (fun op hop => hf op (hup op hop)) []
      have hnup : (as.upTo v).reverse.Nodup := List.nodup_reverse.2 (as.nodup_objects.filter _)
      obtain ⟨found, heq, hsub, hall⟩ := hback
      rw [List.nil_append] at heq
      split
      · rename_i answer rl hr
        rw [hr] at heq
        rw [show rl = found from heq]
        exact hle (hsub.nodup hnup) fun op hop => ⟨hup op (hsub.subset hop), hall op hop⟩
      · rename_i rl hr
        rw [hr] at heq
        obtain ⟨found', heq', hsub', hall'⟩ := resolveForwards_finds late 0 hS hs hp
          (fun op hop => hf op (hab op hop)) rl
        rw [heq', show rl = found from heq]
        refine hle (List.nodup_append.2 ⟨hsub.nodup hnup, hsub'.nodup (as.nodup_objects.filter _), ?_⟩) ?_
        · -- the two searches look at different objects
          rintro x hx y hy rfl
          have h₁ := List.mem_filter.1 (List.mem_reverse.1 (hsub.subset hx))
          have h₂ := List.mem_filter.1 (hsub'.subset hy)
          simp only [decide_eq_true_eq] at h₁ h₂
          omega
        · intro op hop
          rcases List.mem_append.1 hop with hop | hop
          · exact ⟨hup op (hsub.subset hop), hall op hop⟩
          · exact ⟨hab op (hsub'.subset hop), hall' op hop⟩

end One

/-- The list has `n` entries at most, and the search answers that it is incomplete if it stopped because of them, that
is with `n` entries where the search without a bound, whose answer is `full`, gives another answer. -/
structure Respects (n : Nat) (full result : Bool × List (MemoryObject × ω)) : Prop where
  length_le : result.2.length ≤ n
  stopped : result.2.length = n → result ≠ full → result.1 = true

/-- A bound of two or more is respected for every address space, state and pointer, whatever the solver answers and
whenever time is over.  A bound of one is respected by all solvers whose answers are right if and only if the pointer
may point into one object at most. -/
theorem resolve_respects_iff (ctx : Context) (cs : List T.Expr) (as : AddressSpace ω) (p : T.Expr) :
    (∀ (S : FallibleSolver T) late maxResolutions, 2 ≤ maxResolutions →
      Respects maxResolutions (resolve ctx S cs late as p 0) (resolve ctx S cs late as p maxResolutions)) ∧
    ((T.models cs).Nonempty → (∀ op ∈ as.objects, op.1.Fits ctx) → as.Apart → T.width p = ctx.pointerWidth →
      ((∀ (S : FallibleSolver T) late, S.Right →
        Respects 1 (resolve ctx S cs late as p 0) (resolve ctx S cs late as p 1)) ↔
      ∀ a ∈ as.objects, ∀ b ∈ as.objects, MayPointInto cs p a → MayPointInto cs p b → a = b)) := by
  refine ⟨fun S late n hn => ?_, fun hs hf hd hp => ⟨fun h => ?_, fun h S late hS => ?_⟩⟩
  · rcases resolve_bounded ctx S cs late p as hn with hlt | ⟨hlen, hstop⟩
    · exact ⟨hlt.le, fun hlen => absurd hlen hlt.ne⟩
    · exact ⟨hlen.le, fun _ _ => hstop⟩
  · -- a solver that answers everything finds all of them
    obtain ⟨B, hB⟩ := exists_exact_backend T
    have hle := (h (answering B) (fun _ => false) (right_answering hB)).length_le
    obtain ⟨rl, hrl, -, hmem⟩ := AddressSpace.resolve_spec hB hs (hd.disjoint hf) hp
    rw [resolve_one, resolve_answering, hrl] at hle
    intro a ha b hb hma hmb
    have ha' := (hmem a).2 ⟨ha, hma⟩
    have hb' := (hmem b).2 ⟨hb, hmb⟩
    match rl, hle, ha', hb' with
    | [], _, ha', _ => cases ha'
    | [x], _, ha', hb' => rw [List.mem_singleton.1 ha', List.mem_singleton.1 hb']
    | _ :: _ :: _, hle, _, _ => simp at hle
  · rw [resolve_one]
    exact ⟨resolve_length_le_one late hS hs hp hf h, fun _ hne => absurd rfl hne⟩

/-- A pointer to the last byte of an object or to the empty object behind it resolves to both, with a bound of one. -/
theorem resolve_one_finds_two :
    resolve target64 (answering (shallowBackend 1)) [] (fun _ => false) fourAndEmpty lastOrEmpty 1 =
        (false, [(⟨16, 4⟩, ()), (⟨20, 0⟩, ())]) ∧
      ¬Respects 1
        (resolve target64 (answering (shallowBackend 1)) [] (fun _ => false) fourAndEmpty lastOrEmpty 0)
        (resolve target64 (answering (shallowBackend 1)) [] (fun _ => false) fourAndEmpty lastOrEmpty 1) := by
  have htwo : resolve target64 (answering (shallowBackend 1)) [] (fun _ => false) fourAndEmpty lastOrEmpty 1 =
      (false, [(⟨16, 4⟩, ()), (⟨20, 0⟩, ())]) := by decide
  refine ⟨htwo, fun h => ?_⟩
  have hle := h.length_le
  rw [htwo] at hle
  exact absurd hle (by decide)

/-- With a bound of two the search stops at the second object, and is incomplete. -/
theorem resolve_respects_two :
    Respects 2
      (resolve target64 (answering (shallowBackend 1)) [] (fun _ => false) fourAndEmpty lastOrEmpty 0)
      (resolve target64 (answering (shallowBackend 1)) [] (fun _ => false) fourAndEmpty lastOrEmpty 2) :=
  (resolve_respects_iff target64 [] fourAndEmpty lastOrEmpty).1 (answering (shallowBackend 1))
    (fun _ => false) 2 (by decide)

end FallibleSolver

end CgsKlee
