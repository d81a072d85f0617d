import CgsKlee.Core.SeedInfo
import CgsKlee.Expr.ConstraintsSound
import Mathlib.Logic.Relation

/-!
# The lengths of seed bindings

`executeMakeSymbolic` binds the new array in every seed of the state to the next object of the seed, and three options
say what happens if the object has another size than the array.  `patchSeed` takes it that a binding has a byte for
every index of the array.  This is so if every object that is shorter than its array is filled up with zeros, as with
`ZeroSeedExtension`; with `AllowSeedExtension` alone the binding is too short.
-/

namespace CgsKlee

open Replay (uniqueName)

/-- `AllowSeedExtension`, `AllowSeedTruncation`, `ZeroSeedExtension` and `NamedSeedMatching`. -/
structure SeedOptions where
  allowSeedExtension : Bool
  allowSeedTruncation : Bool
  zeroSeedExtension : Bool
  namedSeedMatching : Bool

/-- The fields of a `MemoryObject` that are matched with a seed. -/
structure SeededObject where
  name : List UInt8
  size : UInt32

/-- `SeedInfo`.  The objects that are used are given by their positions. -/
structure SeedInfo where
  assignment : Assignment
  input : KTest
  inputPosition : Nat
  used : List Nat

namespace SeedInfo

def ofInput (input : KTest) : SeedInfo := ⟨⟨[]⟩, input, 0, []⟩

def getNextInput (si : SeedInfo) (mo : SeededObject) (byName : Bool) : Option KTestObject × SeedInfo :=
  let objects := si.input.objects
  if byName then
    match objects.zipIdx.find? fun o => o.1.name.chars = mo.name ∧ o.2 ∉ si.used with
    | some (obj, i) => (some obj, { si with used := i :: si.used })
    | none =>
      -- if first unused input matches in size then accept that as well
      match objects.zipIdx.find? fun o => o.2 ∉ si.used with
      | some (obj, i) =>
        if obj.numBytes = mo.size.toNat then (some obj, { si with used := i :: si.used }) else (none, si)
      | none => (none, si)
  else
    match objects[si.inputPosition]? with
    | none => (none, si)
    | some obj => (some obj, { si with inputPosition := si.inputPosition + 1 })

end SeedInfo

/-- The errors that end a state whose seeds do not fit. -/
inductive SeedError
  | ranOut
  | sizeMismatch (mo : SeededObject) (obj : KTestObject)

def SeedError.message : SeedError → List UInt8
  | .ranOut => "ran out of inputs during seeding".toUTF8.data.toList
  | .sizeMismatch mo obj =>
    "replace size mismatch: ".toUTF8.data.toList ++ mo.name ++ [91] ++ Replay.utostr mo.size.toNat ++ [93] ++
      " vs ".toUTF8.data.toList ++ obj.name.chars ++ [91] ++ Replay.utostr obj.numBytes ++ [93] ++
      " in test\n".toUTF8.data.toList

/-- The part of an execution state that concerns seeds. -/
structure SeededState where
  arrayNames : List (List UInt8)
  seeds : List SeedInfo

section MakeSymbolic

variable (o : SeedOptions) (address : List UInt8 → UInt32 → Nat)

/-- `arrayCache.CreateArray`; `address` says where the array of that name and size is. -/
def createArray (name : List UInt8) (size : UInt32) : ExprArray := ⟨address name size, size.toNat, 32, 8, []⟩

def SeedOptions.mismatch (mo : SeededObject) (obj : KTestObject) : Bool :=
  obj.numBytes ≠ mo.size.toNat &&
    ((!(o.allowSeedExtension || o.zeroSeedExtension) && decide (obj.numBytes < mo.size.toNat)) ||
      (!o.allowSeedTruncation && decide (mo.size.toNat < obj.numBytes)))

def bindSeed (mo : SeededObject) (array : ExprArray) (si : SeedInfo) : Except SeedError SeedInfo :=
  let (obj, si) := si.getNextInput mo o.namedSeedMatching
  let bind (values : List Nat) : SeedInfo :=
    { si with assignment := ⟨Assignment.setBinding array values si.assignment.bindings⟩ }
  match obj with
  | none =>
    if o.zeroSeedExtension then .ok (bind (List.replicate mo.size.toNat 0))
    else if !o.allowSeedExtension then .error .ranOut
    else .ok si
  | some obj =>
    if o.mismatch mo obj then .error (.sizeMismatch mo obj)
    else
      let values := (obj.bytes.take (min obj.numBytes mo.size.toNat)).map UInt8.toNat ++
        (si.assignment.find array).getD []
      if o.zeroSeedExtension then .ok (bind (values ++ List.replicate (mo.size.toNat - obj.numBytes) 0))
      else .ok (bind values)

/-- `executeMakeSymbolic` for a state with seeds.  The first seed that does not fit ends the state. -/
def SeededState.executeMakeSymbolic (s : SeededState) (mo : SeededObject) (name : List UInt8) :
    Except SeedError SeededState := do
  let array := createArray address (uniqueName name s.arrayNames) mo.size
  let seeds ← s.seeds.mapM (bindSeed o mo array)
  return ⟨s.arrayNames ++ [uniqueName name s.arrayNames], seeds⟩

end MakeSymbolic

/-- Every binding has a byte for every index of its array. -/
def Assignment.LongEnough (a : Assignment) : Prop := ∀ b ∈ a.bindings, b.1.size ≤ b.2.length

/-- The condition reads arrays at constant indices only below their sizes. -/
def Expr.InBounds (condition : Expr) : Prop := ∀ x ∈ condition.directReads, x.2 < x.1.size

def SeedInfo.InRange (si : SeedInfo) : Prop :=
  ∀ (constArrayOpt useVisitorHash rewriteEqualities : Bool) (S : TimingSolver) (constraints : ConstraintSet)
    (condition : Expr), condition.InBounds →
    patchSeed constArrayOpt useVisitorHash rewriteEqualities S constraints condition si.assignment ≠ .error .outOfRange

section Patch

variable {opt hash rewrite : Bool} {S : TimingSolver} {C : ConstraintSet} {a : Assignment} {x : ExprArray × Nat}
  {bytes : List (ExprArray × Nat)} {s s' : ConstraintSet × Assignment}

theorem bind_eq_outOfRange {α β : Type} {y : Except SeedFault α} {f : α → Except SeedFault β}
    (h : y >>= f = .error .outOfRange) : y = .error .outOfRange ∨ ∃ r, y = .ok r ∧ f r = .error .outOfRange := by
  cases y with
  | error e =>
    cases h
    exact Or.inl rfl
  | ok r => exact Or.inr ⟨r, rfl, h⟩

theorem assert_ne_outOfRange {α : Type} (y : Option α) : SeedFault.assert y ≠ .error .outOfRange := by
  cases y <;> simp [SeedFault.assert]

theorem bind_eq_ok {α β : Type} {y : Except SeedFault α} {f : α → Except SeedFault β} {r : β}
    (h : y >>= f = .ok r) : ∃ z, y = .ok z ∧ f z = .ok r := by
  cases y with
  | error e => cases h
  | ok z => exact ⟨z, rfl, h⟩

theorem Assignment.LongEnough.setByte (h : a.LongEnough) (array : ExprArray) (i v : Nat) :
    (a.setByte array i v).LongEnough := by
  intro b hb
  obtain ⟨b, hmem, rfl⟩ := List.mem_map.mp hb
  split
  · rw [List.length_set]
    exact h b hmem
  · exact h b hmem

theorem patchByte_longEnough (h : s.2.LongEnough) (hs : patchByte opt hash rewrite S s x = .ok s') :
    s'.2.LongEnough := by
  obtain ⟨required, a⟩ := s
  obtain ⟨array, i⟩ := x
  unfold patchByte at hs
  obtain ⟨read, -, hs⟩ := bind_eq_ok hs
  split at hs
  · cases hs
    exact h
  · split at hs
    · cases hs
    · obtain ⟨isSeed, -, hs⟩ := bind_eq_ok hs
      split at hs
      · dsimp only at hs
        split at hs
        · obtain ⟨isValue, -, hs⟩ := bind_eq_ok hs
          obtain ⟨required', -, hs⟩ := bind_eq_ok hs
          cases hs
          exact Assignment.LongEnough.setByte h _ _ _
        · cases hs
      · obtain ⟨required', -, hs⟩ := bind_eq_ok hs
        cases hs
        exact h

theorem patchByte_inRange (h : s.2.LongEnough) (hx : x.2 < x.1.size) :
    patchByte opt hash rewrite S s x ≠ .error .outOfRange := by
  obtain ⟨required, a⟩ := s
  obtain ⟨array, i⟩ := x
  intro hs
  unfold patchByte at hs
  rcases bind_eq_outOfRange hs with hs | ⟨read, -, hs⟩
  · exact assert_ne_outOfRange _ hs
  · split at hs
    · cases hs
    · rename_i values hf
      have hlen : i < values.length := hx.trans_le (h _ (Assignment.mem_of_find hf))
      rw [List.getElem?_eq_getElem hlen] at hs
      dsimp only at hs
      rcases bind_eq_outOfRange hs with hs | ⟨isSeed, -, hs⟩
      · exact assert_ne_outOfRange _ hs
      · split at hs
        · split at hs
          · rcases bind_eq_outOfRange hs with hs | ⟨isValue, -, hs⟩
            · exact assert_ne_outOfRange _ hs
            · rcases bind_eq_outOfRange hs with hs | ⟨required', -, hs⟩
              · exact assert_ne_outOfRange _ hs
              · cases hs
          · cases hs
        · rcases bind_eq_outOfRange hs with hs | ⟨required', -, hs⟩
          · exact assert_ne_outOfRange _ hs
          · cases hs

theorem patchBytes_longEnough (h : s.2.LongEnough) (hs : patchBytes opt hash rewrite S s bytes = .ok s') :
    s'.2.LongEnough := by
  induction bytes generalizing s with
  | nil =>
    cases hs
    exact h
  | cons x bytes ih =>
    unfold patchBytes at hs
    rw [List.foldlM_cons] at hs
    obtain ⟨s₁, hs₁, hs⟩ := bind_eq_ok hs
    exact ih (patchByte_longEnough h hs₁) hs

theorem patchBytes_inRange (h : s.2.LongEnough) (hbytes : ∀ x ∈ bytes, x.2 < x.1.size) :
    patchBytes opt hash rewrite S s bytes ≠ .error .outOfRange := by
  induction bytes generalizing s with
  | nil => exact nofun
  | cons x bytes ih =>
    obtain ⟨hx, hbytes⟩ := List.forall_mem_cons.mp hbytes
    intro hs
    unfold patchBytes at hs
    rw [List.foldlM_cons] at hs
    rcases bind_eq_outOfRange hs with hs | ⟨s₁, hs₁, hs⟩
    · exact patchByte_inRange h hx hs
    · exact ih (patchByte_longEnough h hs₁) hbytes hs

theorem lt_size_of_mem_allBytes (hx : x ∈ a.allBytes) : x.2 < x.1.size := by
  obtain ⟨b, -, hx⟩ := List.mem_flatMap.mp hx
  obtain ⟨i, hi, rfl⟩ := List.mem_map.mp hx
  exact List.mem_range.mp hi

theorem patchSeed_ne_outOfRange {condition : Expr} (h : a.LongEnough) (hc : condition.InBounds) :
    patchSeed opt hash rewrite S C condition a ≠ .error .outOfRange := by
  intro hs
  unfold patchSeed at hs
  rcases bind_eq_outOfRange hs with hs | ⟨required, -, hs⟩
  · exact assert_ne_outOfRange _ hs
  rcases bind_eq_outOfRange hs with hs | ⟨s₁, hs₁, hs⟩
  · exact patchBytes_inRange (s := (required, a)) h hc hs
  have h₁ := patchBytes_longEnough (s := (required, a)) h hs₁
  dsimp only at hs
  rcases bind_eq_outOfRange hs with hs | ⟨e, -, hs⟩
  · exact assert_ne_outOfRange _ hs
  split at hs
  · cases hs
  rcases bind_eq_outOfRange hs with hs | ⟨s₂, hs₂, hs⟩
  · exact patchBytes_inRange (s := s₁) h₁ (fun x hx => lt_size_of_mem_allBytes hx) hs
  rcases bind_eq_outOfRange hs with hs | ⟨e', -, hs⟩
  · exact assert_ne_outOfRange _ hs
  split at hs <;> cases hs

theorem patchSeed_longEnough {condition : Expr} {a' : Assignment} (h : a.LongEnough)
    (hs : patchSeed opt hash rewrite S C condition a = .ok a') : a'.LongEnough := by
  unfold patchSeed at hs
  obtain ⟨required, -, hs⟩ := bind_eq_ok hs
  obtain ⟨s₁, hs₁, hs⟩ := bind_eq_ok hs
  have h₁ := patchBytes_longEnough (s := (required, a)) h hs₁
  dsimp only at hs
  obtain ⟨e, -, hs⟩ := bind_eq_ok hs
  split at hs
  · cases hs
    exact h₁
  · obtain ⟨s₂, hs₂, hs⟩ := bind_eq_ok hs
    have h₂ := patchBytes_longEnough (s := s₁) h₁ hs₂
    obtain ⟨e', -, hs⟩ := bind_eq_ok hs
    split at hs
    · cases hs
      exact h₂
    · cases hs

end Patch

theorem Assignment.mem_setBinding {array : ExprArray} {values : List Nat} {bindings : List (ExprArray × List Nat)}
    {b : ExprArray × List Nat} (h : b ∈ setBinding array values bindings) : b = (array, values) ∨ b ∈ bindings := by
  induction bindings with
  | nil => exact Or.inl (List.mem_singleton.mp h)
  | cons x bindings ih =>
    unfold setBinding at h
    split at h
    · rcases List.mem_cons.mp h with rfl | h
      · exact Or.inl rfl
      · exact Or.inr (.tail _ h)
    · split at h
      · rcases List.mem_cons.mp h with rfl | h
        · exact Or.inr (.head _)
        · exact (ih h).imp_right (.tail _)
      · exact List.mem_cons.mp h

theorem Assignment.find_setBinding (array : ExprArray) (values : List Nat) (bindings : List (ExprArray × List Nat)) :
    (⟨setBinding array values bindings⟩ : Assignment).find array = some values := by
  unfold find
  induction bindings with
  | nil => simp [setBinding]
  | cons x bindings ih =>
    unfold setBinding
    split
    · simp
    · rename_i hx
      split
      · simpa [hx] using ih
      · simp

theorem SeedInfo.assignment_getNextInput (si : SeedInfo) (mo : SeededObject) (byName : Bool) :
    (si.getNextInput mo byName).2.assignment = si.assignment := by
  unfold getNextInput
  dsimp only
  split
  · split
    · rfl
    · split
      · split <;> rfl
      · rfl
  · split <;> rfl

section Bind

variable {o : SeedOptions} {mo : SeededObject} {array : ExprArray} {si si' : SeedInfo}

/-- The seed is filled up, or the next object is long enough. -/
def SeedOptions.FitsSeed (o : SeedOptions) (mo : SeededObject) (si : SeedInfo) : Prop :=
  o.zeroSeedExtension = true ∨
    ∀ obj, (si.getNextInput mo o.namedSeedMatching).1 = some obj → mo.size.toNat ≤ obj.numBytes

theorem bindSeed_cases (h : bindSeed o mo array si = .ok si') :
    (si.getNextInput mo o.namedSeedMatching).1 = none ∧ si'.assignment = si.assignment ∨
      ∃ values, si'.assignment = ⟨Assignment.setBinding array values si.assignment.bindings⟩ ∧
        ((si.getNextInput mo o.namedSeedMatching).1 = none ∧ values = List.replicate mo.size.toNat 0 ∨
        ∃ obj, (si.getNextInput mo o.namedSeedMatching).1 = some obj ∧
          values.length = min obj.numBytes mo.size.toNat + ((si.assignment.find array).getD []).length +
            if o.zeroSeedExtension then mo.size.toNat - obj.numBytes else 0) := by
  have hassign := si.assignment_getNextInput mo o.namedSeedMatching
  unfold bindSeed at h
  generalize si.getNextInput mo o.namedSeedMatching = next at h hassign ⊢
  obtain ⟨obj, si₁⟩ := next
  dsimp only at h hassign ⊢
  cases obj with
  | none =>
    dsimp only at h
    split at h
    · cases h
      exact Or.inr ⟨_, by rw [hassign], Or.inl ⟨rfl, rfl⟩⟩
    · split at h
      · cases h
      · cases h
        exact Or.inl ⟨rfl, hassign⟩
  | some obj =>
    right
    dsimp only at h
    have hlen : ((obj.bytes.take (min obj.numBytes mo.size.toNat)).map UInt8.toNat).length =
        min obj.numBytes mo.size.toNat := by
      rw [List.length_map, List.length_take]
      unfold KTestObject.numBytes
      omega
    rw [hassign] at h
    split at h
    · cases h
    · split at h
      · rename_i hzero
        cases h
        refine ⟨_, rfl, Or.inr ⟨obj, rfl, ?_⟩⟩
        rw [if_pos hzero, List.length_append, List.length_append, hlen, List.length_replicate]
      · rename_i hzero
        cases h
        refine ⟨_, rfl, Or.inr ⟨obj, rfl, ?_⟩⟩
        rw [if_neg hzero, List.length_append, hlen, Nat.add_zero]

theorem bindSeed_longEnough (hsize : array.size = mo.size.toNat) (ha : si.assignment.LongEnough)
    (hfits : o.FitsSeed mo si) (h : bindSeed o mo array si = .ok si') : si'.assignment.LongEnough := by
  rcases bindSeed_cases h with ⟨-, heq⟩ | ⟨values, heq, hvalues⟩
  · rw [heq]
    exact ha
  · rw [heq]
    intro b hb
    rcases Assignment.mem_setBinding hb with rfl | hb
    · dsimp only
      rw [hsize]
      rcases hvalues with ⟨-, rfl⟩ | ⟨obj, hobj, hlen⟩
      · rw [List.length_replicate]
      · rw [hlen]
        rcases hfits with hzero | hlong
        · rw [if_pos hzero]
          omega
        · have := hlong obj hobj
          omega
    · exact ha b hb

theorem bindSeed_short (hnew : si.assignment.find array = none) (hfits : ¬o.FitsSeed mo si)
    (h : bindSeed o mo array si = .ok si') :
    ∃ values, si'.assignment.find array = some values ∧ values.length < mo.size.toNat := by
  unfold SeedOptions.FitsSeed at hfits
  rw [not_or, Bool.not_eq_true] at hfits
  obtain ⟨hzero, hshort⟩ := hfits
  simp only [not_forall, not_le] at hshort
  obtain ⟨obj, hobj, hlt⟩ := hshort
  rcases bindSeed_cases h with ⟨hnone, -⟩ | ⟨values, heq, ⟨hnone, -⟩ | ⟨obj', hobj', hlen⟩⟩
  · rw [hobj] at hnone
    cases hnone
  · rw [hobj] at hnone
    cases hnone
  · obtain rfl := Option.some.inj (hobj.symm.trans hobj')
    refine ⟨values, by rw [heq, Assignment.find_setBinding], ?_⟩
    rw [hlen, hnew, hzero]
    simp only [Option.getD_none, List.length_nil, Bool.false_eq_true, if_false]
    omega

end Bind

section Short

variable (id size i : Nat)

def byteIsZero : Expr := .cmp .eq (.ofNat 8 0) (.read ⟨id, size, 32, 8, []⟩ .nil (.ofNat 32 i))

variable {id size i}

theorem directReads_byteIsZero (hi : i < 2 ^ 32) :
    (byteIsZero id size i).directReads = [(⟨id, size, 32, 8, []⟩, i)] := by
  have hmod : (APInt.ofNat 32 i).toNat % 2 ^ 32 = i := by
    unfold APInt.ofNat APInt.toNat
    rw [BitVec.toNat_ofNat, Nat.mod_mod, Nat.mod_eq_of_lt hi]
  show [((⟨id, size, 32, 8, []⟩ : ExprArray), (APInt.ofNat 32 i).toNat % 2 ^ 32)] = _
  rw [hmod]

theorem exists_outOfRange {si : SeedInfo} {values : List Nat} (hsize : size < 2 ^ 32)
    (hf : si.assignment.find ⟨id, size, 32, 8, []⟩ = some values) (hshort : values.length < size) : ¬si.InRange := by
  intro hrange
  have hi : values.length < 2 ^ 32 := hshort.trans hsize
  have hreads : (byteIsZero id size values.length).directReads = [(⟨id, size, 32, 8, []⟩, values.length)] :=
    directReads_byteIsZero hi
  refine hrange false false false ⟨fun _ _ => false, fun _ _ => false, fun _ _ => .ofBool false⟩ []
    (byteIsZero id size values.length) ?_ ?_
  · intro x hx
    rw [hreads] at hx
    obtain rfl := List.mem_singleton.mp hx
    exact hshort
  · have hwt : (Expr.read ⟨id, size, 32, 8, []⟩ .nil (.ofNat 32 values.length)).WellTyped :=
      ⟨⟨fun h => (by cases h), (by decide : 32 ≤ 64), hsize.le⟩, trivial, trivial, rfl⟩
    have htyped : ConstraintSet.Typed ([] ++ [byteIsZero id size values.length]) :=
      ConstraintSet.typed_singleton.mpr ⟨⟨trivial, hwt, rfl⟩, rfl⟩
    have hindex : (APInt.ofNat 32 values.length).toNat = values.length := Nat.mod_eq_of_lt hi
    have hholds : ConstraintSet.HoldsAt (fun _ _ => 0) ([] ++ [byteIsZero id size values.length]) := by
      refine ConstraintSet.holdsAt_singleton.mpr ⟨⟨trivial, trivial, trivial, ?_⟩, rfl⟩
      rw [Expr.eval_ofNat, hindex]
      exact hshort
    obtain ⟨C, hC, -⟩ := ConstraintManager.addConstraint_spec false false false htyped hholds
    obtain ⟨read, hread, -⟩ := ReadExpr.create_builds false hwt
    have hbind : ∀ {α β : Type} (x : α) (f : α → Except SeedFault β), (Except.ok x >>= f) = f x := fun _ _ => rfl
    simp only [patchSeed, require, hC, SeedFault.assert, hbind, hreads, patchBytes, List.foldlM_cons, patchByte, hread,
      hf, List.getElem?_eq_none le_rfl]
    rfl

end Short

inductive SeedEvent
  | makeSymbolic (mo : SeededObject) (name : List UInt8)
  | patchSeed
  | branch

section Run

variable (o : SeedOptions) (address : List UInt8 → UInt32 → Nat)

/-- A step that is no error: an object is made symbolic, a seed is patched for a condition, or the state goes on with
some of its seeds after a branch. -/
inductive SeedStep : SeedEvent → SeededState → SeededState → Prop
  | makeSymbolic {s s' : SeededState} {mo : SeededObject} {name : List UInt8} :
    s.executeMakeSymbolic o address mo name = .ok s' → SeedStep (.makeSymbolic mo name) s s'
  | patchSeed {s : SeededState} {before after : List SeedInfo} {si : SeedInfo} {a : Assignment}
      {constArrayOpt useVisitorHash rewriteEqualities : Bool} {S : TimingSolver} {constraints : ConstraintSet}
      {condition : Expr} :
    s.seeds = before ++ si :: after →
      CgsKlee.patchSeed constArrayOpt useVisitorHash rewriteEqualities S constraints condition si.assignment = .ok a →
      SeedStep .patchSeed s { s with seeds := before ++ { si with assignment := a } :: after }
  | branch {s : SeededState} {seeds : List SeedInfo} : seeds ⊆ s.seeds → SeedStep .branch s { s with seeds }

/-- Every seed gets a binding that is long enough. -/
def SeedEvent.Fits (s : SeededState) : SeedEvent → Prop
  | .makeSymbolic mo _ => ∀ si ∈ s.seeds, o.FitsSeed mo si
  | .patchSeed | .branch => True

def FittingRun : SeededState → SeededState → Prop :=
  Relation.ReflTransGen fun s s' => ∃ e : SeedEvent, SeedStep o address e s s' ∧ e.Fits o s

variable {o address} {s s' : SeededState}

theorem mapM_ok {α β ε : Type} {f : α → Except ε β} {xs : List α} {ys : List β} (h : xs.mapM f = .ok ys) :
    List.Forall₂ (fun x y => f x = .ok y) xs ys := by
  induction xs generalizing ys with
  | nil =>
    cases h
    exact .nil
  | cons x xs ih =>
    rw [List.mapM_cons] at h
    cases hx : f x with
    | error e =>
      rw [hx] at h
      cases h
    | ok y =>
      cases hxs : xs.mapM f with
      | error e =>
        rw [hx, hxs] at h
        cases h
      | ok zs =>
        rw [hx, hxs] at h
        cases h
        exact .cons hx (ih hxs)

theorem exists_of_mem_right {α β : Type} {R : α → β → Prop} {xs : List α} {ys : List β} (h : List.Forall₂ R xs ys)
    {y : β} (hy : y ∈ ys) : ∃ x ∈ xs, R x y := by
  induction h with
  | nil => cases hy
  | cons hxy _ ih =>
    rcases List.mem_cons.mp hy with rfl | hy
    · exact ⟨_, .head _, hxy⟩
    · obtain ⟨x, hx, hR⟩ := ih hy
      exact ⟨x, .tail _ hx, hR⟩

theorem executeMakeSymbolic_ok {mo : SeededObject} {name : List UInt8}
    (h : s.executeMakeSymbolic o address mo name = .ok s') :
    List.Forall₂ (fun si si' => bindSeed o mo (createArray address (uniqueName name s.arrayNames) mo.size) si = .ok si')
      s.seeds s'.seeds := by
  unfold SeededState.executeMakeSymbolic at h
  dsimp only at h
  cases hseeds : s.seeds.mapM (bindSeed o mo (createArray address (uniqueName name s.arrayNames) mo.size)) with
  | error e =>
    rw [hseeds] at h
    cases h
  | ok seeds =>
    rw [hseeds] at h
    cases h
    exact mapM_ok hseeds

theorem step_longEnough {e : SeedEvent} (h : SeedStep o address e s s') (hfits : e.Fits o s)
    (hs : ∀ si ∈ s.seeds, si.assignment.LongEnough) : ∀ si ∈ s'.seeds, si.assignment.LongEnough := by
  cases h with
  | makeSymbolic h =>
    intro si' hsi'
    obtain ⟨si, hsi, hbind⟩ := exists_of_mem_right (executeMakeSymbolic_ok h) hsi'
    exact bindSeed_longEnough rfl (hs si hsi) (hfits si hsi) hbind
  | patchSeed hseeds h =>
    rw [hseeds, List.forall_mem_append, List.forall_mem_cons] at hs
    rw [List.forall_mem_append, List.forall_mem_cons]
    exact ⟨hs.1, patchSeed_longEnough hs.2.1 h, hs.2.2⟩
  | branch h => exact fun si hsi => hs si (h hsi)

theorem run_longEnough (h : FittingRun o address s s') (hs : ∀ si ∈ s.seeds, si.assignment.LongEnough) :
    ∀ si ∈ s'.seeds, si.assignment.LongEnough := by
  induction h with
  | refl => exact hs
  | tail _ step ih =>
    obtain ⟨e, hstep, hfits⟩ := step
    exact step_longEnough hstep hfits ih

theorem inRange_of_longEnough {si : SeedInfo} (h : si.assignment.LongEnough) : si.InRange :=
  fun _ _ _ _ _ _ hc => patchSeed_ne_outOfRange h hc

/-- In a run whose steps all fit, no binding is indexed beyond its end, in any state that is reached and for any later
condition; and if another object is made symbolic, this stays so if and only if the step fits. -/
theorem seeds_inRange (o : SeedOptions) (address : List UInt8 → UInt32 → Nat) (arrayNames : List (List UInt8))
    (inputs : List KTest) (s : SeededState) (hrun : FittingRun o address ⟨arrayNames, inputs.map SeedInfo.ofInput⟩ s) :
    (∀ si ∈ s.seeds, si.InRange) ∧
    ∀ (mo : SeededObject) (name : List UInt8) (s' : SeededState),
      s.executeMakeSymbolic o address mo name = .ok s' →
      (∀ si ∈ s.seeds, si.assignment.find (createArray address (uniqueName name s.arrayNames) mo.size) = none) →
      ((∀ si ∈ s'.seeds, si.InRange) ↔ SeedEvent.Fits o s (.makeSymbolic mo name)) := by
  have hstart : ∀ si ∈ inputs.map SeedInfo.ofInput, si.assignment.LongEnough := by
    intro si hsi
    obtain ⟨input, -, rfl⟩ := List.mem_map.mp hsi
    exact fun b hb => nomatch hb
  have hlong := run_longEnough hrun hstart
  refine ⟨fun si hsi => inRange_of_longEnough (hlong si hsi), fun mo name s' h hnew => ⟨fun hrange => ?_, fun hfits => ?_⟩⟩
  · -- a seed that does not fit would get a short binding
    by_contra hfits
    simp only [SeedEvent.Fits, not_forall] at hfits
    obtain ⟨si, hsi, hunfit⟩ := hfits
    obtain ⟨si', hsi', hbind⟩ := exists_of_mem_right (executeMakeSymbolic_ok h).flip hsi
    obtain ⟨values, hf, hshort⟩ := bindSeed_short (hnew si hsi) hunfit hbind
    exact exists_outOfRange mo.size.toNat_lt hf hshort (hrange si' hsi')
  · exact fun si hsi => inRange_of_longEnough (step_longEnough (.makeSymbolic h) hfits hlong si hsi)

end Run

def oneByteTest : KTest where
  version := 3
  args := []
  symArgvs := 0
  symArgvLen := 0
  objects := [⟨Replay.unnamed, [0], by decide⟩]
  numArgs_lt := KTest.emptyObject.numArgs_lt
  numObjects_lt := by decide

/-- Short objects are filled up with zeros, and the second byte of the object is bound. -/
theorem seeds_inRange_filled : ∃ s', SeededState.executeMakeSymbolic ⟨false, false, true, false⟩ (fun _ _ => 0)
    ⟨[], [SeedInfo.ofInput oneByteTest]⟩ ⟨[120], 2⟩ [120] = .ok s' ∧ ∀ si ∈ s'.seeds, si.InRange := by
  refine ⟨_, rfl, ?_⟩
  refine (seeds_inRange ⟨false, false, true, false⟩ (fun _ _ => 0) [] [oneByteTest] _ (.single ?_)).1
  exact ⟨.makeSymbolic ⟨[120], 2⟩ [120], .makeSymbolic rfl, fun _ _ => Or.inl rfl⟩

/-- With `AllowSeedExtension` alone the second byte is not bound. -/
theorem executeMakeSymbolic_short : ∃ s', SeededState.executeMakeSymbolic ⟨true, false, false, false⟩ (fun _ _ => 0)
    ⟨[], [SeedInfo.ofInput oneByteTest]⟩ ⟨[120], 2⟩ [120] = .ok s' ∧ ∃ si ∈ s'.seeds, ¬si.InRange := by
  refine ⟨_, rfl, _, .head _, ?_⟩
  exact exists_outOfRange (by decide : 2 < 2 ^ 32)
    (by decide : Assignment.find _ ⟨0, 2, 32, 8, []⟩ = some [0]) (by decide : [0].length < 2)

end CgsKlee
