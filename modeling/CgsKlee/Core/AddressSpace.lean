import CgsKlee.Core.ObjectState

/-!
# Address spaces and pointer resolution

An address space maps the memory objects, ordered by their address, to their states.  A pointer is resolved by a
search that starts at the object below an example value and goes down and up until the pointer is known to be above
or below an object.  The solver is one that answers every query.
-/

namespace CgsKlee

open Symbolic

variable {T : ExprTheory} {ω : Type}

/-- The fields of a `MemoryObject` that resolution reads. -/
structure MemoryObject where
  address : Nat
  size : Nat
deriving DecidableEq, Repr

namespace MemoryObject

variable (ctx : Context) (mo : MemoryObject)

def getBaseExpr (T : ExprTheory) : T.Expr := T.const mo.address ctx.pointerWidth

def getSizeExpr (T : ExprTheory) : T.Expr := T.const mo.size ctx.pointerWidth

def getOffsetExpr (pointer : T.Expr) : T.Expr := T.sub pointer (mo.getBaseExpr ctx T)

/-- `MemoryObject::getBoundsCheckOffset(offset)`: the first byte is in the object, or the object is empty. -/
def getBoundsCheckOffset (offset : T.Expr) : T.Expr :=
  if mo.size = 0 then T.eq offset (T.const 0 ctx.pointerWidth) else T.ult offset (mo.getSizeExpr ctx T)

def getBoundsCheckOffsetBytes (offset : T.Expr) (bytes : Nat) : T.Expr :=
  if bytes ≤ mo.size then T.ult offset (T.const (mo.size - bytes + 1) ctx.pointerWidth) else T.const 0 1

def getBoundsCheckPointer (pointer : T.Expr) : T.Expr :=
  mo.getBoundsCheckOffset ctx (mo.getOffsetExpr ctx pointer)

def getBoundsCheckPointerBytes (pointer : T.Expr) (bytes : Nat) : T.Expr :=
  mo.getBoundsCheckOffsetBytes ctx (mo.getOffsetExpr ctx pointer) bytes

end MemoryObject

/-- `ImmutableMap::replace` on the list of entries: the entry with the same key, or a new one. -/
def replaceEntry (op : MemoryObject × ω) : List (MemoryObject × ω) → List (MemoryObject × ω)
  | [] => [op]
  | x :: xs =>
    if op.1.address < x.1.address then op :: x :: xs
    else if x.1.address < op.1.address then x :: replaceEntry op xs
    else op :: xs

theorem mem_replaceEntry {op x : MemoryObject × ω} {l : List (MemoryObject × ω)} (h : x ∈ replaceEntry op l) :
    x = op ∨ x ∈ l := by
  induction l with
  | nil => simpa [replaceEntry] using h
  | cons y l ih =>
    unfold replaceEntry at h
    split at h
    · simpa using h
    · split at h
      · rcases List.mem_cons.1 h with rfl | h
        · simp
        · rcases ih h with h | h <;> simp [h]
      · rcases List.mem_cons.1 h with rfl | h <;> simp_all

theorem pairwise_replaceEntry (op : MemoryObject × ω) {l : List (MemoryObject × ω)}
    (h : l.Pairwise fun a b => a.1.address < b.1.address) :
    (replaceEntry op l).Pairwise fun a b => a.1.address < b.1.address := by
  induction l with
  | nil => simp [replaceEntry]
  | cons y l ih =>
    obtain ⟨hy, hl⟩ := List.pairwise_cons.1 h
    unfold replaceEntry
    split
    · rename_i hlt
      refine List.pairwise_cons.2 ⟨fun x hx => ?_, h⟩
      rcases List.mem_cons.1 hx with rfl | hx
      · exact hlt
      · exact hlt.trans (hy x hx)
    · split
      · rename_i hlt
        refine List.pairwise_cons.2 ⟨fun x hx => ?_, ih hl⟩
        rcases mem_replaceEntry hx with rfl | hx
        · exact hlt
        · exact hy x hx
      · refine List.pairwise_cons.2 ⟨fun x hx => ?_, hl⟩
        have := hy x hx
        omega

/-- `AddressSpace`: the entries of `objects` in the order of `MemoryObjectLT`. -/
structure AddressSpace (ω : Type) where
  objects : List (MemoryObject × ω)
  sorted : objects.Pairwise fun a b => a.1.address < b.1.address

namespace AddressSpace

variable (as : AddressSpace ω)

/-- The state of an object is replaced, as `getWriteable` and the write through its result do. -/
def replace (op : MemoryObject × ω) : AddressSpace ω := ⟨replaceEntry op as.objects, pairwise_replaceEntry op as.sorted⟩

def remove (mo : MemoryObject) : AddressSpace ω :=
  ⟨as.objects.filter (·.1.address ≠ mo.address), as.sorted.filter _⟩

def findObject (mo : MemoryObject) : Option ω := (as.objects.find? (·.1.address = mo.address)).map (·.2)

def upTo (address : Nat) : List (MemoryObject × ω) := as.objects.filter (·.1.address ≤ address)

def above (address : Nat) : List (MemoryObject × ω) := as.objects.filter (address < ·.1.address)

def lookupPrevious (address : Nat) : Option (MemoryObject × ω) := (as.upTo address).getLast?

def resolveOneConstant (address : Nat) : Option (MemoryObject × ω) :=
  (as.lookupPrevious address).filter fun op =>
    (op.1.size = 0 ∧ address = op.1.address) ∨ address - op.1.address < op.1.size

end AddressSpace

theorem mem_unique {as : AddressSpace ω} {x y : MemoryObject × ω} (hx : x ∈ as.objects) (hy : y ∈ as.objects)
    (h : x.1.address = y.1.address) : x = y := by
  by_contra hne
  have hlt : x.1.address < y.1.address ∨ y.1.address < x.1.address := by
    have hpair : as.objects.Pairwise fun p q => p.1.address < q.1.address ∨ q.1.address < p.1.address :=
      as.sorted.imp Or.inl
    have hsym : Std.Symm fun p q : MemoryObject × ω => p.1.address < q.1.address ∨ q.1.address < p.1.address :=
      ⟨fun _ _ h => h.symm⟩
    exact List.Pairwise.forall hpair hx hy hne
  omega

theorem findObject_of_mem {as : AddressSpace ω} {mo : MemoryObject} {object : ω}
    (h : (mo, object) ∈ as.objects) : as.findObject mo = some object := by
  unfold AddressSpace.findObject
  cases hf : as.objects.find? (·.1.address = mo.address) with
  | none =>
    have := List.find?_eq_none.mp hf _ h
    simp at this
  | some x =>
    have haddr : x.1.address = mo.address := by simpa using List.find?_some hf
    obtain rfl := mem_unique (List.mem_of_find?_eq_some hf) h haddr
    rfl

theorem mem_replaceEntry_iff {mo : MemoryObject} {o : ω} {x : MemoryObject × ω} {l : List (MemoryObject × ω)}
    (hl : l.Pairwise fun p q => p.1.address < q.1.address) :
    x ∈ replaceEntry (mo, o) l ↔ x = (mo, o) ∨ x ∈ l ∧ x.1.address ≠ mo.address := by
  induction l with
  | nil => simp [replaceEntry]
  | cons y l ih =>
    obtain ⟨hy, hl⟩ := List.pairwise_cons.mp hl
    unfold replaceEntry
    split
    · rename_i hlt
      have hbelow : ∀ z ∈ y :: l, z.1.address ≠ mo.address := by
        intro z hz
        rcases List.mem_cons.mp hz with rfl | hz
        · exact Nat.ne_of_gt hlt
        · exact Nat.ne_of_gt (hlt.trans (hy z hz))
      rw [List.mem_cons]
      exact or_congr_right ⟨fun h => ⟨h, hbelow x h⟩, And.left⟩
    · rename_i hge
      split
      · rename_i hlt
        rw [List.mem_cons, List.mem_cons, ih hl]
        constructor
        · rintro (rfl | rfl | ⟨hx, hne⟩)
          · exact .inr ⟨.inl rfl, Nat.ne_of_lt hlt⟩
          · exact .inl rfl
          · exact .inr ⟨.inr hx, hne⟩
        · rintro (rfl | ⟨rfl | hx, hne⟩)
          · exact .inr (.inl rfl)
          · exact .inl rfl
          · exact .inr (.inr ⟨hx, hne⟩)
      · rename_i hle
        have haddr : y.1.address = mo.address := by
          have h₁ : ¬mo.address < y.1.address := hge
          have h₂ : ¬y.1.address < mo.address := hle
          omega
        rw [List.mem_cons, List.mem_cons]
        constructor
        · rintro (rfl | hx)
          · exact .inl rfl
          · exact .inr ⟨.inr hx, by have := hy x hx; omega⟩
        · rintro (rfl | ⟨rfl | hx, hne⟩)
          · exact .inl rfl
          · exact absurd haddr hne
          · exact .inr hx

section Resolution

variable (ctx : Context) (B : Backend T) (constraints : List T.Expr)

/-- The backwards search of `AddressSpace::resolveOne`, over the entries in descending order. -/
def resolveOneBackwards (address : T.Expr) : List (MemoryObject × ω) → Option (MemoryObject × ω)
  | [] => none
  | op :: rest =>
    if B.mayBeTrue constraints (op.1.getBoundsCheckPointer ctx address) then some op
    else if B.mustBeTrue constraints (T.ule (op.1.getBaseExpr ctx T) address) then none
    else resolveOneBackwards address rest

def resolveOneForwards (address : T.Expr) : List (MemoryObject × ω) → Option (MemoryObject × ω)
  | [] => none
  | op :: rest =>
    if B.mustBeTrue constraints (T.ult address (op.1.getBaseExpr ctx T)) then none
    else if B.mayBeTrue constraints (op.1.getBoundsCheckPointer ctx address) then some op
    else resolveOneForwards address rest

def AddressSpace.resolveOne (as : AddressSpace ω) (address : T.Expr) : Option (MemoryObject × ω) :=
  match T.constant? address with
  | some v => as.resolveOneConstant v
  | none =>
    let example_ := B.getValue constraints address
    match (as.lookupPrevious example_).filter fun op => example_ - op.1.address < op.1.size with
    | some op => some op
    | none =>
      match resolveOneBackwards ctx B constraints address (as.upTo example_).reverse with
      | some op => some op
      | none => resolveOneForwards ctx B constraints address (as.above example_)

inductive PointerCheck
  | complete
  | incomplete
  | unknown
deriving DecidableEq, Repr

def checkPointerInObject (p : T.Expr) (maxResolutions : Nat) (op : MemoryObject × ω) (rl : List (MemoryObject × ω)) :
    PointerCheck × List (MemoryObject × ω) :=
  let inBounds := op.1.getBoundsCheckPointer ctx p
  if B.mayBeTrue constraints inBounds then
    let rl := rl ++ [op]
    if rl.length = 1 then
      if B.mustBeTrue constraints inBounds then (.complete, rl) else (.unknown, rl)
    else if rl.length = maxResolutions then (.incomplete, rl)
    else (.unknown, rl)
  else (.unknown, rl)

/-- The backwards search of `AddressSpace::resolve`: what it returns, if it does, and the resolution list. -/
def resolveBackwards (p : T.Expr) (maxResolutions : Nat) :
    List (MemoryObject × ω) → List (MemoryObject × ω) → Option Bool × List (MemoryObject × ω)
  | [], rl => (none, rl)
  | op :: rest, rl =>
    match checkPointerInObject ctx B constraints p maxResolutions op rl with
    | (.complete, rl) => (some false, rl)
    | (.incomplete, rl) => (some true, rl)
    | (.unknown, rl) =>
      if B.mustBeTrue constraints (T.ule (op.1.getBaseExpr ctx T) p) then (none, rl)
      else resolveBackwards p maxResolutions rest rl

def resolveForwards (p : T.Expr) (maxResolutions : Nat) :
    List (MemoryObject × ω) → List (MemoryObject × ω) → Bool × List (MemoryObject × ω)
  | [], rl => (false, rl)
  | op :: rest, rl =>
    if B.mustBeTrue constraints (T.ult p (op.1.getBaseExpr ctx T)) then (false, rl)
    else
      match checkPointerInObject ctx B constraints p maxResolutions op rl with
      | (.complete, rl) => (false, rl)
      | (.incomplete, rl) => (true, rl)
      | (.unknown, rl) => resolveForwards p maxResolutions rest rl

/-- `AddressSpace::resolve`: whether it is incomplete, and the resolution list. -/
def AddressSpace.resolve (as : AddressSpace ω) (p : T.Expr) (maxResolutions : Nat) :
    Bool × List (MemoryObject × ω) :=
  match T.constant? p with
  | some v => (false, (as.resolveOneConstant v).toList)
  | none =>
    let example_ := B.getValue constraints p
    match resolveBackwards ctx B constraints p maxResolutions (as.upTo example_).reverse [] with
    | (some incomplete, rl) => (incomplete, rl)
    | (none, rl) => resolveForwards ctx B constraints p maxResolutions (as.above example_) rl

end Resolution

end CgsKlee
