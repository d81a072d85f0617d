import CgsKlee.Ida.Extraction

/-!
# The type filter of `BranchDependencyAnalysis::runOnModule`

A branch may depend on several variables.  The second rule of the source keeps a variable only if it is an integer; it
erases from the set while it goes through it, and moves the iterator in each branch of the dispatch on the types.  For
a struct pointer the dispatch knows structures and arrays.  A GEP with two indices can also point into a vector, and
then the iterator stays where it is: the loop ends exactly if there is no such dependency (`ruleTwo_iff`), and then it
keeps what it should.
-/

namespace CgsKlee.Ida

/-- The types that the filter tells apart. -/
inductive IRType
  | integer (bits : Nat)
  | floatingPoint
  | pointer
  | struct
  | array
  | vector
deriving DecidableEq, Repr

def IRType.isIntegerTy : IRType → Bool
  | .integer _ => true
  | _ => false

/-- What a GEP with two indices points into: a structure, with the element that the second index names, an array or a
vector. -/
inductive Aggregate
  | structType (elements : List IRType) (offset : Fin elements.length)
  | arrayType (element : IRType)
  | vectorType (element : IRType)
deriving Repr

def Aggregate.elementType : Aggregate → IRType
  | .structType elements offset => elements.get offset
  | .arrayType element => element
  | .vectorType element => element

def Aggregate.isVector : Aggregate → Bool
  | .vectorType _ => true
  | _ => false

structure TypeTable where
  /-- `global_var->getType()->getPointerElementType()` -/
  globalType : Nat → IRType
  /-- `local_var->getAllocatedType()` -/
  allocatedType : Nat → IRType
  /-- `sp->type->getPointerElementType()` -/
  pointee : StructPointer → Aggregate

/-- What an iteration does with the dependency at the iterator: go on behind it, erase it and go on, or nothing. -/
inductive Move
  | advance | erase | stay
deriving DecidableEq, Repr

namespace TypeTable

variable (T : TypeTable)

def keepInteger (type : IRType) : Move := if type.isIntegerTy then .advance else .erase

def move : DataDep → Move
  | .globalVariable global_var => keepInteger (T.globalType global_var)
  | .localVariable local_var => keepInteger (T.allocatedType local_var)
  -- `front()` of an empty list; no such dependency is made
  | .structPointerParam [] => .stay
  | .structPointerParam (sp :: _) =>
    match T.pointee sp with
    | .structType elements offset => keepInteger (elements.get offset)
    | .arrayType element => keepInteger element
    | .vectorType _ => .stay
  | .nonPointerParam _ => .advance

/-- At most `fuel` iterations of the loop; `rest` begins at the iterator. -/
def filterLoop : Nat → List DataDep → List DataDep → Option (List DataDep)
  | 0, _, _ => none
  | _ + 1, kept, [] => some kept
  | fuel + 1, kept, data_dep :: rest =>
    match T.move data_dep with
    | .advance => filterLoop fuel (kept ++ [data_dep]) rest
    | .erase => filterLoop fuel kept rest
    | .stay => filterLoop fuel kept (data_dep :: rest)

/-- The source of the dependency is an integer, as far as it is a variable or an element. -/
def integerSource : DataDep → Bool
  | .globalVariable global_var => (T.globalType global_var).isIntegerTy
  | .localVariable local_var => (T.allocatedType local_var).isIntegerTy
  | .structPointerParam [] => false
  | .structPointerParam (sp :: _) => (T.pointee sp).elementType.isIntegerTy
  | .nonPointerParam _ => true

def vectorSource : DataDep → Bool
  | .structPointerParam (sp :: _) => (T.pointee sp).isVector
  | _ => false

variable {T}

theorem keepInteger_eq (type : IRType) (b : Bool) (h : type.isIntegerTy = b) :
    keepInteger type = if b then .advance else .erase := by
  rw [keepInteger, h]

theorem move_eq {d : DataDep} (hd : d ≠ .structPointerParam []) :
    T.move d = if T.vectorSource d then .stay else if T.integerSource d then .advance else .erase := by
  cases d with
  | globalVariable g => exact keepInteger_eq _ _ rfl
  | localVariable a => exact keepInteger_eq _ _ rfl
  | nonPointerParam p => rfl
  | structPointerParam l =>
    cases l with
    | nil => exact absurd rfl hd
    | cons sp l =>
      cases hp : T.pointee sp with
      | structType elements offset => simp [move, vectorSource, integerSource, hp, keepInteger, Aggregate.isVector,
          Aggregate.elementType]
      | arrayType element => simp [move, vectorSource, integerSource, hp, keepInteger, Aggregate.isVector,
          Aggregate.elementType]
      | vectorType element => simp [move, vectorSource, hp, Aggregate.isVector]

theorem filterLoop_of_no_vector {deps : List DataDep} (hd : ∀ d ∈ deps, d ≠ .structPointerParam [])
    (hv : ∀ d ∈ deps, T.vectorSource d = false) (kept : List DataDep) :
    T.filterLoop (deps.length + 1) kept deps = some (kept ++ deps.filter T.integerSource) := by
  induction deps generalizing kept with
  | nil => simp [filterLoop]
  | cons d deps ih =>
    have hmove := move_eq (T := T) (hd d List.mem_cons_self)
    rw [hv d List.mem_cons_self] at hmove
    have hrest := ih (fun d' h' => hd d' (List.mem_cons_of_mem _ h')) fun d' h' => hv d' (List.mem_cons_of_mem _ h')
    by_cases hi : T.integerSource d = true
    · have hadvance : T.move d = .advance := by rw [hmove, hi]; rfl
      rw [List.length_cons, filterLoop, hadvance]
      simp [hrest, hi]
    · have herase : T.move d = .erase := by rw [hmove, if_neg Bool.false_ne_true, if_neg hi]
      rw [List.length_cons, filterLoop, herase]
      simp [hrest, hi]

theorem filterLoop_of_vector {deps : List DataDep} {d : DataDep} (hd : ∀ d ∈ deps, d ≠ .structPointerParam [])
    (hmem : d ∈ deps) (hv : T.vectorSource d = true) (fuel : Nat) (kept : List DataDep) :
    T.filterLoop fuel kept deps = none := by
  induction fuel generalizing kept deps with
  | zero => rfl
  | succ fuel ih =>
    cases deps with
    | nil => cases hmem
    | cons d' deps =>
      have htail : ∀ e ∈ deps, e ≠ DataDep.structPointerParam [] := fun e he => hd e (List.mem_cons_of_mem _ he)
      have hcases : T.move d' = .stay ∨ d ∈ deps := by
        rcases List.mem_cons.mp hmem with rfl | h
        · left
          rw [move_eq (hd d List.mem_cons_self), if_pos hv]
        · exact .inr h
      unfold filterLoop
      split
      · rename_i hmove
        rcases hcases with h | h
        · rw [h] at hmove
          cases hmove
        · exact ih htail h _
      · rename_i hmove
        rcases hcases with h | h
        · rw [h] at hmove
          cases hmove
        · exact ih htail h _
      · exact ih hd hmem _

end TypeTable

namespace DefUse

variable {n : Nat} {D : DefUse n} {root cur : Fin n} {s : Extraction n}

def Pointed (s : Extraction n) : Prop := ∀ d ∈ s.data_dep_set, d ≠ .structPointerParam []

theorem pointed_eraseLast (h : Pointed s) : Pointed (eraseLast s) := by
  unfold eraseLast
  split
  · exact h
  · split
    · exact fun d hd => h d (List.mem_of_mem_erase hd)
    · exact h

theorem pointed_append {d : DataDep} (h : Pointed s) (hd : d ≠ .structPointerParam []) :
    ∀ d' ∈ s.data_dep_set ++ [d], d' ≠ .structPointerParam [] := by
  intro d' hd'
  rcases List.mem_append.mp hd' with hd' | hd'
  · exact h d' hd'
  · rw [List.mem_singleton.mp hd']
    exact hd

theorem pointed_addNew {d : DataDep} (h : Pointed s) (hd : d ≠ .structPointerParam []) : Pointed (addNew s d) := by
  unfold addNew
  split
  · exact h
  · exact pointed_append h hd

theorem pointed_addArgument (h : Pointed s) (index : Nat) (type : ArgType) : Pointed (addArgument s index type) := by
  have herase := pointed_eraseLast h
  cases type with
  | otherPointer => exact herase
  | nonPointer =>
    unfold addArgument
    dsimp only
    split
    · exact pointed_addNew herase (by simp)
    · exact herase
  | structPointer =>
    unfold addArgument
    dsimp only
    split
    · rename_i hsp
      exact pointed_addNew herase (by simpa using hsp)
    · exact herase

theorem pointed_push (h : Pointed s) (i : Fin n) : Pointed (push s i) := by
  unfold push
  split
  · exact h
  · exact h

theorem pointed_visitLocal (h : Pointed s) (AI : Fin n) : Pointed (D.visitLocal root cur AI s) := by
  have hadded : Pointed (if .localVariable AI ∈ s.data_dep_set then s
      else { s with last_AI := some AI, data_dep_set := s.data_dep_set ++ [.localVariable AI] }) := by
    split
    · exact h
    · exact pointed_append h (by simp)
  unfold visitLocal
  dsimp only
  split
  · exact pointed_addArgument hadded _ _
  · exact hadded
  · split
    · exact pointed_eraseLast hadded
    · exact pointed_push (pointed_eraseLast hadded) _

theorem pointed_visitOperands {operands : List (Value n)} (h : Pointed s) :
    Pointed (D.visitOperands root cur operands s) := by
  induction operands generalizing s with
  | nil => exact h
  | cons v operands ih =>
    cases v with
    | globalVariable g => exact pointed_append h (by simp)
    | argument index type => exact ih h
    | constantInt value => exact ih h
    | other => exact ih h
    | inst i =>
      unfold visitOperands
      split
      · exact ih (pointed_visitLocal h i)
      · exact ih (pointed_push h i)

theorem pointed_visit (h : Pointed s) : Pointed (D.visit root cur s) := by
  unfold visit
  dsimp only
  split
  · split
    · exact h
    · exact h
  · split
    · exact pointed_visitOperands h
    · split
      · exact pointed_push h _
      · exact h
    · exact pointed_visitOperands h

theorem pointed_extractLoop {isStoreInst : Bool} {fuel : Nat} {count : Fin n → Nat} {deps : List DataDep}
    (h : Pointed s) (hrun : D.extractLoop root isStoreInst fuel count s = some deps) :
    ∀ d ∈ deps, d ≠ .structPointerParam [] := by
  induction fuel generalizing count s with
  | zero => cases hrun
  | succ fuel ih =>
    unfold extractLoop at hrun
    split at hrun
    · exact Option.some.inj hrun ▸ h
    · split at hrun
      · exact Option.some.inj hrun ▸ h
      · split at hrun
        · exact Option.some.inj hrun ▸ h
        · rename_i cur rest _ _ _
          have hvisit : Pointed (D.visit root cur
              { s with to_trace_insts := rest, traced_insts := insertNew s.traced_insts cur }) := pointed_visit h
          dsimp only at hrun
          split at hrun
          · exact Option.some.inj hrun ▸ hvisit
          · exact ih hvisit hrun

end DefUse

/-- The loop of the second rule over the dependencies of a condition, in any order, ends and keeps exactly the
dependencies on integers if and only if no dependency is on an element of a vector. -/
theorem ruleTwo_iff (T : TypeTable) {n : Nat} (D : DefUse n) (cond : Fin n) {deps data_dep_set : List DataDep}
    (h : D.extractDataDependency cond false = some deps) (horder : data_dep_set.Perm deps) :
    (∃ fuel, T.filterLoop fuel [] data_dep_set = some (data_dep_set.filter T.integerSource)) ↔
      ∀ d ∈ data_dep_set, T.vectorSource d = false := by
  have hd : ∀ d ∈ data_dep_set, d ≠ .structPointerParam [] := by
    intro d hmem
    exact DefUse.pointed_extractLoop (fun d hm => by cases hm) h d (horder.mem_iff.mp hmem)
  constructor
  · rintro ⟨fuel, h⟩ d hmem
    by_contra hv
    rw [TypeTable.filterLoop_of_vector hd hmem (by simpa using hv)] at h
    cases h
  · intro hv
    exact ⟨_, TypeTable.filterLoop_of_no_vector hd hv []⟩

/-- The condition compares `p->v[1]`, where `p` is a parameter and the pointers to `v` have the type `type`. -/
def elementOfParameter (type : Nat) : DefUse 7 where
  inst
    | 0 => { opcode := .icmp, operands := [.inst 1, .constantInt 5], parent := 0 }
    | 1 => { opcode := .other, operands := [.inst 2], parent := 0 }
    | 2 => { opcode := .getElementPtr, operands := [.inst 3, .constantInt 0, .constantInt 1], parent := 0,
             pointerType := type }
    | 3 => { opcode := .getElementPtr, operands := [.inst 4, .constantInt 0, .constantInt 0], parent := 0,
             pointerType := 1 }
    | 4 => { opcode := .other, operands := [.inst 5], parent := 0 }
    | 5 => { opcode := .alloca, operands := [.constantInt 1], parent := 0, users := [6] }
    | 6 => { opcode := .store, operands := [.argument 0 .structPointer, .inst 5], parent := 0 }
  bbLabel := fun _ => 0
  isPotentiallyReachable := fun _ _ _ => true

def someTypes : TypeTable where
  globalType := fun _ => .integer 32
  allocatedType := fun _ => .pointer
  pointee := fun sp =>
    if sp.type = 0 then .vectorType (.integer 32)
    else if sp.type = 2 then .arrayType (.integer 32)
    else .structType [.vector] 0

theorem elementOfParameter_vector :
    (elementOfParameter 0).extractDataDependency 0 false = some [.structPointerParam [⟨0, 1⟩, ⟨1, 0⟩]] := by
  decide

theorem elementOfParameter_array :
    (elementOfParameter 2).extractDataDependency 0 false = some [.structPointerParam [⟨2, 1⟩, ⟨1, 0⟩]] := by
  decide

theorem ruleTwo_iff_parameter :
    (¬ ∃ fuel, someTypes.filterLoop fuel [] [.structPointerParam [⟨0, 1⟩, ⟨1, 0⟩]] =
        some ([.structPointerParam [⟨0, 1⟩, ⟨1, 0⟩]].filter someTypes.integerSource)) ∧
      ∃ fuel, someTypes.filterLoop fuel [] [.structPointerParam [⟨2, 1⟩, ⟨1, 0⟩]] =
        some ([.structPointerParam [⟨2, 1⟩, ⟨1, 0⟩]].filter someTypes.integerSource) := by
  constructor
  · rw [ruleTwo_iff someTypes (elementOfParameter 0) 0 elementOfParameter_vector (.refl _)]
    decide
  · rw [ruleTwo_iff someTypes (elementOfParameter 2) 0 elementOfParameter_array (.refl _)]
    decide

/-- The loop does not end on a dependency on an element of a vector. -/
theorem ruleTwo_counterexample :
    ¬ ∀ (T : TypeTable) (n : Nat) (D : DefUse n) (cond : Fin n) (deps data_dep_set : List DataDep),
      D.extractDataDependency cond false = some deps → data_dep_set.Perm deps →
        ∃ fuel, T.filterLoop fuel [] data_dep_set = some (data_dep_set.filter T.integerSource) := by
  intro h
  obtain ⟨fuel, hrun⟩ := h someTypes 7 (elementOfParameter 0) 0 _ _ elementOfParameter_vector (.refl _)
  rw [TypeTable.filterLoop_of_vector (by decide) List.mem_cons_self rfl] at hrun
  cases hrun

end CgsKlee.Ida
