import CgsKlee.Core.AddressSpace

/-!
# Copy-on-write address spaces

Forked address spaces share their object states.  An object state remembers the key of the address space that may
write it in place; a fork moves the address space to a new key, which it shares with its child, so that neither owns
the objects they have in common.  `unsigned` keys wrap around: as long as no fork takes a key past its maximum, an
object state that an address space owns is mapped by no other, and writes stay private.
-/

namespace CgsKlee

open Symbolic

variable {T : ExprTheory} {A : ArrayTheory T}

structure OwnedObject (A : ArrayTheory T) where
  copyOnWriteOwner : BitVec 32
  state : ObjectState A

/-- An address space; it maps memory objects to pointers to object states. -/
structure CowSpace where
  cowKey : BitVec 32
  memory : AddressSpace Nat

/-- The object states on the heap and all address spaces, which share them.  A pointer is a position on the heap. -/
structure CowConfig (A : ArrayTheory T) where
  objects : List (OwnedObject A)
  spaces : List CowSpace

namespace CowConfig

def initial : CowConfig A := ⟨[], [⟨1, ⟨[], .nil⟩⟩]⟩

/-- A new object state, which nothing maps yet. -/
def new (c : CowConfig A) (os : ObjectState A) : CowConfig A := { c with objects := c.objects ++ [⟨0, os⟩] }

/-- The copy constructor of `AddressSpace`, which changes the key of the original. -/
def fork (c : CowConfig A) (space : Nat) : Option (CowConfig A) := do
  let b ← c.spaces[space]?
  let b := { b with cowKey := b.cowKey + 1 }
  some { c with spaces := c.spaces.set space b ++ [b] }

def bindObject (c : CowConfig A) (space : Nat) (mo : MemoryObject) (object : Nat) : Option (CowConfig A) := do
  let as ← c.spaces[space]?
  let os ← c.objects[object]?
  -- assert: object already has owner
  if os.copyOnWriteOwner = 0 then
    some { objects := c.objects.set object { os with copyOnWriteOwner := as.cowKey }
           spaces := c.spaces.set space { as with memory := as.memory.replace (mo, object) } }
  else none

def unbindObject (c : CowConfig A) (space : Nat) (mo : MemoryObject) : Option (CowConfig A) := do
  let as ← c.spaces[space]?
  some { c with spaces := c.spaces.set space { as with memory := as.memory.remove mo } }

/-- `AddressSpace::getWriteable`; the object state is the current binding of the memory object. -/
def getWriteable (c : CowConfig A) (space : Nat) (mo : MemoryObject) (object : Nat) :
    Option (Nat × CowConfig A) := do
  let as ← c.spaces[space]?
  let os ← c.objects[object]?
  -- assert: not read only
  if os.state.readOnly then none
  else if as.cowKey = os.copyOnWriteOwner then some (object, c)
  else do
    let copied ← os.state.copy
    let newObject := c.objects.length
    some (newObject,
      { objects := c.objects ++ [⟨as.cowKey, copied⟩]
        spaces := c.spaces.set space { as with memory := as.memory.replace (mo, newObject) } })

/-- `getWriteable`, and writes to the object state that it returns. -/
def write (ctx : Context) (c : CowConfig A) (space : Nat) (mo : MemoryObject) (writes : List (T.Expr × T.Expr)) :
    Option (CowConfig A) := do
  let as ← c.spaces[space]?
  let object ← as.memory.findObject mo
  let (writeable, c) ← c.getWriteable space mo object
  let os ← c.objects[writeable]?
  let wos ← writes.foldlM (fun os w => os.write ctx w.1 w.2) os.state
  some { c with objects := c.objects.set writeable { os with state := wos } }

/-- A read, which may flush the caches of an object state that other address spaces map as well. -/
def read (ctx : Context) (c : CowConfig A) (space : Nat) (mo : MemoryObject) (offset : T.Expr) (width : Nat) :
    Option (T.Expr × CowConfig A) := do
  let as ← c.spaces[space]?
  let object ← as.memory.findObject mo
  let os ← c.objects[object]?
  let (e, ros) ← os.state.read ctx offset width
  some (e, { c with objects := c.objects.set object { os with state := ros } })

/-- What an address space reads: the object state of a memory object. -/
def view (c : CowConfig A) (space : Nat) (mo : MemoryObject) : Option (ObjectState A) := do
  let as ← c.spaces[space]?
  let object ← as.memory.findObject mo
  (c.objects[object]?).map (·.state)

end CowConfig

inductive CowOp (A : ArrayTheory T)
  | new (os : ObjectState A)
  | fork (space : Nat)
  | bindObject (space : Nat) (mo : MemoryObject) (object : Nat)
  | unbindObject (space : Nat) (mo : MemoryObject)
  | write (space : Nat) (mo : MemoryObject) (writes : List (T.Expr × T.Expr))
  | read (space : Nat) (mo : MemoryObject) (offset : T.Expr) (width : Nat)

namespace CowOp

/-- The configuration after a step; there is none if an assertion fails. -/
def step (ctx : Context) (c : CowConfig A) : CowOp A → Option (CowConfig A)
  | .new os => some (c.new os)
  | .fork space => c.fork space
  | .bindObject space mo object => c.bindObject space mo object
  | .unbindObject space mo => c.unbindObject space mo
  | .write space mo writes => c.write ctx space mo writes
  | .read space mo offset width => (c.read ctx space mo offset width).map (·.2)

def KeyFits (c : CowConfig A) : CowOp A → Prop
  | .fork space => ∀ as ∈ c.spaces[space]?, as.cowKey ≠ BitVec.allOnes 32
  | _ => True

end CowOp

/-- The configurations that interleavings of steps lead to, if `P` holds of each step. -/
inductive CowReachable (ctx : Context) (P : CowConfig A → CowOp A → Prop) : CowConfig A → Prop
  | initial : CowReachable ctx P .initial
  | step {c c' : CowConfig A} (op : CowOp A) (h : CowReachable ctx P c) (hp : P c op)
      (hs : op.step ctx c = some c') : CowReachable ctx P c'

namespace CowConfig

/-- The owner of the object state at a pointer. -/
def owner (c : CowConfig A) (object : Nat) : Option (BitVec 32) := c.objects[object]?.map (·.copyOnWriteOwner)

/-- The address space maps a memory object to the object state. -/
def Maps (c : CowConfig A) (space object : Nat) : Prop :=
  ∃ as, c.spaces[space]? = some as ∧ object ∈ as.memory.objects.map (·.2)

/-- An object state that an address space owns is mapped by no other address space. -/
def OwnedAlone (c : CowConfig A) : Prop :=
  ∀ space as object, c.spaces[space]? = some as → c.Maps space object → c.owner object = some as.cowKey →
    ∀ other, c.Maps other object → other = space

structure Inv (c : CowConfig A) : Prop where
  key_pos : ∀ as ∈ c.spaces, 0 < as.cowKey.toNat
  /-- An object state that is mapped has an owner, which is no newer than the address space. -/
  owner_le : ∀ space as object, c.spaces[space]? = some as → c.Maps space object →
    ∃ key, c.owner object = some key ∧ 0 < key.toNat ∧ key.toNat ≤ as.cowKey.toNat
  alone : c.OwnedAlone

variable {c c' : CowConfig A}

variable {mo : MemoryObject} {object space : Nat} {ctx : Context}

theorem mem_of_findObject {as : AddressSpace Nat}
    (h : as.findObject mo = some object) : object ∈ as.objects.map (·.2) := by
  obtain ⟨x, hx, rfl⟩ := Option.map_eq_some_iff.1 h
  exact List.mem_map_of_mem (List.mem_of_find?_eq_some hx)

theorem mem_replace {as : AddressSpace Nat} {x : Nat}
    (h : x ∈ (as.replace (mo, object)).objects.map (·.2)) : x = object ∨ x ∈ as.objects.map (·.2) := by
  obtain ⟨y, hy, rfl⟩ := List.mem_map.1 h
  rcases mem_replaceEntry hy with rfl | hy
  · exact .inl rfl
  · exact .inr (List.mem_map_of_mem hy)

theorem Inv.unmapped (h : c.Inv) (ho : c.owner object = none ∨ c.owner object = some 0)
    (space : Nat) : ¬c.Maps space object := by
  rintro ⟨as, hs, hm⟩
  obtain ⟨key, hk, hpos, -⟩ := h.owner_le space as object hs ⟨as, hs, hm⟩
  rcases ho with ho | ho
  · rw [hk] at ho
    cases ho
  · rw [hk] at ho
    obtain rfl := Option.some.inj ho
    exact absurd hpos (by decide)

theorem Inv.of_owners (h : c.Inv) (hs : c'.spaces = c.spaces)
    (ho : ∀ object key, c.owner object = some key → key ≠ 0 → c'.owner object = some key) : c'.Inv := by
  have hmaps : ∀ space object, c'.Maps space object ↔ c.Maps space object := fun space object => by
    unfold Maps
    rw [hs]
  have howner : ∀ space as object, c.spaces[space]? = some as → c.Maps space object →
      c'.owner object = c.owner object := by
    intro space as object has hm
    obtain ⟨key, hk, hpos, -⟩ := h.owner_le space as object has hm
    rw [hk, ho object key hk (by rintro rfl; exact absurd hpos (by decide))]
  refine ⟨by rw [hs]; exact h.key_pos, ?_, ?_⟩
  · intro space as object has hm
    rw [hs] at has
    rw [hmaps] at hm
    rw [howner space as object has hm]
    exact h.owner_le space as object has hm
  · intro space as object has hm hown other hother
    rw [hs] at has
    rw [hmaps] at hm hother
    rw [howner space as object has hm] at hown
    exact h.alone space as object has hm hown other hother

theorem Inv.rebind (h : c.Inv) {as : CowSpace} (has : c.spaces[space]? = some as)
    {memory : AddressSpace Nat} (hs : c'.spaces = c.spaces.set space { as with memory })
    (ho : ∀ object key, c.owner object = some key → key ≠ 0 → c'.owner object = some key)
    (hm : ∀ object ∈ memory.objects.map (·.2), object ∈ as.memory.objects.map (·.2) ∨
      c'.owner object = some as.cowKey ∧ (c.owner object = none ∨ c.owner object = some 0)) : c'.Inv := by
  have hlt : space < c.spaces.length := (List.getElem?_eq_some_iff.1 has).1
  have hself : c'.spaces[space]? = some { as with memory } := by
    rw [hs, List.getElem?_set_self hlt]
  have hother : ∀ other, other ≠ space → c'.spaces[other]? = c.spaces[other]? := fun other hne => by
    rw [hs, List.getElem?_set_ne (Ne.symm hne)]
  -- a pointer that was mapped keeps its owner
  have howner : ∀ other object, c.Maps other object → c'.owner object = c.owner object := by
    rintro other object ⟨as', has', hm'⟩
    obtain ⟨key, hk, hpos, -⟩ := h.owner_le other as' object has' ⟨as', has', hm'⟩
    rw [hk, ho object key hk (by rintro rfl; exact absurd hpos (by decide))]
  have hmapsOther : ∀ other object, other ≠ space → c'.Maps other object → c.Maps other object := by
    rintro other object hne ⟨as', has', hm'⟩
    exact ⟨as', (hother other hne).symm.trans has', hm'⟩
  have hmapsSelf : ∀ object, c'.Maps space object → c.Maps space object ∨
      c'.owner object = some as.cowKey ∧ ∀ other, ¬c.Maps other object := by
    rintro object ⟨as', has', hm'⟩
    rw [hself] at has'
    obtain rfl := Option.some.inj has'
    rcases hm object hm' with hm' | ⟨hkey, hnone⟩
    · exact .inl ⟨as, has, hm'⟩
    · exact .inr ⟨hkey, fun other => h.unmapped hnone other⟩
  refine ⟨?_, ?_, ?_⟩
  · intro as' hmem
    rw [hs] at hmem
    rcases List.mem_or_eq_of_mem_set hmem with hmem | rfl
    · exact h.key_pos as' hmem
    · exact h.key_pos as (List.mem_of_getElem? has)
  · intro other as' object has' hmaps
    by_cases hne : other = space
    · subst hne
      rw [hself] at has'
      obtain rfl := Option.some.inj has'
      rcases hmapsSelf object hmaps with hold | ⟨hkey, -⟩
      · rw [howner other object hold]
        exact h.owner_le other as object has hold
      · exact ⟨as.cowKey, hkey, h.key_pos as (List.mem_of_getElem? has), Nat.le_refl _⟩
    · have hold := hmapsOther other object hne hmaps
      rw [howner other object hold]
      exact h.owner_le other as' object ((hother other hne).symm.trans has') hold
  · intro first as' object has' hfirst hown second hsecond
    by_cases hne : first = space
    · subst hne
      rw [hself] at has'
      obtain rfl := Option.some.inj has'
      by_cases hsec : second = first
      · exact hsec
      · have hold₂ := hmapsOther second object hsec hsecond
        rcases hmapsSelf object hfirst with hold | ⟨-, hnone⟩
        · rw [howner first object hold] at hown
          exact h.alone first as object has hold hown second hold₂
        · exact absurd hold₂ (hnone second)
    · have hold := hmapsOther first object hne hfirst
      rw [howner first object hold] at hown
      have has₀ := (hother first hne).symm.trans has'
      by_cases hsec : second = space
      · subst hsec
        rcases hmapsSelf object hsecond with hold₂ | ⟨-, hnone⟩
        · exact h.alone first as' object has₀ hold hown second hold₂
        · exact absurd hold (hnone first)
      · exact h.alone first as' object has₀ hold hown second (hmapsOther second object hsec hsecond)

theorem Inv.initial : (initial : CowConfig A).Inv := by
  have hempty : ∀ space object, ¬(CowConfig.initial : CowConfig A).Maps space object := by
    rintro space object ⟨as, has, hm⟩
    have hmem := List.mem_of_getElem? has
    rw [List.mem_singleton.1 hmem] at hm
    cases hm
  refine ⟨?_, fun _ _ _ _ hm => absurd hm (hempty _ _), fun _ _ _ _ hm => absurd hm (hempty _ _)⟩
  intro as hmem
  rw [List.mem_singleton.1 hmem]
  decide

theorem owner_append {objects : List (OwnedObject A)} {spaces spaces' : List CowSpace} {o : OwnedObject A} {key : BitVec 32} (h : owner ⟨objects, spaces⟩ object = some key) :
    owner ⟨objects ++ [o], spaces'⟩ object = some key := by
  obtain ⟨os, hos, rfl⟩ := Option.map_eq_some_iff.1 h
  have hlt : object < objects.length := (List.getElem?_eq_some_iff.1 hos).1
  exact Option.map_eq_some_iff.2 ⟨os, by rw [List.getElem?_append_left hlt]; exact hos, rfl⟩

theorem owner_set (c : CowConfig A) (o : OwnedObject A) (x : Nat) (spaces : List CowSpace)
    (hx : x ≠ object ∨ c.owner object = some o.copyOnWriteOwner) :
    owner ⟨c.objects.set object o, spaces⟩ x = c.owner x := by
  unfold owner
  rw [List.getElem?_set]
  split
  · rename_i heq
    subst heq
    rcases hx with hx | hx
    · exact absurd rfl hx
    · obtain ⟨os, hos, hkey⟩ := Option.map_eq_some_iff.1 hx
      rw [if_pos (List.getElem?_eq_some_iff.1 hos).1, hos, Option.map_some, Option.map_some, hkey]
  · rfl

theorem Inv.new (h : c.Inv) (os : ObjectState A) : (c.new os).Inv :=
  h.of_owners rfl fun _ _ hk _ => owner_append hk

theorem Inv.fork (h : c.Inv) (hkey : (CowOp.fork space).KeyFits c) (hf : c.fork space = some c') :
    c'.Inv := by
  unfold CowConfig.fork at hf
  cases has : c.spaces[space]? with
  | none => simp [has] at hf
  | some as =>
    have hfit : as.cowKey ≠ BitVec.allOnes 32 := hkey as has
    have hinc : (as.cowKey + 1).toNat = as.cowKey.toNat + 1 := by
      have hne : as.cowKey.toNat ≠ 2 ^ 32 - 1 := fun heq => hfit (BitVec.eq_of_toNat_eq (by simpa using heq))
      have hlt := as.cowKey.isLt
      rw [BitVec.toNat_add, show (1 : BitVec 32).toNat = 1 from rfl]
      omega
    simp only [has, Option.bind_eq_bind, Option.bind_some, Option.some.injEq] at hf
    have hspaces : ∀ other as', c'.spaces[other]? = some as' →
        (other ≠ space ∧ c.spaces[other]? = some as') ∨
          as' = { as with cowKey := as.cowKey + 1 } ∧ (other = space ∨ c.spaces.length ≤ other) := by
      intro other as' has'
      rw [← hf] at has'
      rw [List.getElem?_append] at has'
      split at has'
      · rw [List.getElem?_set] at has'
        split at has'
        · rename_i hlt heq
          rw [if_pos (by rw [heq]; simpa using hlt)] at has'
          exact .inr ⟨(Option.some.inj has').symm, .inl heq.symm⟩
        · rename_i hne
          exact .inl ⟨Ne.symm hne, has'⟩
      · rename_i hge
        rw [List.length_set] at hge has'
        obtain ⟨hlt, hget⟩ := List.getElem?_eq_some_iff.1 has'
        refine .inr ⟨?_, .inr (by omega)⟩
        rw [← hget, List.getElem_singleton]
    have howner : ∀ object, c'.owner object = c.owner object := fun object => by rw [← hf]; rfl
    -- whoever maps an object now, mapped it before or is the child
    have hmaps : ∀ other object, c'.Maps other object → c.Maps other object ∨
        c.spaces.length ≤ other ∧ c.Maps space object := by
      rintro other object ⟨as', has', hm⟩
      rcases hspaces other as' has' with ⟨-, hold⟩ | ⟨rfl, rfl | hnew⟩
      · exact .inl ⟨as', hold, hm⟩
      · exact .inl ⟨as, has, hm⟩
      · exact .inr ⟨hnew, as, has, hm⟩
    refine ⟨?_, ?_, ?_⟩
    · intro as' hmem
      obtain ⟨other, has'⟩ := List.mem_iff_getElem?.1 hmem
      rcases hspaces other as' has' with ⟨-, hold⟩ | ⟨rfl, -⟩
      · exact h.key_pos as' (List.mem_of_getElem? hold)
      · simp only [hinc]
        omega
    · intro other as' object has' hm
      rw [howner]
      obtain ⟨as'', has'', hobj⟩ := hm
      rw [has'] at has''
      obtain rfl := Option.some.inj has''
      rcases hspaces other as' has' with ⟨-, hold⟩ | ⟨rfl, -⟩
      · exact h.owner_le other as' object hold ⟨as', hold, hobj⟩
      · obtain ⟨key, hk, hpos, hle⟩ := h.owner_le space as object has ⟨as, has, hobj⟩
        refine ⟨key, hk, hpos, ?_⟩
        simp only [hinc]
        omega
    · intro first as' object has' hfirst hown second hsecond
      rw [howner] at hown
      obtain ⟨as'', has'', hobj⟩ := hfirst
      rw [has'] at has''
      obtain rfl := Option.some.inj has''
      rcases hspaces first as' has' with ⟨hne, hold⟩ | ⟨rfl, -⟩
      · have hm : c.Maps first object := ⟨as', hold, hobj⟩
        rcases hmaps second object hsecond with hold₂ | ⟨-, hold₂⟩
        · exact h.alone first as' object hold hm hown second hold₂
        · exact absurd (h.alone first as' object hold hm hown space hold₂).symm hne
      · -- the key is new, so that no object has it
        obtain ⟨key, hk, -, hle⟩ := h.owner_le space as object has ⟨as, has, hobj⟩
        rw [hk] at hown
        have hcontra := congrArg BitVec.toNat (Option.some.inj hown)
        simp only [hinc] at hcontra
        omega

theorem Inv.bindObject (h : c.Inv)
    (hb : c.bindObject space mo object = some c') : c'.Inv := by
  unfold CowConfig.bindObject at hb
  cases has : c.spaces[space]? with
  | none => simp [has] at hb
  | some as =>
    cases hos : c.objects[object]? with
    | none => simp [has, hos] at hb
    | some os =>
      simp only [has, hos, Option.bind_eq_bind, Option.bind_some, Option.ite_none_right_eq_some,
        Option.some.injEq] at hb
      obtain ⟨hzero, rfl⟩ := hb
      have hlt : object < c.objects.length := (List.getElem?_eq_some_iff.1 hos).1
      have hown : c.owner object = some 0 := by rw [owner, hos, Option.map_some, hzero]
      refine h.rebind has rfl ?_ ?_
      · intro x key hx hne
        rw [owner_set c _ x _ (.inl ?_), hx]
        rintro rfl
        rw [hown] at hx
        exact hne (Option.some.inj hx).symm
      · intro x hx
        rcases mem_replace hx with rfl | hx
        · exact .inr ⟨by simp [owner, List.getElem?_set_self hlt], .inr hown⟩
        · exact .inl hx

theorem Inv.unbindObject (h : c.Inv)
    (hb : c.unbindObject space mo = some c') : c'.Inv := by
  unfold CowConfig.unbindObject at hb
  cases has : c.spaces[space]? with
  | none => simp [has] at hb
  | some as =>
    simp only [has, Option.bind_eq_bind, Option.bind_some, Option.some.injEq] at hb
    subst hb
    refine h.rebind has rfl (fun _ _ hk _ => hk) fun x hx => .inl ?_
    obtain ⟨y, hy, rfl⟩ := List.mem_map.1 hx
    exact List.mem_map_of_mem (List.mem_filter.1 hy).1

theorem getWriteable_cases {writeable : Nat}
    (h : c.getWriteable space mo object = some (writeable, c')) :
    ∃ as os, c.spaces[space]? = some as ∧ c.objects[object]? = some os ∧
      (os.copyOnWriteOwner = as.cowKey ∧ writeable = object ∧ c' = c ∨
        ∃ copied, writeable = c.objects.length ∧ c' =
          { objects := c.objects ++ [⟨as.cowKey, copied⟩]
            spaces := c.spaces.set space { as with memory := as.memory.replace (mo, c.objects.length) } }) := by
  unfold getWriteable at h
  cases has : c.spaces[space]? with
  | none => simp [has] at h
  | some as =>
    cases hos : c.objects[object]? with
    | none => simp [has, hos] at h
    | some os =>
      refine ⟨as, os, rfl, rfl, ?_⟩
      simp only [has, hos, Option.bind_eq_bind, Option.bind_some, Option.ite_none_left_eq_some] at h
      obtain ⟨-, h⟩ := h
      by_cases hown : as.cowKey = os.copyOnWriteOwner
      · rw [if_pos hown] at h
        obtain ⟨rfl, rfl⟩ := Prod.mk.inj (Option.some.inj h)
        exact .inl ⟨hown.symm, rfl, rfl⟩
      · rw [if_neg hown] at h
        cases hcopy : os.state.copy with
        | none => simp [hcopy] at h
        | some copied =>
          simp only [hcopy, Option.bind_some, Option.some.injEq, Prod.mk.injEq] at h
          exact .inr ⟨copied, h.1.symm, h.2.symm⟩

theorem Inv.getWriteable (h : c.Inv) {writeable : Nat}
    (hg : c.getWriteable space mo object = some (writeable, c')) : c'.Inv := by
  obtain ⟨as, os, has, hos, ⟨-, -, rfl⟩ | ⟨copied, -, rfl⟩⟩ := getWriteable_cases hg
  · exact h
  · refine h.rebind has rfl (fun _ _ hk _ => owner_append hk) fun x hx => ?_
    rcases mem_replace hx with rfl | hx
    · exact .inr ⟨by simp [owner], .inl (by simp [owner])⟩
    · exact .inl hx

theorem write_cases {writes : List (T.Expr × T.Expr)}
    (h : c.write ctx space mo writes = some c') :
    ∃ as object writeable c₁ os wos, c.spaces[space]? = some as ∧ as.memory.findObject mo = some object ∧
      c.getWriteable space mo object = some (writeable, c₁) ∧ c₁.objects[writeable]? = some os ∧
      c' = { c₁ with objects := c₁.objects.set writeable { os with state := wos } } := by
  unfold write at h
  simp only [Option.bind_eq_bind, Option.bind_eq_some_iff, Option.some.injEq] at h
  obtain ⟨as, has, object, hfind, ⟨writeable, c₁⟩, hg, os, hos, wos, -, rfl⟩ := h
  exact ⟨as, object, writeable, c₁, os, wos, has, hfind, hg, hos, rfl⟩

theorem Inv.set_state (h : c.Inv) {os : OwnedObject A} (hos : c.objects[object]? = some os)
    (state : ObjectState A) : Inv { c with objects := c.objects.set object { os with state } } := by
  refine h.of_owners rfl fun x key hx _ => ?_
  rw [owner_set c _ x _ (.inr ?_), hx]
  rw [owner, hos, Option.map_some]

theorem Inv.write (h : c.Inv) {writes : List (T.Expr × T.Expr)}
    (hw : c.write ctx space mo writes = some c') : c'.Inv := by
  obtain ⟨as, object, writeable, c₁, os, wos, -, -, hg, hos, rfl⟩ := write_cases hw
  exact (h.getWriteable hg).set_state hos wos

theorem Inv.read (h : c.Inv) {width : Nat} {offset e : T.Expr}
    (hr : c.read ctx space mo offset width = some (e, c')) : c'.Inv := by
  unfold CowConfig.read at hr
  simp only [Option.bind_eq_bind, Option.bind_eq_some_iff, Option.some.injEq, Prod.mk.injEq] at hr
  obtain ⟨as, -, object, -, os, hos, ⟨e', ros⟩, -, -, rfl⟩ := hr
  exact h.set_state hos ros

theorem Inv.step (h : c.Inv) {ctx : Context} {op : CowOp A} (hk : op.KeyFits c) (hs : op.step ctx c = some c') :
    c'.Inv := by
  cases op with
  | new os =>
    obtain rfl := Option.some.inj hs
    exact h.new os
  | fork space => exact h.fork hk hs
  | bindObject space mo object => exact h.bindObject hs
  | unbindObject space mo => exact h.unbindObject hs
  | write space mo writes => exact h.write hs
  | read space mo offset width =>
    obtain ⟨⟨e, c''⟩, hr, rfl⟩ := Option.map_eq_some_iff.1 hs
    exact h.read hr

theorem Inv.of_reachable (h : CowReachable ctx (fun c op => op.KeyFits c) c) : c.Inv := by
  induction h with
  | initial => exact Inv.initial
  | step op _ hp hs ih => exact ih.step hp hs

/-- A write leaves what every other address space reads as it was. -/
def WritesStayPrivate (ctx : Context) (c : CowConfig A) : Prop :=
  ∀ space mo writes c', c.write ctx space mo writes = some c' →
    ∀ other, other ≠ space → ∀ mo', c'.view other mo' = c.view other mo'

theorem view_congr (hs : c'.spaces[space]? = c.spaces[space]?)
    (ho : ∀ object, c.Maps space object → c'.objects[object]? = c.objects[object]?) (mo : MemoryObject) :
    c'.view space mo = c.view space mo := by
  unfold view
  rw [hs]
  cases has : c.spaces[space]? with
  | none => rfl
  | some as =>
    cases hfind : as.memory.findObject mo with
    | none => simp [hfind]
    | some object =>
      simp only [Option.bind_eq_bind, Option.bind_some, hfind]
      rw [ho object ⟨as, has, mem_of_findObject hfind⟩]

theorem Inv.writesStayPrivate (h : c.Inv) (ctx : Context) : c.WritesStayPrivate ctx := by
  intro space mo writes c' hw other hne mo'
  obtain ⟨as, object, writeable, c₁, os, wos, has, hfind, hg, hos, rfl⟩ := write_cases hw
  have hmaps : c.Maps space object := ⟨as, has, mem_of_findObject hfind⟩
  obtain ⟨as', os', has', hos', ⟨hown, rfl, rfl⟩ | ⟨copied, rfl, rfl⟩⟩ := getWriteable_cases hg
  · refine view_congr (by rfl) (fun x hx => ?_) mo'
    -- the object is owned, so that the other address space does not map it
    have hxo : x ≠ writeable := by
      rintro rfl
      refine hne (h.alone space as' x has' hmaps ?_ other hx)
      rw [owner, hos', Option.map_some, hown]
    exact List.getElem?_set_ne (Ne.symm hxo)
  · refine view_congr (List.getElem?_set_ne (Ne.symm hne)) (fun x hx => ?_) mo'
    obtain ⟨as'', has'', hm⟩ := hx
    obtain ⟨key, hk, -⟩ := h.owner_le other as'' x has'' ⟨as'', has'', hm⟩
    obtain ⟨ox, hox, -⟩ := Option.map_eq_some_iff.1 hk
    have hlt : x < c.objects.length := (List.getElem?_eq_some_iff.1 hox).1
    rw [List.getElem?_set_ne (by omega), List.getElem?_append_left hlt]

/-- In every interleaving of the steps of a tree of address spaces in which no fork wraps a key around, an object state
that an address space owns is mapped by no other one, and writes stay private. -/
theorem copyOnWrite_isolates {ctx : Context} (c : CowConfig A)
    (h : CowReachable ctx (fun c op => op.KeyFits c) c) : c.OwnedAlone ∧ c.WritesStayPrivate ctx := by
  have hinv := Inv.of_reachable h
  exact ⟨hinv.alone, hinv.writesStayPrivate ctx⟩

def target32 : Context := ⟨32, true, by decide⟩

def cell : MemoryObject := ⟨8, 1⟩

def zeroCell : ObjectState (shallowArrays 1) := .ofSize 1 none

def sevenAtZero : List ((shallow 1).Expr × (shallow 1).Expr) := [((shallow 1).const 0 32, (shallow 1).const 7 8)]

def spaceOf (key : BitVec 32) : CowSpace := ⟨key, ⟨[(cell, 0)], by simp⟩⟩

/-- An address space with the cell has been forked `n` times. -/
def forked (n : Nat) : CowConfig (shallowArrays 1) where
  objects := [⟨1, zeroCell⟩]
  spaces := spaceOf (BitVec.ofNat 32 (1 + n)) :: (List.range n).map fun i => spaceOf (BitVec.ofNat 32 (2 + i))

theorem forked_succ (n : Nat) : (forked n).fork 0 = some (forked (n + 1)) := by
  have hkey : BitVec.ofNat 32 (1 + n) + 1#32 = BitVec.ofNat 32 (2 + n) := by
    rw [← BitVec.ofNat_add]
    congr 1
    omega
  have hkey' : BitVec.ofNat 32 (1 + (n + 1)) = BitVec.ofNat 32 (2 + n) := by
    congr 1
    omega
  simp [fork, forked, spaceOf, hkey, hkey', List.range_succ]

theorem forked_reachable {P : CowConfig (shallowArrays 1) → CowOp (shallowArrays 1) → Prop} (n : Nat)
    (hp : ∀ c op, (∀ space, op ≠ .fork space) → P c op) (hf : ∀ i < n, P (forked i) (.fork 0)) :
    CowReachable target32 P (forked n) := by
  induction n with
  | zero =>
    have hnew : CowReachable target32 P (CowConfig.initial.new zeroCell) :=
      .step (.new zeroCell) .initial (hp _ _ (by simp)) rfl
    exact .step (.bindObject 0 cell 0) hnew (hp _ _ (by simp)) rfl
  | succ n ih =>
    have hn := ih fun i hi => hf i (by omega)
    exact .step (.fork 0) hn (hf n (by omega)) (forked_succ n)

theorem copyOnWrite_isolates_fork : (forked 1).OwnedAlone ∧ (forked 1).WritesStayPrivate target32 :=
  copyOnWrite_isolates (forked 1) (forked_reachable 1 (fun c op hop => by
    cases op with
    | fork space => exact absurd rfl (hop space)
    | _ => trivial) fun i hi => by
      obtain rfl : i = 0 := by omega
      intro as has
      obtain rfl := Option.some.inj has
      decide)

theorem forked_wrapped {n : Nat} (hn : 0 < n) (hkey : BitVec.ofNat 32 (1 + n) = 1) :
    ¬(forked n).OwnedAlone ∧ ¬(forked n).WritesStayPrivate target32 := by
  have hfirst : (forked n).spaces[0]? = some (spaceOf 1) := by
    simp [forked, hkey]
  have hsecond : (forked n).spaces[1]? = some (spaceOf 2) := by
    simp [forked, hn]
  constructor
  · intro halone
    have hother := halone 0 (spaceOf 1) 0 hfirst ⟨_, hfirst, by simp [spaceOf]⟩ rfl 1 ⟨_, hsecond, by simp [spaceOf]⟩
    exact absurd hother (by decide)
  · intro hprivate
    have hfind : ∀ key, (spaceOf key).memory.findObject cell = some 0 := fun _ => rfl
    have hwrite : (forked n).write target32 0 cell sevenAtZero =
        some { forked n with objects := [⟨1, zeroCell.write8Concrete 0 7⟩] } := by
      have hget : (forked n).getWriteable 0 cell 0 = some (0, forked n) := by
        simp only [getWriteable, hfirst]
        rfl
      simp only [CowConfig.write, hfirst, Option.bind_eq_bind, Option.bind_some, hfind, hget]
      rfl
    have hview := hprivate 0 cell sevenAtZero _ hwrite 1 (by decide) cell
    simp only [view, hsecond, Option.bind_eq_bind, Option.bind_some, hfind] at hview
    have hbyte : some 7 = some 0 := congrArg (fun os => os.map fun os => os.concreteStore 0) hview
    exact absurd hbyte (by decide)

theorem not_copyOnWrite_isolates :
    ¬∀ c : CowConfig (shallowArrays 1), CowReachable target32 (fun _ _ => True) c →
      c.OwnedAlone ∧ c.WritesStayPrivate target32 := by
  intro h
  have hreach := forked_reachable (2 ^ 32) (P := fun _ _ => True) (fun _ _ _ => trivial) fun _ _ => trivial
  exact (forked_wrapped (n := 2 ^ 32) (by decide) (by decide)).1 (h _ hreach).1

end CowConfig

end CgsKlee
