import CgsKlee.Core.ForkModels
import CgsKlee.Core.Memory
import CgsKlee.Core.ObjectAccess
import CgsKlee.Core.Resolution

/-!
# Memory operations refine the concrete memory

Under a model the memory of a state is a concrete memory.  The states that `executeMemoryOperation` leaves share out
the models of the state it starts from, and each of them agrees with the access to the concrete memory under its
models: the bounds errors, the stores into read-only objects, the loaded value and the memory after a store.
-/

namespace CgsKlee

open Symbolic FlatMemory

variable {T : ExprTheory} {A : ArrayTheory T} {ctx : Context}

def concreteObject (m : T.Model) (op : MemoryObject × ObjectState A) : FlatMemory.Object :=
  ⟨op.1.address, op.2.readOnly, op.2.bytes m⟩

def MemoryData.concrete (d : MemoryData A) (m : T.Model) : List FlatMemory.Object :=
  d.addressSpace.objects.map (concreteObject m)

def MemoryAccess.concrete (m : T.Model) : MemoryAccess T → FlatMemory.Access
  | .load _ type => .load type
  | .store value => .store (T.width value) (T.eval m value)

/-- The invariant of the memory: the live objects fit into the address space and do not overlap, and their states are
coherent. -/
structure MemoryData.Valid (ctx : Context) (d : MemoryData A) : Prop where
  disjoint : d.addressSpace.Disjoint ctx
  coherent : ∀ op ∈ d.addressSpace.objects, op.2.Coherent ∧ op.2.size = op.1.size

/-- The state that is left for a model, with its report, agrees with what the concrete access does. -/
def Simulates (d : MemoryData A) (access : MemoryAccess T) (m : T.Model) (p : MemoryState A × Option Termination) :
    FlatMemory.Result → Prop
  | .outOfBound => p.2 = some .outOfBound
  | .readOnly => p.2 = some .readOnly
  | .loaded v => p.2 = none ∧ p.1.data.concrete m = d.concrete m ∧
      ∃ target type e, access = .load target type ∧ p.1.data.locals = Function.update d.locals target (some e) ∧
        T.eval m e = v
  | .stored objects => p.2 = none ∧ p.1.data.concrete m = objects ∧ p.1.data.locals = d.locals

structure Partitions (X : Set T.Model) (results : List (MemoryState A × Option Termination)) : Prop where
  cover : ∀ m, m ∈ X ↔ ∃ p ∈ results, m ∈ T.models p.1.constraints
  disjoint : results.Pairwise fun p q => ∀ m, ¬(m ∈ T.models p.1.constraints ∧ m ∈ T.models q.1.constraints)

theorem Partitions.empty {X : Set T.Model} (h : ∀ m, m ∉ X) : Partitions X ([] : List (MemoryState A × _)) :=
  ⟨fun m => by simp [h m], .nil⟩

variable {p : MemoryState A × Option Termination} {access : MemoryAccess T} {address : T.Expr} {d : MemoryData A}
    {op : MemoryObject × ObjectState A} {s : MemoryState A}

theorem Partitions.singleton {X : Set T.Model}
    (h : T.models p.1.constraints = X) : Partitions X [p] :=
  ⟨fun m => by simp [h], by simp⟩

theorem Partitions.append {X Y Z : Set T.Model} {ps qs : List (MemoryState A × Option Termination)}
    (hp : Partitions Y ps) (hq : Partitions Z qs) (hX : ∀ m, m ∈ X ↔ m ∈ Y ∨ m ∈ Z)
    (hYZ : ∀ m, ¬(m ∈ Y ∧ m ∈ Z)) : Partitions X (ps ++ qs) := by
  constructor
  · intro m
    rw [hX, hp.cover, hq.cover]
    simp [or_and_right, exists_or]
  · refine List.pairwise_append.2 ⟨hp.disjoint, hq.disjoint, fun p hpm q hqm m hm => hYZ m ⟨?_, ?_⟩⟩
    · exact (hp.cover m).2 ⟨p, hpm, hm.1⟩
    · exact (hq.cover m).2 ⟨q, hqm, hm.2⟩

section Replace

variable {d : MemoryData A} {mo : MemoryObject} {os os' : ObjectState A}

private theorem replaceEntry_eq_map {ω : Type} {mo : MemoryObject} {os os' : ω} {l : List (MemoryObject × ω)}
    (hs : l.Pairwise fun a b => a.1.address < b.1.address) (h : (mo, os) ∈ l) :
    replaceEntry (mo, os') l = l.map fun op => if op.1.address = mo.address then (mo, os') else op := by
  induction l with
  | nil => cases h
  | cons x l ih =>
    obtain ⟨hx, hl⟩ := List.pairwise_cons.1 hs
    unfold replaceEntry
    rcases List.mem_cons.1 h with rfl | h
    · have hrest : l.map (fun op => if op.1.address = mo.address then (mo, os') else op) = l := by
        conv_rhs => rw [← List.map_id l]
        refine List.map_congr_left fun op hop => ?_
        have hlt : mo.address < op.1.address := hx op hop
        exact if_neg (by omega)
      simp [hrest]
    · have hlt := hx _ h
      dsimp only at hlt
      have hne : x.1.address ≠ mo.address := by omega
      simp only [List.map_cons, if_neg hne, ih hl h]
      rw [if_neg (by omega), if_pos hlt]

private theorem objects_writeObject (h : (mo, os) ∈ d.addressSpace.objects) :
    (d.writeObject mo os').addressSpace.objects =
      d.addressSpace.objects.map fun op => if op.1.address = mo.address then (mo, os') else op :=
  replaceEntry_eq_map d.addressSpace.sorted h

theorem concrete_writeObject (h : (mo, os) ∈ d.addressSpace.objects) (m : T.Model) :
    (d.writeObject mo os').concrete m =
      (d.concrete m).map fun o => if o.address = mo.address then concreteObject m (mo, os') else o := by
  unfold MemoryData.concrete
  rw [objects_writeObject h, List.map_map, List.map_map]
  refine List.map_congr_left fun op _ => ?_
  simp only [Function.comp_apply]
  split
  · rename_i ha
    exact (if_pos ha).symm
  · rename_i ha
    exact (if_neg ha).symm

theorem concrete_writeObject_reads (h : (mo, os) ∈ d.addressSpace.objects) (hr : os.Reads os') (m : T.Model) :
    (d.writeObject mo os').concrete m = d.concrete m := by
  unfold MemoryData.concrete
  rw [objects_writeObject h, List.map_map]
  refine List.map_congr_left fun op hop => ?_
  simp only [Function.comp_apply]
  split
  · rename_i ha
    rw [mem_unique hop h ha, concreteObject, concreteObject, hr.readOnly, hr.bytes]
  · rfl

theorem valid_writeObject (hv : d.Valid ctx) (h : (mo, os) ∈ d.addressSpace.objects) (hk : os.Keeps os') :
    (d.writeObject mo os').Valid ctx := by
  have hfst : (d.writeObject mo os').addressSpace.objects.map (·.1) = d.addressSpace.objects.map (·.1) := by
    rw [objects_writeObject h, List.map_map]
    refine List.map_congr_left fun op hop => ?_
    simp only [Function.comp_apply]
    split
    · rename_i ha
      rw [mem_unique hop h ha]
    · rfl
  refine ⟨⟨fun op hop => ?_, ?_⟩, fun op hop => ?_⟩
  · have hmem : op.1 ∈ d.addressSpace.objects.map (·.1) := hfst ▸ List.mem_map_of_mem hop
    obtain ⟨op', hop', he⟩ := List.mem_map.1 hmem
    exact he ▸ hv.disjoint.fits op' hop'
  · have hap := hv.disjoint.apart
    rw [← List.pairwise_map (f := fun op : MemoryObject × ObjectState A => op.1)
      (R := fun a b => a.address + max a.size 1 ≤ b.address)] at hap ⊢
    rwa [hfst]
  · rcases mem_replaceEntry hop with rfl | hop
    · have hc := hv.coherent _ h
      exact ⟨hk.coherent, hk.size.trans hc.2⟩
    · exact hv.coherent op hop

end Replace

def InBounds (address : T.Expr) (access : MemoryAccess T) (m : T.Model) (mo : MemoryObject) : Prop :=
  mo.address ≤ T.eval m address ∧ T.eval m address + bytesForWidth access.type ≤ mo.address + mo.size

/-- What is left of the access to one object, in a state whose models are all in bounds. -/
private structure Accessed (ctx : Context) (d : MemoryData A) (access : MemoryAccess T) (address : T.Expr)
    (op : MemoryObject × ObjectState A) (X : Set T.Model) (p : MemoryState A × Option Termination) : Prop where
  models : T.models p.1.constraints = X
  valid : p.1.data.Valid ctx
  simulates : ∀ m ∈ X, Simulates d access m p ((concreteObject m op).access ctx.isLittleEndian (d.concrete m)
    (T.eval m address) (access.concrete m))

private theorem accessObject_spec (B : Backend T) (hv : d.Valid ctx)
    (hdata : s.data = d) (hs : (T.models s.constraints).Nonempty)
    (hop : op ∈ d.addressSpace.objects) (hp : T.width address = ctx.pointerWidth) (hw : ByteSized access.type)
    (hin : ∀ m ∈ T.models s.constraints, InBounds address access m op.1) :
    ∃ p, accessObject ctx B none s op address access = some p ∧
      Accessed ctx d access address op (T.models s.constraints) p := by
  subst hdata
  obtain ⟨mo, os⟩ := op
  obtain ⟨hcoh, hsize⟩ := hv.coherent _ hop
  dsimp only at hcoh hsize hin
  have hfits := hv.disjoint.fits _ hop
  have hoff : ∀ m ∈ T.models s.constraints, T.eval m (mo.getOffsetExpr ctx address) = T.eval m address - mo.address :=
    fun m hm => MemoryObject.eval_getOffsetExpr_of_le hfits hp (hin m hm).1
  have hbound : ∀ m ∈ T.models s.constraints,
      T.eval m (mo.getOffsetExpr ctx address) + bytesForWidth access.type ≤ os.size := by
    intro m hm
    obtain ⟨h₁, h₂⟩ := hin m hm
    rw [hoff m hm]
    omega
  have hsome : ∃ m, T.eval m (mo.getOffsetExpr ctx address) + bytesForWidth access.type ≤ os.size :=
    hs.imp hbound
  cases access with
  | store value =>
    by_cases hro : os.readOnly = true
    · refine ⟨(s, some .readOnly), by simp [accessObject, hro], rfl, hv, fun m _ => ?_⟩
      have hres : (concreteObject m (mo, os)).access ctx.isLittleEndian (s.data.concrete m) (T.eval m address)
          (MemoryAccess.concrete m (.store value)) = .readOnly := if_pos hro
      rw [hres]
      rfl
    · obtain ⟨os', heq, hk, hbytes⟩ := ObjectState.write_spec ctx hcoh hw hsome
      refine ⟨({ s with data := s.data.writeObject mo os' }, none), by simp [accessObject, hro, heq], rfl,
        valid_writeObject hv hop hk, fun m hm => ?_⟩
      have hres : (concreteObject m (mo, os)).access ctx.isLittleEndian (s.data.concrete m) (T.eval m address)
          (MemoryAccess.concrete m (.store value)) = .stored _ := if_neg hro
      rw [hres]
      refine ⟨rfl, ?_, rfl⟩
      rw [concrete_writeObject hop, concreteObject, hk.readOnly, hbytes m (hbound m hm), hoff m hm]
      rfl
  | load target type =>
    obtain ⟨e, os', heq, hr, -, hval⟩ := ObjectState.read_spec ctx hcoh hw hsome
    have hvalid := valid_writeObject hv hop hr.toKeeps
    refine ⟨({ s with data := (s.data.writeObject mo os').bindLocal target e }, none), ?_, rfl,
      ⟨hvalid.disjoint, hvalid.coherent⟩, fun m hm => ?_⟩
    · simp only [MemoryAccess.type] at heq
      simp [accessObject, heq, replaceReadWithSymbolic]
    · refine ⟨rfl, concrete_writeObject_reads hop hr m, target, type, e, rfl, rfl, ?_⟩
      rw [hval m (hbound m hm), hoff m hm]
      rfl

/-- What a state of the chain has to do with the objects `rl` that it was to be served by. -/
private structure Served (ctx : Context) (d : MemoryData A) (access : MemoryAccess T) (address : T.Expr)
    (rl : List (MemoryObject × ObjectState A)) (p : MemoryState A × Option Termination) : Prop where
  valid : p.1.data.Valid ctx
  simulates : ∀ m ∈ T.models p.1.constraints,
    (∃ op ∈ rl, InBounds address access m op.1 ∧ Simulates d access m p ((concreteObject m op).access
      ctx.isLittleEndian (d.concrete m) (T.eval m address) (access.concrete m))) ∨
    ((∀ op ∈ rl, ¬InBounds address access m op.1) ∧ p.2 = some .outOfBound)

variable {B : Backend T}

private theorem Served.cons {d : MemoryData A} {access : MemoryAccess T} {address : T.Expr}
    {op : MemoryObject × ObjectState A} {rl : List (MemoryObject × ObjectState A)}
    {p : MemoryState A × Option Termination} (h : Served ctx d access address rl p)
    (hno : ∀ m ∈ T.models p.1.constraints, ¬InBounds address access m op.1) :
    Served ctx d access address (op :: rl) p := by
  refine ⟨h.valid, ?_⟩
  intro m hm
  rcases h.simulates m hm with ⟨x, hx, hin, hsim⟩ | ⟨hrl, herr⟩
  · exact .inl ⟨x, by simp [hx], hin, hsim⟩
  · refine .inr ⟨?_, herr⟩
    intro x hx
    rcases List.mem_cons.1 hx with rfl | hx
    · exact hno m hm
    · exact hrl x hx

private theorem accessBound_spec (hv : d.Valid ctx) {unbound : MemoryState A}
    (hdata : unbound.data = d) (hop : op ∈ d.addressSpace.objects) (hp : T.width address = ctx.pointerWidth) (hw : ByteSized access.type)
    {r : ForkResult T (MemoryData A)}
    (hr : Forked unbound (op.1.getBoundsCheckPointerBytes ctx address (bytesForWidth access.type)) r) :
    ∃ bound, accessBound ctx B op address access r.trueState = some bound ∧ Partitions (modelsOf r.trueState) bound ∧
      ∀ p ∈ bound, ∀ rl, Served ctx d access address (op :: rl) p := by
  cases ht : r.trueState with
  | none => exact ⟨[], rfl, Partitions.empty fun m hm => hm, by simp⟩
  | some b =>
    have hall : ∀ m ∈ T.models b.constraints, InBounds address access m op.1 := by
      intro m hm
      have hm' : m ∈ modelsOf r.trueState := by
        rw [ht]
        exact hm
      rw [hr.trueModels] at hm'
      exact (MemoryObject.holds_getBoundsCheckPointerBytes (hv.disjoint.fits op hop) hp (bytesForWidth_pos hw) m).1 hm'.2
    obtain ⟨p, hpe, hacc⟩ := accessObject_spec B hv ((hr.trueData b ht).1.trans hdata) (hr.nonempty.1 b ht) hop hp hw
      hall
    refine ⟨[p], by simp [accessBound, hpe], Partitions.singleton hacc.models, ?_⟩
    intro q hq rl
    rw [List.mem_singleton.1 hq]
    refine ⟨hacc.valid, fun m hm => .inl ⟨op, by simp, ?_, ?_⟩⟩
    · exact hall m (hacc.models ▸ hm)
    · exact hacc.simulates m (hacc.models ▸ hm)

private theorem forkResolutions_spec (hB : B.Exact) {env : Nat → ForkEnv} (coin : Nat → Bool)
    (hv : s.data.Valid ctx) (hp : T.width address = ctx.pointerWidth)
    (hw : ByteSized access.type) (rl : List (MemoryObject × ObjectState A)) (i : Nat)
    (henv : ForksUnlimited env s (i + rl.length)) (hrl : ∀ op ∈ rl, op ∈ s.data.addressSpace.objects)
    {unbound : MemoryState A} (hdata : unbound.data = s.data) (hfork : unbound.forkDisabled = s.forkDisabled)
    (hdepth : unbound.depth ≤ s.depth + i) (hs : (T.models unbound.constraints).Nonempty) :
    ∃ results, forkResolutions ctx B env coin address access false rl i unbound = some results ∧
      Partitions (T.models unbound.constraints) results ∧ ∀ p ∈ results, Served ctx s.data access address rl p := by
  induction rl generalizing i unbound with
  | nil =>
    refine ⟨_, rfl, Partitions.singleton rfl, ?_⟩
    intro p hpm
    rw [List.mem_singleton.1 hpm]
    exact ⟨by rw [hdata]; exact hv, fun m _ => .inr ⟨by simp, rfl⟩⟩
  | cons op rl ih =>
    have hop := hrl op (by simp)
    have hcond : ∀ m, T.Holds m (op.1.getBoundsCheckPointerBytes ctx address (bytesForWidth access.type)) ↔
        InBounds address access m op.1 := fun m =>
      MemoryObject.holds_getBoundsCheckPointerBytes (hv.disjoint.fits op hop) hp (bytesForWidth_pos hw) m
    obtain ⟨r, hr, hforked⟩ := fork_forked hB (henv.unlimited (i := i) (by simp) hfork hdepth) hs
      (c := op.1.getBoundsCheckPointerBytes ctx address (bytesForWidth access.type)) (by simp) (coin i)
    obtain ⟨bound, hbound, hbpart, hbserved⟩ := accessBound_spec (B := B) hv hdata hop hp hw hforked
    simp only [forkResolutions, hr, Option.bind_eq_bind, Option.bind_some, hforked.terminated, List.map_nil,
      List.nil_append, hbound]
    have hsplit : ∀ m, m ∈ T.models unbound.constraints ↔ m ∈ modelsOf r.trueState ∨ m ∈ modelsOf r.falseState := by
      intro m
      rw [hforked.trueModels, hforked.falseModels]
      exact ⟨fun hm => (em _).imp (fun hc => ⟨hm, hc⟩) fun hc => ⟨hm, hc⟩, fun hm => hm.elim (·.1) (·.1)⟩
    have hapart : ∀ m, ¬(m ∈ modelsOf r.trueState ∧ m ∈ modelsOf r.falseState) := by
      intro m
      rw [hforked.trueModels, hforked.falseModels]
      exact fun hm => hm.2.2 hm.1.2
    cases hf : r.falseState with
    | none =>
      rw [hf] at hsplit hapart
      refine ⟨bound, rfl, ?_, fun p hpm => hbserved p hpm rl⟩
      have happ := hbpart.append (Partitions.empty fun m hm => hm) hsplit hapart
      rwa [List.append_nil] at happ
    | some u =>
      -- the next object serves the state that is still unbound
      rw [hf] at hsplit hapart
      obtain ⟨hud, huf⟩ := hforked.falseData u hf
      have hudepth := hforked.depth.2 u hf
      have henv' : ForksUnlimited env s (i + 1 + rl.length) := by
        rwa [List.length_cons, Nat.add_comm rl.length, ← Nat.add_assoc] at henv
      obtain ⟨rest, hrest, hpart, hserved⟩ := ih (i + 1) henv' (fun x hx => hrl x (by simp [hx])) (hud.trans hdata)
        (huf.trans hfork) (by omega) (hforked.nonempty.2 u hf)
      refine ⟨bound ++ rest, by simp [hrest], hbpart.append hpart hsplit hapart, ?_⟩
      intro p hpm
      rcases List.mem_append.1 hpm with hpm | hpm
      · exact hbserved p hpm rl
      · refine (hserved p hpm).cons ?_
        intro m hm
        have hmu : m ∈ modelsOf r.falseState := by
          rw [hf]
          exact (hpart.cover m).2 ⟨p, hpm, hm⟩
        rw [hforked.falseModels] at hmu
        exact fun hin => hmu.2 ((hcond m).2 hin)

private theorem width_concrete (access : MemoryAccess T) (m : T.Model) : (access.concrete m).width = access.type := by
  cases access <;> rfl

private theorem bytesForWidth_concrete_pos (hw : ByteSized access.type) (m : T.Model) :
    0 < bytesForWidth (access.concrete m).width := by
  rw [width_concrete]
  exact bytesForWidth_pos hw

private theorem contains_concreteObject (hv : d.Valid ctx)
    (hop : op ∈ d.addressSpace.objects) {m : T.Model} :
    (concreteObject m op).Contains (T.eval m address) (bytesForWidth (access.concrete m).width) ↔
      InBounds address access m op.1 := by
  unfold FlatMemory.Object.Contains InBounds concreteObject
  rw [width_concrete, ObjectState.length_bytes, (hv.coherent op hop).2]

private theorem disjoint_concrete (hv : d.Valid ctx) (m : T.Model) :
    FlatMemory.Disjoint (d.concrete m) := by
  unfold FlatMemory.Disjoint MemoryData.concrete
  rw [List.pairwise_map]
  refine (List.Pairwise.and_mem.1 hv.disjoint.apart).imp fun {a b} hab => .inl ?_
  simpa [concreteObject, (hv.coherent a hab.1).2] using hab.2.2

private theorem access_eq_outOfBound (hv : d.Valid ctx) (m : T.Model) :
    FlatMemory.access ctx.isLittleEndian (d.concrete m) (T.eval m address) (access.concrete m) = .outOfBound ↔
      ∀ op ∈ d.addressSpace.objects, ¬InBounds address access m op.1 := by
  rw [FlatMemory.access_eq_outOfBound_iff]
  constructor
  · intro h op hop hin
    exact h _ (List.mem_map_of_mem hop) ((contains_concreteObject hv hop).2 hin)
  · rintro h o ho hc
    obtain ⟨op, hop, rfl⟩ := List.mem_map.1 ho
    exact h op hop ((contains_concreteObject hv hop).1 hc)

private theorem access_eq_readOnly (hv : d.Valid ctx)
    (hw : ByteSized access.type) (m : T.Model) :
    FlatMemory.access ctx.isLittleEndian (d.concrete m) (T.eval m address) (access.concrete m) = .readOnly ↔
      (∃ value, access = .store value) ∧
        ∃ op ∈ d.addressSpace.objects, InBounds address access m op.1 ∧ op.2.readOnly = true := by
  rw [FlatMemory.access_eq_readOnly_iff (disjoint_concrete hv m) (bytesForWidth_concrete_pos hw m)]
  refine and_congr ?_ ?_
  · cases access <;> simp [MemoryAccess.concrete]
  · constructor
    · rintro ⟨o, ho, hc, hro⟩
      obtain ⟨op, hop, rfl⟩ := List.mem_map.1 ho
      exact ⟨op, hop, (contains_concreteObject hv hop).1 hc, hro⟩
    · rintro ⟨op, hop, hin, hro⟩
      exact ⟨_, List.mem_map_of_mem hop, (contains_concreteObject hv hop).2 hin, hro⟩

private theorem Served.refines (hv : d.Valid ctx) (hw : ByteSized access.type) {rl : List (MemoryObject × ObjectState A)}
    (h : Served ctx d access address rl p) (hrl : ∀ op ∈ rl, op ∈ d.addressSpace.objects) {m : T.Model}
    (hm : m ∈ T.models p.1.constraints)
    (hall : ∀ op ∈ d.addressSpace.objects, InBounds address access m op.1 → op ∈ rl) :
    Simulates d access m p (FlatMemory.access ctx.isLittleEndian (d.concrete m) (T.eval m address)
      (access.concrete m)) := by
  rcases h.simulates m hm with ⟨op, hop, hin, hsim⟩ | ⟨hno, herr⟩
  · have hobj := hrl op hop
    rwa [FlatMemory.access_of_contains (disjoint_concrete hv m) (List.mem_map_of_mem hobj)
      (bytesForWidth_concrete_pos hw m) ((contains_concreteObject hv hobj).2 hin)]
  · rw [(access_eq_outOfBound hv m).2 fun op hop hin => hno op (hall op hop hin) hin]
    exact herr

/-- What the states of a memory operation have to do with the concrete access. -/
structure RefinesAccess (ctx : Context) (s : MemoryState A) (access : MemoryAccess T) (address : T.Expr)
    (results : List (MemoryState A × Option Termination)) : Prop where
  partitions : Partitions (T.models s.constraints) results
  valid : ∀ p ∈ results, p.1.data.Valid ctx
  simulates : ∀ p ∈ results, ∀ m ∈ T.models p.1.constraints, Simulates s.data access m p
    (FlatMemory.access ctx.isLittleEndian (s.data.concrete m) (T.eval m address) (access.concrete m))

private theorem resolveAndAccess_spec (hB : B.Exact) {opts : MemoryOptions T}
    (hopts : opts.makeConcreteSymbolic = none) {env : Nat → ForkEnv} (coin : Nat → Bool)
    (hs : (T.models s.constraints).Nonempty) (hv : s.data.Valid ctx)
    (henv : ForksUnlimited env s s.data.addressSpace.objects.length)
    (hp : T.width address = ctx.pointerWidth) (hw : ByteSized access.type) :
    ∃ results, resolveAndAccess ctx B opts env coin s access address = some results ∧
      RefinesAccess ctx s access address results := by
  -- the slow path: a model in bounds of an object may point into it
  obtain ⟨rl, hrl, hnodup, hmem⟩ := AddressSpace.resolve_spec hB hs hv.disjoint hp
  have hlen : 0 + rl.length ≤ s.data.addressSpace.objects.length := by
    rw [Nat.zero_add]
    exact List.Nodup.length_le_of_subset hnodup fun op hop => ((hmem op).1 hop).1
  have henv' : ForksUnlimited env s (0 + rl.length) :=
    ⟨fun i hi => henv.permitted i (hi.trans_le hlen), fun i hi => henv.static i (hi.trans_le hlen),
      fun i hi => henv.depth i (hi.trans_le hlen)⟩
  obtain ⟨results, hresults, hpart, hserved⟩ := forkResolutions_spec hB coin hv hp hw rl 0 henv'
    (fun op hop => ((hmem op).1 hop).1) rfl rfl (Nat.le_add_right _ _) hs
  have hslow : RefinesAccess ctx s access address results := by
    refine ⟨hpart, fun p hpm => (hserved p hpm).valid, fun p hpm m hm => ?_⟩
    refine (hserved p hpm).refines hv hw (fun op hop => ((hmem op).1 hop).1) hm fun op hop hin => ?_
    have hpos := bytesForWidth_pos hw
    refine (hmem op).2 ⟨hop, m, (hpart.cover m).2 ⟨p, hpm, hm⟩, hin.1, ?_⟩
    have hend := hin.2
    omega
  unfold resolveAndAccess
  rw [hrl]
  dsimp only
  split
  · rename_i op hone
    split
    · -- the fast path: all models are in bounds of one object
      rename_i hmust
      have hop := AddressSpace.mem_of_resolveOne hone
      have hall : ∀ m ∈ T.models s.constraints, InBounds address access m op.1 := fun m hm =>
        (MemoryObject.holds_getBoundsCheckPointerBytes (hv.disjoint.fits op hop) hp (bytesForWidth_pos hw) m).1
          ((hB.mustBeTrue hs (MemoryObject.width_getBoundsCheckPointerBytes _)).1 hmust m hm)
      obtain ⟨p, hpe, hacc⟩ := accessObject_spec B hv rfl hs hop hp hw hall
      rw [hopts, hpe]
      refine ⟨[p], rfl, Partitions.singleton hacc.models, ?_, ?_⟩
      · intro q hq
        rw [List.mem_singleton.1 hq]
        exact hacc.valid
      · intro q hq m hm
        rw [List.mem_singleton.1 hq] at hm ⊢
        have hms := hacc.models ▸ hm
        have hserved : Served ctx s.data access address s.data.addressSpace.objects p :=
          ⟨hacc.valid, fun m hm => .inl ⟨op, hop, hall m (hacc.models ▸ hm), hacc.simulates m (hacc.models ▸ hm)⟩⟩
        exact hserved.refines hv hw (fun _ h => h) hm fun _ h _ => h
    · exact ⟨results, hresults, hslow⟩
  · exact ⟨results, hresults, hslow⟩

section Simplify

variable {opts : MemoryOptions T} {cs : List T.Expr}

private theorem simplifySymbolic_spec (hB : B.Exact) (opts : MemoryOptions T) (cs : List T.Expr) (e : T.Expr) :
    T.width (simplifySymbolic B opts cs e) = T.width e ∧
      ∀ m ∈ T.models cs, T.eval m (simplifySymbolic B opts cs e) = T.eval m e := by
  unfold simplifySymbolic
  split
  · exact ⟨hB.simplifyExpr_width, fun m hm => hB.simplifyExpr_eval m hm⟩
  · exact ⟨rfl, fun _ _ => rfl⟩

private theorem type_simplify (hB : B.Exact) (access : MemoryAccess T) :
    (access.simplify B opts cs).type = access.type := by
  cases access with
  | load target type => rfl
  | store value => exact (simplifySymbolic_spec hB opts cs value).1

private theorem concrete_simplify (hB : B.Exact) (access : MemoryAccess T) {m : T.Model} (hm : m ∈ T.models cs) :
    (access.simplify B opts cs).concrete m = access.concrete m := by
  cases access with
  | load target type => rfl
  | store value =>
    obtain ⟨hw, he⟩ := simplifySymbolic_spec hB opts cs value
    simp only [MemoryAccess.simplify, MemoryAccess.concrete, hw, he m hm]

private theorem Simulates.of_simplify {d : MemoryData A} {access : MemoryAccess T} {m : T.Model}
    {p : MemoryState A × Option Termination} {r : FlatMemory.Result}
    (h : Simulates d (access.simplify B opts cs) m p r) : Simulates d access m p r := by
  cases access with
  | load target type => exact h
  | store value =>
    cases r with
    | outOfBound => exact h
    | readOnly => exact h
    | loaded v =>
      obtain ⟨-, -, _, _, _, hacc, -⟩ := h
      cases hacc
    | stored objects => exact h

end Simplify

private theorem Simulates.report {m : T.Model} {r : FlatMemory.Result} (h : Simulates d access m p r) :
    (p.2 = some .outOfBound ↔ r = .outOfBound) ∧ (p.2 = some .readOnly ↔ r = .readOnly) := by
  have hne : Termination.readOnly ≠ Termination.outOfBound := by decide
  cases r with
  | outOfBound =>
    have hp : p.2 = some .outOfBound := h
    simp [hp, hne.symm]
  | readOnly =>
    have hp : p.2 = some .readOnly := h
    simp [hp, hne]
  | loaded v =>
    have hp : p.2 = none := h.1
    simp [hp]
  | stored objects =>
    have hp : p.2 = none := h.1
    simp [hp]

/-- Memory operations refine the concrete memory: the states that are left share out the models of the state, each
agrees with the concrete access under its models, and the reports are those of the accesses that are out of bounds and
of the stores into read-only objects. -/
theorem executeMemoryOperation_refines (hB : B.Exact) {opts : MemoryOptions T}
    (hopts : opts.makeConcreteSymbolic = none) {env : Nat → ForkEnv} (coin : Nat → Bool) {s : MemoryState A}
    (hs : (T.models s.constraints).Nonempty) (hv : s.data.Valid ctx)
    (henv : ForksUnlimited env s s.data.addressSpace.objects.length) {address : T.Expr}
    (hp : T.width address = ctx.pointerWidth) {access : MemoryAccess T} (hw : ByteSized access.type) :
    ∃ results, executeMemoryOperation ctx B opts env coin s access address = some results ∧
      RefinesAccess ctx s access address results ∧
      ∀ p ∈ results, ∀ m ∈ T.models p.1.constraints,
        (p.2 = some .outOfBound ↔ ∀ op ∈ s.data.addressSpace.objects, ¬InBounds address access m op.1) ∧
        (p.2 = some .readOnly ↔ (∃ value, access = .store value) ∧
          ∃ op ∈ s.data.addressSpace.objects, InBounds address access m op.1 ∧ op.2.readOnly = true) := by
  obtain ⟨hwidth, heval⟩ := simplifySymbolic_spec hB opts s.constraints address
  have hw' : ByteSized (access.simplify B opts s.constraints).type := by rwa [type_simplify hB access]
  obtain ⟨results, hresults, href⟩ := resolveAndAccess_spec hB hopts coin hs hv henv (hwidth.trans hp) hw'
  have hsub : ∀ p ∈ results, ∀ m ∈ T.models p.1.constraints, m ∈ T.models s.constraints := fun p hpm m hm =>
    (href.partitions.cover m).2 ⟨p, hpm, hm⟩
  have hsim : ∀ p ∈ results, ∀ m ∈ T.models p.1.constraints, Simulates s.data access m p
      (FlatMemory.access ctx.isLittleEndian (s.data.concrete m) (T.eval m address) (access.concrete m)) := by
    intro p hpm m hm
    have h := href.simulates p hpm m hm
    rw [heval m (hsub p hpm m hm), concrete_simplify hB access (hsub p hpm m hm)] at h
    exact h.of_simplify
  refine ⟨results, hresults, ⟨href.partitions, href.valid, hsim⟩, fun p hpm m hm => ?_⟩
  obtain ⟨hout, hro⟩ := (hsim p hpm m hm).report
  exact ⟨hout.trans (access_eq_outOfBound hv m), hro.trans (access_eq_readOnly hv hw m)⟩

/-- A state without constraints whose memory is one zero byte at the address 8. -/
def oneByte : MemoryState (shallowArrays 1) where
  constraints := []
  depth := 0
  forkDisabled := false
  data := ⟨⟨[(⟨8, 1⟩, .ofSize 1 none)], by simp⟩, fun _ => none⟩

/-- The pointer to that byte, or to the one behind it. -/
def symbolicPointer : (shallow 1).Expr := ⟨64, fun m => BitVec.ofNat 64 (8 + m)⟩

def loadByte : MemoryAccess (shallow 1) := .load 0 8

theorem oneByte_valid : oneByte.data.Valid target64 := by
  refine ⟨⟨?_, by simp [oneByte]⟩, ?_⟩
  · intro op hop
    rw [List.mem_singleton.1 hop]
    exact ⟨by decide, by decide⟩
  · intro op hop
    rw [List.mem_singleton.1 hop]
    exact ⟨ObjectState.ofSize_coherent (by decide) (by simp), rfl⟩

theorem oneByte_nonempty : ((shallow 1).models oneByte.constraints).Nonempty :=
  ⟨(0 : Fin 2), fun _ h => nomatch h⟩

theorem executeMemoryOperation_refines_loadByte :
    ∃ results, executeMemoryOperation target64 (shallowBackend 1) {} (fun _ => {}) (fun _ => true) oneByte loadByte
        symbolicPointer = some results ∧
      RefinesAccess target64 oneByte loadByte symbolicPointer results ∧
      ∀ p ∈ results, ∀ m ∈ (shallow 1).models p.1.constraints,
        (p.2 = some .outOfBound ↔ ∀ op ∈ oneByte.data.addressSpace.objects, ¬InBounds symbolicPointer loadByte m op.1) ∧
        (p.2 = some .readOnly ↔ (∃ value, loadByte = .store value) ∧
          ∃ op ∈ oneByte.data.addressSpace.objects, InBounds symbolicPointer loadByte m op.1 ∧ op.2.readOnly = true) :=
  executeMemoryOperation_refines (shallowBackend_exact 1) rfl (fun _ => true) oneByte_nonempty oneByte_valid
    ⟨fun _ _ => rfl, fun _ _ => rfl, fun _ _ => .inl rfl⟩ rfl (.inr ⟨1, by decide, rfl⟩)

/-- The operation on the one byte refines the concrete access. -/
def OperationRefines (opts : MemoryOptions (shallow 1)) (env : ForkEnv) (access : MemoryAccess (shallow 1))
    (address : (shallow 1).Expr) : Prop :=
  ∃ results, executeMemoryOperation target64 (shallowBackend 1) opts (fun _ => env) (fun _ => true) oneByte access
      address = some results ∧ RefinesAccess target64 oneByte access address results

def coveredModels (results : List (MemoryState (shallowArrays 1) × Option Termination)) : List (Fin 2) :=
  (List.finRange 2).filter fun m => results.any fun p => satisfies m p.1.constraints

/-- A fresh symbolic byte, as `MakeConcreteSymbolic` puts it in the place of a constant. -/
def freshByte : (shallow 1).Expr := ⟨8, fun m => BitVec.ofNat 8 m⟩

/-- Inputs are lost where branching is not permitted, where a `MaxStatic*Pct` limit is reached and where a concrete
load is made symbolic; `MaxDepth` terminates an access that is in bounds, and a store of five bits fails an
assertion. -/
theorem not_operationRefines :
    ¬OperationRefines {} { inhibitForking := true } loadByte symbolicPointer ∧
    ¬OperationRefines {} hotFork loadByte symbolicPointer ∧
    ¬OperationRefines { makeConcreteSymbolic := some freshByte } {} loadByte ((shallow 1).const 8 64) ∧
    ¬OperationRefines {} shallowTree loadByte symbolicPointer ∧
    ¬OperationRefines {} {} (.store ((shallow 1).const 0 5)) symbolicPointer := by
  have hlost : ∀ {opts env access address}, (executeMemoryOperation target64 (shallowBackend 1) opts (fun _ => env)
      (fun _ => true) oneByte access address).map coveredModels = some [0] →
      ¬OperationRefines opts env access address := by
    rintro opts env access address h ⟨results, hr, href⟩
    rw [hr, Option.map_some, Option.some.injEq] at h
    obtain ⟨p, hp, hm⟩ := (href.partitions.cover (1 : Fin 2)).1 fun _ h => nomatch h
    have hmem : (1 : Fin 2) ∈ coveredModels results := by
      unfold coveredModels
      simp only [List.mem_filter, List.mem_finRange, true_and, List.any_eq_true]
      exact ⟨p, hp, satisfies_iff.2 hm⟩
    rw [h] at hmem
    exact absurd hmem (by decide)
  refine ⟨hlost (by decide +kernel), hlost (by decide +kernel), hlost (by decide +kernel), ?_, ?_⟩
  · rintro ⟨results, hr, href⟩
    have hall : (executeMemoryOperation target64 (shallowBackend 1) {} (fun _ => shallowTree) (fun _ => true) oneByte
        loadByte symbolicPointer).map (·.all fun p => p.2 = some .maxDepth) = some true := by decide
    rw [hr, Option.map_some, Option.some.injEq, List.all_eq_true] at hall
    obtain ⟨p, hp, hm⟩ := (href.partitions.cover (0 : Fin 2)).1 fun _ h => nomatch h
    have hsim := href.simulates p hp (0 : Fin 2) hm
    have hloaded : FlatMemory.access true (oneByte.data.concrete (0 : Fin 2)) 8 (.load 8) = .loaded 0 := by
      decide
    have hres : FlatMemory.access target64.isLittleEndian (oneByte.data.concrete (0 : Fin 2))
        ((shallow 1).eval (0 : Fin 2) symbolicPointer) (loadByte.concrete (0 : Fin 2)) = .loaded 0 := hloaded
    rw [hres] at hsim
    have hdepth := hall p hp
    simp [hsim.1] at hdepth
  · rintro ⟨results, hr, -⟩
    have hnone : (executeMemoryOperation target64 (shallowBackend 1) {} (fun _ => {})
        (fun _ => true) oneByte (.store ((shallow 1).const 0 5)) symbolicPointer).isNone = true := by decide
    simp [hr] at hnone

end CgsKlee
