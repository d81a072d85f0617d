import Mathlib.Logic.Function.Basic
import Mathlib.Data.List.Nodup

/-!
# Cleaning of phi nodes

The executor enters a block with one index of incoming values, that of the first phi node, and executes the phi nodes
one after another.  `PhiCleanerPass` lists the incoming blocks of all phi nodes of a block in the order of the first one,
and lets a phi node that uses an earlier one read a copy that is made at the end of the incoming block.  Then the phi
nodes get the values of LLVM, for which they are all executed at once.
-/

namespace CgsKlee

namespace PhiCleaner

variable {K X : Type}

/-- The result of an instruction, or a value that no instruction changes. -/
inductive Operand (K : Type)
  | inst (register : Nat)
  | constant (c : K)
deriving DecidableEq

structure PHINode (K : Type) where
  result : Nat
  incoming : List (Operand K × Nat)

def PHINode.blocks (phi : PHINode K) : List Nat := phi.incoming.map (·.2)

def PHINode.getIncomingValueForBlock (phi : PHINode K) (b : Nat) : Option (Operand K) :=
  (phi.incoming.find? (·.2 = b)).map (·.1)

/-- The end of a block, where a register is copied to a new one. -/
structure Copy where
  block : Nat
  tmp : Nat
  source : Nat

/-- The number of the next new register, the copies in the order in which they are inserted, and what the pass returns. -/
structure Cleaner where
  next : Nat
  copies : List Copy
  changed : Bool

/-- The loop over the incoming values: those of `phis` are copied. -/
def cleanIncoming (phis : List Nat) : List (Operand K × Nat) → Cleaner → List (Operand K × Nat) × Cleaner
  | [], s => ([], s)
  | (.constant c, b) :: rest, s =>
    let (incoming, s) := cleanIncoming phis rest { s with changed := true }
    ((.constant c, b) :: incoming, s)
  | (.inst r, b) :: rest, s =>
    if r ∈ phis then
      let (incoming, s') := cleanIncoming phis rest ⟨s.next + 1, s.copies ++ [⟨b, s.next, r⟩], true⟩
      ((.inst s.next, b) :: incoming, s')
    else
      let (incoming, s) := cleanIncoming phis rest { s with changed := true }
      ((.inst r, b) :: incoming, s)

/-- The incoming values in the order of the given blocks, if it is another one.  There is an incoming value then, so
that `changed` is set behind this. -/
def PHINode.reorder (pi : PHINode K) (blocks : List Nat) : Option (PHINode K) :=
  if blocks.length ≠ pi.incoming.length then none
  else if pi.blocks = blocks then some pi
  else do
    let incoming ← blocks.mapM fun b => (pi.getIncomingValueForBlock b).map fun value => (value, b)
    some { pi with incoming }

/-- The loop over the phi nodes behind the first one. -/
def cleanRest (blocks : List Nat) : List Nat → List (PHINode K) → Cleaner → Option (List (PHINode K) × Cleaner)
  | _, [], s => some ([], s)
  | phis, pi :: rest, s => do
    let pi ← pi.reorder blocks
    let (incoming, s) := cleanIncoming phis pi.incoming s
    let (rest, s) ← cleanRest blocks (pi.result :: phis) rest s
    some ({ pi with incoming } :: rest, s)

def cleanBlock : List (PHINode K) → Cleaner → Option (List (PHINode K) × Cleaner)
  | [], s => some ([], s)
  | reference :: rest, s => do
    let (rest, s) ← cleanRest reference.blocks [reference.result] rest s
    some (reference :: rest, s)

/-- `PhiCleanerPass::runOnFunction`, on the phi nodes of all blocks. -/
def runOnFunction : List (List (PHINode K)) → Cleaner → Option (List (List (PHINode K)) × Cleaner)
  | [], s => some ([], s)
  | block :: blocks, s => do
    let (block, s) ← cleanBlock block s
    let (blocks, s) ← runOnFunction blocks s
    some (block :: blocks, s)

section Execution

variable (constantValue : K → X) (regs : Nat → X)

def evalOperand : Operand K → X
  | .inst r => regs r
  | .constant c => constantValue c

/-- The copies at the end of the block `p`. -/
def runCopies (p : Nat) : List Copy → (Nat → X) → Nat → X
  | [], regs => regs
  | c :: copies, regs =>
    runCopies p copies (if c.block = p then Function.update regs c.tmp (regs c.source) else regs)

/-- The executor's way through the phi nodes, with `incomingBBIndex`. -/
def runPhis (i : Nat) : List (PHINode K) → (Nat → X) → Option (Nat → X)
  | [], regs => some regs
  | phi :: rest, regs => do
    let (v, _) ← phi.incoming[i]?
    runPhis i rest (Function.update regs phi.result (evalOperand constantValue regs v))

/-- `Executor::transferToBasicBlock`, and the phi nodes of the block. -/
def transferToBasicBlock (phis : List (PHINode K)) (src : Nat) : Option (Nat → X) :=
  match phis with
  | [] => some regs
  | first :: rest => do
    let i ← first.blocks.idxOf? src
    runPhis constantValue i (first :: rest) regs

/-- LLVM's way: all phi nodes are executed at once. -/
def simultaneous (phis : List (PHINode K)) (src : Nat) (x : Nat) : X :=
  match phis.find? (·.result = x) with
  | none => regs x
  | some phi => ((phi.getIncomingValueForBlock src).map (evalOperand constantValue regs)).getD (regs x)

/-- The block after `n` transfers and the registers there; `body` says what the other instructions of a block do, and
where its terminator goes. -/
def run (body : Nat → (Nat → X) → (Nat → X) × Option Nat) (enter : Nat → Nat → (Nat → X) → Option (Nat → X)) :
    Nat → Nat → (Nat → X) → Option (Nat × (Nat → X))
  | 0, b, regs => some (b, regs)
  | n + 1, b, regs =>
    match body b regs with
    | (_, none) => none
    | (regs, some d) => do run body enter n d (← enter b d regs)

end Execution

/-- The phi nodes of a block as LLVM's verifier accepts them: the same incoming blocks everywhere, and one value for
each block; `old` is the number of registers. -/
structure Verified (old : Nat) (phis : List (PHINode K)) : Prop where
  nodup : (phis.map (·.result)).Nodup
  result : ∀ phi ∈ phis, phi.result < old
  operand : ∀ phi ∈ phis, ∀ r b, (Operand.inst r, b) ∈ phi.incoming → r < old
  blocks : ∀ phi ∈ phis, ∀ phi' ∈ phis, phi.blocks.Perm phi'.blocks
  agree : ∀ phi ∈ phis, ∀ v w b, (v, b) ∈ phi.incoming → (w, b) ∈ phi.incoming → v = w

/-! ### Copies -/

/-- The copies of the pass write to different new registers, and read old ones. -/
structure Cleaner.Good (old : Nat) (s : Cleaner) : Prop where
  next : old ≤ s.next
  fresh : ∀ c ∈ s.copies, old ≤ c.tmp ∧ c.tmp < s.next ∧ c.source < old
  nodup : (s.copies.map (·.tmp)).Nodup

variable {old p : Nat} {s s' : Cleaner} {regs : Nat → X}

theorem Cleaner.Good.push (h : s.Good old) {b r : Nat} (hr : r < old) :
    Cleaner.Good old ⟨s.next + 1, s.copies ++ [⟨b, s.next, r⟩], true⟩ where
  next := Nat.le_succ_of_le h.next
  fresh := by
    have hnext := h.next
    intro c hc
    rcases List.mem_append.mp hc with hc | hc
    · have := h.fresh c hc
      dsimp only
      omega
    · obtain rfl := List.mem_singleton.mp hc
      exact ⟨hnext, Nat.lt_succ_self _, hr⟩
  nodup := by
    rw [List.map_append, List.nodup_append]
    refine ⟨h.nodup, List.nodup_singleton _, fun a ha b hb => ?_⟩
    obtain ⟨c, hc, rfl⟩ := List.mem_map.mp ha
    obtain rfl := List.mem_singleton.mp hb
    exact Nat.ne_of_lt (h.fresh c hc).2.1

theorem runCopies_other {copies : List Copy} {x : Nat} (h : ∀ c ∈ copies, c.tmp ≠ x) :
    runCopies p copies regs x = regs x := by
  induction copies generalizing regs with
  | nil => rfl
  | cons c copies ih =>
    obtain ⟨hc, hcopies⟩ := List.forall_mem_cons.mp h
    rw [runCopies, ih hcopies]
    split
    · exact Function.update_of_ne hc.symm _ _
    · rfl

theorem runCopies_tmp {copies : List Copy} (hnodup : (copies.map (·.tmp)).Nodup)
    (hsource : ∀ c ∈ copies, c.source < old ∧ old ≤ c.tmp) {c : Copy} (hc : c ∈ copies) :
    runCopies c.block copies regs c.tmp = regs c.source := by
  induction copies generalizing regs with
  | nil => cases hc
  | cons c' copies ih =>
    obtain ⟨hc', hrest⟩ := List.forall_mem_cons.mp hsource
    obtain ⟨hnew, hnodup⟩ := List.nodup_cons.mp hnodup
    rw [runCopies]
    rcases List.mem_cons.mp hc with rfl | hc
    · rw [runCopies_other fun d hd heq => hnew (List.mem_map.mpr ⟨d, hd, heq⟩), if_pos rfl, Function.update_self]
    · rw [ih hnodup hrest hc]
      have hne : c.source ≠ c'.tmp := by
        have := hrest c hc
        omega
      split
      · exact Function.update_of_ne hne _ _
      · rfl

/-- What an incoming value for `b` is read from: itself, or a copy of one of `phis`. -/
def Reads (copies : List Copy) (phis : List Nat) (b : Nat) (v v' : Operand K) : Prop :=
  v' = v ∧ (∀ r ∈ phis, v ≠ .inst r) ∨ ∃ c ∈ copies, c.block = b ∧ v = .inst c.source ∧ v' = .inst c.tmp

theorem Reads.mono {copies copies' : List Copy} {phis : List Nat} {b : Nat} {v v' : Operand K}
    (h : Reads copies phis b v v') (hsub : copies ⊆ copies') : Reads copies' phis b v v' := by
  rcases h with h | ⟨c, hc, h⟩
  · exact .inl h
  · exact .inr ⟨c, hsub hc, h⟩

theorem cleanIncoming_spec (phis : List Nat) (incoming : List (Operand K × Nat)) (h : s.Good old)
    (hold : ∀ r b, (Operand.inst r, b) ∈ incoming → r < old) :
    ∃ (incoming' : List (Operand K × Nat)) (s' : Cleaner), cleanIncoming phis incoming s = (incoming', s') ∧
      s'.Good old ∧ s.copies ⊆ s'.copies ∧
      ∀ (i : Nat) (v : Operand K) (b : Nat), incoming[i]? = some (v, b) →
        ∃ v', incoming'[i]? = some (v', b) ∧ Reads s'.copies phis b v v' := by
  induction incoming generalizing s with
  | nil => exact ⟨[], s, rfl, h, List.Subset.refl _, fun i v b hi => by cases hi⟩
  | cons entry rest ih =>
    obtain ⟨v, b⟩ := entry
    have hrest : ∀ r b, (Operand.inst r, b) ∈ rest → r < old := fun r b hr => hold r b (List.mem_cons_of_mem _ hr)
    have hchanged : Cleaner.Good old { s with changed := true } := ⟨h.next, h.fresh, h.nodup⟩
    cases v with
    | constant c =>
      obtain ⟨incoming', s', hclean, hgood, hsub, hreads⟩ := ih hchanged hrest
      refine ⟨(.constant c, b) :: incoming', s', by rw [cleanIncoming, hclean], hgood, hsub, fun i v b' hi => ?_⟩
      cases i with
      | zero =>
        cases hi
        exact ⟨_, rfl, .inl ⟨rfl, fun r _ heq => by cases heq⟩⟩
      | succ i => exact hreads i v b' hi
    | inst r =>
      by_cases hr : r ∈ phis
      · obtain ⟨incoming', s', hclean, hgood, hsub, hreads⟩ := ih (h.push (hold r b List.mem_cons_self)) hrest
        obtain ⟨hold', hnew⟩ := List.append_subset.mp hsub
        refine ⟨(.inst s.next, b) :: incoming', s', by rw [cleanIncoming, if_pos hr, hclean], hgood, hold',
          fun i v b' hi => ?_⟩
        cases i with
        | zero =>
          cases hi
          exact ⟨_, rfl, .inr ⟨_, hnew List.mem_cons_self, rfl, rfl, rfl⟩⟩
        | succ i => exact hreads i v b' hi
      · obtain ⟨incoming', s', hclean, hgood, hsub, hreads⟩ := ih hchanged hrest
        refine ⟨(.inst r, b) :: incoming', s', by rw [cleanIncoming, if_neg hr, hclean], hgood, hsub,
          fun i v b' hi => ?_⟩
        cases i with
        | zero =>
          cases hi
          refine ⟨_, rfl, .inl ⟨rfl, fun r' hr' heq => hr ?_⟩⟩
          obtain rfl := Operand.inst.inj heq
          exact hr'
        | succ i => exact hreads i v b' hi

/-! ### One block -/

theorem getIncomingValueForBlock_of_mem {pi : PHINode K} {v : Operand K} {b : Nat}
    (hagree : ∀ v w b, (v, b) ∈ pi.incoming → (w, b) ∈ pi.incoming → v = w) (h : (v, b) ∈ pi.incoming) :
    pi.getIncomingValueForBlock b = some v := by
  unfold PHINode.getIncomingValueForBlock
  cases hfind : pi.incoming.find? (·.2 = b) with
  | none =>
    have := List.find?_eq_none.mp hfind _ h
    simp at this
  | some e =>
    obtain ⟨w, c⟩ := e
    obtain rfl : c = b := by simpa using List.find?_some hfind
    rw [hagree v w c h (List.mem_of_find?_eq_some hfind)]
    rfl

theorem mem_of_getIncomingValueForBlock {pi : PHINode K} {v : Operand K} {b : Nat}
    (h : pi.getIncomingValueForBlock b = some v) : (v, b) ∈ pi.incoming := by
  obtain ⟨⟨w, c⟩, hfind, rfl⟩ := Option.map_eq_some_iff.mp h
  obtain rfl : c = b := by simpa using List.find?_some hfind
  exact List.mem_of_find?_eq_some hfind

theorem reorder_spec {pi : PHINode K} {blocks : List Nat}
    (hagree : ∀ v w b, (v, b) ∈ pi.incoming → (w, b) ∈ pi.incoming → v = w) (hperm : blocks.Perm pi.blocks) :
    ∃ incoming, pi.reorder blocks = some ⟨pi.result, incoming⟩ ∧ incoming.map (·.2) = blocks ∧
      ∀ v b, (v, b) ∈ incoming → pi.getIncomingValueForBlock b = some v := by
  have hlength : blocks.length = pi.incoming.length := hperm.length_eq.trans (List.length_map _)
  unfold PHINode.reorder
  rw [if_neg (not_not_intro hlength)]
  by_cases heq : pi.blocks = blocks
  · exact ⟨pi.incoming, if_pos heq, heq, fun v b he => getIncomingValueForBlock_of_mem hagree he⟩
  · rw [if_neg heq]
    have hvalues : ∀ l ⊆ blocks, ∃ incoming, (l.mapM fun b =>
        (pi.getIncomingValueForBlock b).map fun value => (value, b)) = some incoming ∧ incoming.map (·.2) = l ∧
        ∀ v b, (v, b) ∈ incoming → pi.getIncomingValueForBlock b = some v := by
      intro l hl
      induction l with
      | nil => exact ⟨[], rfl, rfl, fun v b hv => by cases hv⟩
      | cons b l ih =>
        obtain ⟨hb, hrest⟩ := List.cons_subset.mp hl
        obtain ⟨⟨v, c⟩, he, hc⟩ := List.mem_map.mp (hperm.mem_iff.mp hb)
        obtain rfl : c = b := hc
        have hv := getIncomingValueForBlock_of_mem hagree he
        obtain ⟨incoming, hmap, hblocks, hall⟩ := ih hrest
        refine ⟨(v, c) :: incoming, by simp [hv, hmap], by simp [hblocks], fun w b hw => ?_⟩
        rcases List.mem_cons.mp hw with heq | hw
        · cases heq
          exact hv
        · exact hall w b hw
    obtain ⟨incoming, hmap, hblocks, hall⟩ := hvalues blocks (List.Subset.refl _)
    exact ⟨incoming, by rw [hmap]; rfl, hblocks, hall⟩

/-- The phi nodes behind those of `phis`: the value with the index `i`, for the block `p`, does not read them. -/
inductive Cleaned (copies : List Copy) (i p : Nat) : List Nat → List (PHINode K) → List (PHINode K) → Prop
  | nil {phis : List Nat} : Cleaned copies i p phis [] []
  | cons {phis : List Nat} {pi pi' : PHINode K} {rest rest' : List (PHINode K)} {v v' : Operand K}
      (hresult : pi'.result = pi.result) (hvalue : pi.getIncomingValueForBlock p = some v)
      (hindex : pi'.incoming[i]? = some (v', p)) (hreads : Reads copies phis p v v')
      (hrest : Cleaned copies i p (pi.result :: phis) rest rest') : Cleaned copies i p phis (pi :: rest) (pi' :: rest')

theorem Cleaned.mono {copies copies' : List Copy} {i : Nat} {phis : List Nat} {block block' : List (PHINode K)}
    (h : Cleaned copies i p phis block block') (hsub : copies ⊆ copies') : Cleaned copies' i p phis block block' := by
  induction h with
  | nil => exact .nil
  | cons hresult hvalue hindex hreads _ ih => exact .cons hresult hvalue hindex (hreads.mono hsub) ih

theorem cleanRest_spec {blocks : List Nat} (phis : List Nat) {block : List (PHINode K)} (h : s.Good old)
    (hoperand : ∀ pi ∈ block, ∀ r b, (Operand.inst r, b) ∈ pi.incoming → r < old)
    (hblocks : ∀ pi ∈ block, blocks.Perm pi.blocks)
    (hagree : ∀ pi ∈ block, ∀ v w b, (v, b) ∈ pi.incoming → (w, b) ∈ pi.incoming → v = w) :
    ∃ block' s', cleanRest blocks phis block s = some (block', s') ∧ s'.Good old ∧ s.copies ⊆ s'.copies ∧
      ∀ i p, blocks[i]? = some p → Cleaned s'.copies i p phis block block' := by
  induction block generalizing phis s with
  | nil => exact ⟨[], s, rfl, h, List.Subset.refl _, fun i p _ => .nil⟩
  | cons pi rest ih =>
    obtain ⟨hoperand, horest⟩ := List.forall_mem_cons.mp hoperand
    obtain ⟨hperm, hprest⟩ := List.forall_mem_cons.mp hblocks
    obtain ⟨hagree, harest⟩ := List.forall_mem_cons.mp hagree
    obtain ⟨incoming, hreorder, hincoming, hvalue⟩ := reorder_spec hagree hperm
    have hold : ∀ r b, (Operand.inst r, b) ∈ incoming → r < old := fun r b he =>
      hoperand r b (mem_of_getIncomingValueForBlock (hvalue _ b he))
    obtain ⟨incoming', s₁, hclean₁, hgood₁, hsub₁, hreads⟩ := cleanIncoming_spec phis incoming h hold
    obtain ⟨rest', s', hclean, hgood, hsub, hrest⟩ := ih (pi.result :: phis) hgood₁ horest hprest harest
    refine ⟨⟨pi.result, incoming'⟩ :: rest', s', ?_, hgood, List.Subset.trans hsub₁ hsub, fun i p hi => ?_⟩
    · simp only [cleanRest, hreorder, hclean₁, hclean, Option.bind_eq_bind, Option.bind_some]
    · rw [← hincoming, List.getElem?_map] at hi
      obtain ⟨⟨v, b⟩, he, hb⟩ := Option.map_eq_some_iff.mp hi
      obtain rfl : b = p := hb
      obtain ⟨v', he', hv'⟩ := hreads i v b he
      have hib : blocks[i]? = some b := by simp [← hincoming, he]
      exact .cons rfl (hvalue v b (List.mem_of_getElem? he)) he' (hv'.mono hsub) (hrest i b hib)

/-- The phi nodes of a block behind the pass. -/
structure CleanedBlock (copies : List Copy) (block block' : List (PHINode K)) : Prop where
  head : block'.head? = block.head?
  each : ∀ first ∈ block.head?, ∀ i p, first.blocks[i]? = some p → Cleaned copies i p [] block block'

theorem cleanBlock_spec {block : List (PHINode K)} (h : s.Good old) (hblock : Verified old block) :
    ∃ block' s', cleanBlock block s = some (block', s') ∧ s'.Good old ∧ s.copies ⊆ s'.copies ∧
      CleanedBlock s'.copies block block' := by
  cases block with
  | nil => exact ⟨[], s, rfl, h, List.Subset.refl _, rfl, fun first hfirst => by cases hfirst⟩
  | cons reference rest =>
    have htail : ∀ {P : PHINode K → Prop}, (∀ pi ∈ reference :: rest, P pi) → ∀ pi ∈ rest, P pi :=
      fun hP pi hpi => hP pi (List.mem_cons_of_mem _ hpi)
    have hperm := hblock.blocks reference List.mem_cons_self
    obtain ⟨rest', s', hclean, hgood, hsub, hrest⟩ :=
      cleanRest_spec [reference.result] h (htail hblock.operand) (htail hperm) (htail hblock.agree)
    refine ⟨reference :: rest', s', ?_, hgood, hsub, rfl, fun first hfirst i p hi => ?_⟩
    · simp only [cleanBlock, hclean, Option.bind_eq_bind, Option.bind_some]
    · obtain rfl := Option.mem_some.mp hfirst
      have hb := hi
      rw [PHINode.blocks, List.getElem?_map] at hb
      obtain ⟨⟨v, b⟩, he, hb⟩ := Option.map_eq_some_iff.mp hb
      obtain rfl : b = p := hb
      exact .cons rfl (getIncomingValueForBlock_of_mem (hblock.agree _ List.mem_cons_self) (List.mem_of_getElem? he)) he
        (.inl ⟨rfl, fun r hr => by cases hr⟩) (hrest i b hi)

/-- After the copies at the end of `p` the phi nodes, one after another, read what they were defined to read. -/
theorem runPhis_spec (constantValue : K → X) {copies : List Copy} {i : Nat} {phis : List Nat}
    {block block' : List (PHINode K)} {cur : Nat → X} (hcleaned : Cleaned copies i p phis block block')
    (hcopies : ∀ c ∈ copies, c.block = p → runCopies p copies regs c.tmp = regs c.source ∧ old ≤ c.tmp)
    (hregs : ∀ x < old, runCopies p copies regs x = regs x) (hphis : ∀ x ∈ phis, x < old)
    (hresult : ∀ pi ∈ block, pi.result < old) (hnodup : (block.map (·.result)).Nodup)
    (hoperand : ∀ pi ∈ block, ∀ r b, (Operand.inst r, b) ∈ pi.incoming → r < old)
    (hcur : ∀ x, x ∉ phis → cur x = runCopies p copies regs x) :
    ∃ cur', runPhis constantValue i block' cur = some cur' ∧ (∀ x, x ∉ block.map (·.result) → cur' x = cur x) ∧
      ∀ pi ∈ block, ∃ v, pi.getIncomingValueForBlock p = some v ∧ cur' pi.result = evalOperand constantValue regs v := by
  induction hcleaned generalizing cur with
  | nil => exact ⟨cur, rfl, fun x _ => rfl, fun pi hpi => by cases hpi⟩
  | @cons phis pi pi' rest rest' v v' hpi hvalue hindex hreads hrest ih =>
    obtain ⟨hpiOld, hresult⟩ := List.forall_mem_cons.mp hresult
    obtain ⟨hpiOperand, hoperand⟩ := List.forall_mem_cons.mp hoperand
    obtain ⟨hpiNew, hnodup⟩ := List.nodup_cons.mp hnodup
    have hread : evalOperand constantValue cur v' = evalOperand constantValue regs v := by
      rcases hreads with ⟨rfl, hno⟩ | ⟨c, hc, hblock, rfl, rfl⟩
      · cases v' with
        | constant c => rfl
        | inst r =>
          have hr : r < old := hpiOperand r p (mem_of_getIncomingValueForBlock hvalue)
          exact (hcur r fun hr => hno r hr rfl).trans (hregs r hr)
      · obtain ⟨htmp, hnew⟩ := hcopies c hc hblock
        refine (hcur c.tmp fun hmem => ?_).trans htmp
        exact Nat.not_lt.mpr hnew (hphis _ hmem)
    have hcur' : ∀ x, x ∉ pi.result :: phis →
        Function.update cur pi.result (evalOperand constantValue regs v) x = runCopies p copies regs x := by
      intro x hx
      obtain ⟨hne, hx⟩ := not_or.mp (mt List.mem_cons.mpr hx)
      exact (Function.update_of_ne hne _ _).trans (hcur x hx)
    obtain ⟨cur', hrun, hframe, hall⟩ :=
      ih (List.forall_mem_cons.mpr ⟨hpiOld, hphis⟩) hresult hnodup hoperand hcur'
    refine ⟨cur', ?_, fun x hx => ?_, fun pi₁ hpi₁ => ?_⟩
    · simp only [runPhis, hindex, hpi, hread, Option.bind_eq_bind, Option.bind_some, hrun]
    · obtain ⟨hne, hx⟩ := not_or.mp (mt List.mem_cons.mpr hx)
      exact (hframe x hx).trans (Function.update_of_ne hne _ _)
    · rcases List.mem_cons.mp hpi₁ with rfl | hpi₁
      · exact ⟨v, hvalue, (hframe _ hpiNew).trans (Function.update_self _ _ _)⟩
      · exact hall pi₁ hpi₁

/-- Going from `p` to a block of which it is a predecessor, the executor gives LLVM's values. -/
theorem transferToBasicBlock_spec (constantValue : K → X) (regs : Nat → X) {block block' : List (PHINode K)}
    (hgood : s.Good old) (hblock : Verified old block) (hcleaned : CleanedBlock s.copies block block')
    (hp : ∀ first ∈ block.head?, p ∈ first.blocks) :
    ∃ regs', transferToBasicBlock constantValue (runCopies p s.copies regs) block' p = some regs' ∧
      ∀ x < old, regs' x = simultaneous constantValue regs block p x := by
  have hregs : ∀ x < old, runCopies p s.copies regs x = regs x := fun x hx =>
    runCopies_other fun c hc heq => by
      have := hgood.fresh c hc
      omega
  cases block with
  | nil =>
    obtain rfl : block' = [] := List.head?_eq_none_iff.mp hcleaned.head
    exact ⟨_, rfl, hregs⟩
  | cons first rest =>
    obtain ⟨rest', rfl⟩ : ∃ rest', block' = first :: rest' := List.head?_eq_some_iff.mp hcleaned.head
    obtain ⟨i, hi⟩ := Option.isSome_iff_exists.mp (List.isSome_idxOf?.mpr (hp first rfl))
    obtain ⟨hlt, hip, -⟩ := List.idxOf?_eq_some_iff.mp hi
    have hc := hcleaned.each first rfl i p (List.getElem?_eq_some_iff.mpr ⟨hlt, hip⟩)
    have hcopies : ∀ c ∈ s.copies, c.block = p → runCopies p s.copies regs c.tmp = regs c.source ∧ old ≤ c.tmp := by
      rintro c hmem rfl
      exact ⟨runCopies_tmp hgood.nodup (fun c hc => ⟨(hgood.fresh c hc).2.2, (hgood.fresh c hc).1⟩) hmem,
        (hgood.fresh c hmem).1⟩
    obtain ⟨regs', hrun, hframe, hall⟩ := runPhis_spec constantValue hc hcopies hregs
      (fun x hx => by cases hx) hblock.result
      hblock.nodup hblock.operand fun x _ => rfl
    refine ⟨regs', ?_, fun x hx => ?_⟩
    · simp only [transferToBasicBlock, hi, Option.bind_eq_bind, Option.bind_some, hrun]
    · unfold simultaneous
      cases hfind : (first :: rest).find? (·.result = x) with
      | none =>
        refine (hframe x fun hmem => ?_).trans (hregs x hx)
        obtain ⟨pi, hpi, rfl⟩ := List.mem_map.mp hmem
        simpa using List.find?_eq_none.mp hfind pi hpi
      | some pi =>
        obtain rfl : pi.result = x := by simpa using List.find?_some hfind
        obtain ⟨v, hv, hvalue⟩ := hall pi (List.mem_of_find?_eq_some hfind)
        simp only [hv, hvalue, Option.map_some, Option.getD_some]

/-! ### The function -/

theorem CleanedBlock.mono {copies copies' : List Copy} {block block' : List (PHINode K)}
    (h : CleanedBlock copies block block') (hsub : copies ⊆ copies') : CleanedBlock copies' block block' where
  head := h.head
  each first hfirst i p hi := (h.each first hfirst i p hi).mono hsub

theorem runOnFunction_spec {blocks : List (List (PHINode K))} (h : s.Good old)
    (hblocks : ∀ block ∈ blocks, Verified old block) :
    ∃ blocks' s', runOnFunction blocks s = some (blocks', s') ∧ s'.Good old ∧ s.copies ⊆ s'.copies ∧
      ∀ d, CleanedBlock s'.copies (blocks.getD d []) (blocks'.getD d []) := by
  induction blocks generalizing s with
  | nil => exact ⟨[], s, rfl, h, List.Subset.refl _, fun d => ⟨rfl, fun first hfirst => by cases hfirst⟩⟩
  | cons block blocks ih =>
    obtain ⟨hblock, hblocks⟩ := List.forall_mem_cons.mp hblocks
    obtain ⟨block', s₁, hclean₁, hgood₁, hsub₁, hcleaned⟩ := cleanBlock_spec h hblock
    obtain ⟨blocks', s', hclean, hgood, hsub, hall⟩ := ih hgood₁ hblocks
    refine ⟨block' :: blocks', s', ?_, hgood, List.Subset.trans hsub₁ hsub, fun d => ?_⟩
    · simp only [runOnFunction, hclean₁, hclean, Option.bind_eq_bind, Option.bind_some]
    · cases d with
      | zero => exact hcleaned.mono hsub
      | succ d => exact hall d

def Agree (old : Nat) (regs regs' : Nat → X) : Prop := ∀ x < old, regs x = regs' x

theorem simultaneous_agree (constantValue : K → X) {block : List (PHINode K)} {regs regs' : Nat → X}
    (hblock : Verified old block) (h : Agree old regs regs') :
    Agree old (simultaneous constantValue regs block p) (simultaneous constantValue regs' block p) := by
  intro x hx
  unfold simultaneous
  cases hfind : block.find? (·.result = x) with
  | none => exact h x hx
  | some pi =>
    cases hv : pi.getIncomingValueForBlock p with
    | none => simp only [hv, Option.map_none, Option.getD_none, h x hx]
    | some v =>
      simp only [hv, Option.map_some, Option.getD_some]
      cases v with
      | constant c => rfl
      | inst r => exact h r (hblock.operand pi (List.mem_of_find?_eq_some hfind) r p (mem_of_getIncomingValueForBlock hv))

/-- The pass accepts what the verifier accepts, and the executor then runs as LLVM defines it: it passes through the
same blocks, with the same values in the registers that were there before. -/
theorem runOnFunction_preserves {blocks : List (List (PHINode K))} {constantValue : K → X}
    {body : Nat → (Nat → X) → (Nat → X) × Option Nat} (hblocks : ∀ block ∈ blocks, Verified old block)
    (hbody : ∀ b regs regs', Agree old regs regs' →
      Agree old (body b regs).1 (body b regs').1 ∧ (body b regs).2 = (body b regs').2)
    (hpred : ∀ b regs d, (body b regs).2 = some d → ∀ first ∈ (blocks.getD d []).head?, b ∈ first.blocks) :
    ∃ blocks' s, runOnFunction blocks ⟨old, [], false⟩ = some (blocks', s) ∧ ∀ n b regs regs', Agree old regs regs' →
      Option.Rel (fun x y => x.1 = y.1 ∧ Agree old x.2 y.2)
        (run body (fun b d regs => some (simultaneous constantValue regs (blocks.getD d []) b)) n b regs)
        (run body (fun b d regs => transferToBasicBlock constantValue (runCopies b s.copies regs) (blocks'.getD d []) b)
          n b regs') := by
  obtain ⟨blocks', s, hrun, hgood, -, hall⟩ :=
    runOnFunction_spec (s := ⟨old, [], false⟩) ⟨Nat.le_refl _, fun c hc => (by cases hc), List.nodup_nil⟩ hblocks
  refine ⟨blocks', s, hrun, fun n => ?_⟩
  induction n with
  | zero => exact fun b regs regs' h => .some ⟨rfl, h⟩
  | succ n ih =>
    intro b regs regs' h
    obtain ⟨hregs, hnext⟩ := hbody b regs regs' h
    unfold run
    rcases hb : body b regs with ⟨regs₁, _ | d⟩ <;> rcases hb' : body b regs' with ⟨regs₁', d'⟩ <;>
      rw [hb, hb'] at hregs hnext <;> obtain rfl := hnext
    · exact .none
    · have hverified : Verified old (blocks.getD d []) := by
        rw [List.getD_eq_getElem?_getD]
        cases hd : blocks[d]? with
        | none => exact ⟨List.nodup_nil, by simp, by simp, by simp, by simp⟩
        | some block => exact hblocks block (List.mem_of_getElem? hd)
      obtain ⟨regs₂, htransfer, hregs₂⟩ := transferToBasicBlock_spec constantValue regs₁' hgood hverified
        (hall d) (hpred b regs d (by rw [hb]))
      simp only [htransfer, Option.bind_eq_bind, Option.bind_some]
      refine ih d _ _ fun x hx => ?_
      rw [hregs₂ x hx]
      exact simultaneous_agree constantValue hverified hregs x hx

/-- A loop that swaps two registers in each round. -/
def swapBlocks : List (List (PHINode Nat)) :=
  [[], [⟨0, [(.constant 1, 0), (.inst 1, 1)]⟩, ⟨1, [(.inst 0, 1), (.constant 2, 0)]⟩]]

theorem runOnFunction_preserves_swap :
    ∃ blocks' s, runOnFunction swapBlocks ⟨2, [], false⟩ = some (blocks', s) ∧ ∀ n b regs regs', Agree 2 regs regs' →
      Option.Rel (fun x y => x.1 = y.1 ∧ Agree 2 x.2 y.2)
        (run (fun b regs => (regs, if b < 2 then some 1 else none))
          (fun b d regs => some (simultaneous id regs (swapBlocks.getD d []) b)) n b regs)
        (run (fun b regs => (regs, if b < 2 then some 1 else none))
          (fun b d regs => transferToBasicBlock id (runCopies b s.copies regs) (blocks'.getD d []) b) n b regs') := by
  refine runOnFunction_preserves ?_ (fun b regs regs' h => ⟨h, rfl⟩) ?_
  · intro block hblock
    simp only [swapBlocks, List.mem_cons, List.not_mem_nil, or_false] at hblock
    rcases hblock with rfl | rfl
    · exact ⟨List.nodup_nil, by simp, by simp, by simp, by simp⟩
    · refine ⟨by decide, by decide, ?_, by decide, ?_⟩
      · simp
      · intro phi hphi v w b hv hw
        simp only [List.mem_cons, List.not_mem_nil, or_false] at hphi
        rcases hphi with rfl | rfl <;>
          simp only [List.mem_cons, Prod.mk.injEq, List.not_mem_nil, or_false] at hv hw <;> grind
  · intro b regs d hd first hfirst
    by_cases hb : b < 2
    · rw [if_pos hb] at hd
      cases hd
      cases hfirst
      have : b = 0 ∨ b = 1 := by omega
      rcases this with rfl | rfl <;> decide
    · rw [if_neg hb] at hd
      cases hd

end PhiCleaner

end CgsKlee
