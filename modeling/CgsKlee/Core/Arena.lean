import CgsKlee.Core.AllocationModels

/-!
# The preallocated space

With `DeterministicAllocation` objects are taken from a space that was mapped at the start, each behind the one before
it.  Whatever is asked for, the objects stay inside the space and keep the red zones between them.
-/

namespace CgsKlee

namespace MemoryManager

variable {opts : AllocatorOptions} {host : HostAllocator} {base space size alignment : Nat} {mm mm' : MemoryManager}
  {r : Option MemoryObject}

/-- The bytes that an object occupies: an empty one has a byte between its red zones. -/
def occupied (mo : MemoryObject) : Nat := max mo.size 1

structure Arena (opts : AllocatorOptions) (base space : Nat) (mm : MemoryManager) : Prop where
  start : mm.deterministicSpace = base
  length : mm.spaceSize = space
  slot : base ≤ mm.nextFreeSlot ∧ mm.nextFreeSlot ≤ base + space + opts.redzoneSize
  inside : ∀ o ∈ mm.objects, base ≤ o.address ∧ o.address + occupied o < base + space ∧
    o.address + occupied o + opts.redzoneSize ≤ mm.nextFreeSlot
  apart : mm.objects.Pairwise fun later earlier => earlier.address + occupied earlier + opts.redzoneSize ≤ later.address

/-- What a request does: nothing, or it takes an object from the space. -/
def Serves (opts : AllocatorOptions) (base space size alignment : Nat) (mm : MemoryManager) (r : Option MemoryObject)
    (mm' : MemoryManager) : Prop :=
  r = none ∧ mm' = mm ∨ ∃ mo, r = some mo ∧ mo.size = size ∧ alignment ∣ mo.address ∧
    mm.nextFreeSlot ≤ mo.address ∧ mo.address + occupied mo < base + space ∧
      mm' = { mm with nextFreeSlot := mo.address + occupied mo + opts.redzoneSize, objects := mo :: mm.objects }

/-- Nothing wraps around in requests of this size. -/
theorem Arena.serves (hdet : opts.deterministicAllocation = true) (hredzone : opts.redzoneSize < 2 ^ 32)
    (hbase : 0 < base) (hspace : base + space ≤ 2 ^ 61) (h : mm.Arena opts base space) (hsize : size < 2 ^ 32)
    (halign : alignment ≤ 2 ^ 62) (hr : mm.allocate opts host size alignment = (r, mm')) :
    Serves opts base space size alignment mm r mm' := by
  obtain ⟨rfl, rfl, hslot, -, -⟩ := h
  unfold allocate at hr
  split at hr
  · cases hr
    exact .inl ⟨rfl, rfl⟩
  · split at hr
    · cases hr
      exact .inl ⟨rfl, rfl⟩
    · rename_i hpower
      rw [Bool.not_eq_true, Bool.not_eq_false'] at hpower
      have hpos := Nat.pos_of_isPowerOfTwo (isPowerOf2_iff.mp hpower)
      have hvalue : (mm.nextFreeSlot + alignment - 1) % 2 ^ 64 = mm.nextFreeSlot + alignment - 1 :=
        Nat.mod_eq_of_lt (by omega)
      have hle : mm.nextFreeSlot + alignment - 1 ≤ alignTo (mm.nextFreeSlot + alignment - 1) alignment ∧
          alignTo (mm.nextFreeSlot + alignment - 1) alignment ≤ mm.nextFreeSlot + alignment - 1 + alignment - 1 :=
        le_alignTo hpos (by omega)
      have hdvd := dvd_alignTo (mm.nextFreeSlot + alignment - 1) alignment
      unfold takeSlot at hr
      rw [hvalue] at hr
      generalize alignTo (mm.nextFreeSlot + alignment - 1) alignment = address at hle hdvd hr
      dsimp only at hr
      have hfits : (address + max size 1) % 2 ^ 64 = address + max size 1 := Nat.mod_eq_of_lt (by omega)
      rw [hfits] at hr
      by_cases hroom : address + max size 1 < mm.deterministicSpace + mm.spaceSize
      · rw [if_pos hroom] at hr
        dsimp only at hr
        rw [if_neg (by omega)] at hr
        have hnext : (address + max size 1 + opts.redzoneSize) % 2 ^ 64 = address + max size 1 + opts.redzoneSize :=
          Nat.mod_eq_of_lt (by omega)
        rw [hnext, Nat.mod_eq_of_lt hsize] at hr
        cases hr
        exact .inr ⟨_, rfl, rfl, hdvd, (by omega : mm.nextFreeSlot ≤ address), hroom, rfl⟩
      · rw [if_neg hroom] at hr
        cases hr
        exact .inl ⟨rfl, rfl⟩

theorem Arena.step (h : mm.Arena opts base space) (hr : Serves opts base space size alignment mm r mm') :
    mm'.Arena opts base space := by
  rcases hr with ⟨-, rfl⟩ | ⟨mo, -, -, -, hslot, hroom, rfl⟩
  · exact h
  · have hlow := h.slot.1
    refine ⟨h.start, h.length, ⟨by dsimp only; omega, by dsimp only; omega⟩, ?_, ?_⟩
    · refine List.forall_mem_cons.mpr ⟨⟨by omega, hroom, Nat.le_refl _⟩, fun o ho => ?_⟩
      obtain ⟨hlo, hhi, hbefore⟩ := h.inside o ho
      exact ⟨hlo, hhi, by dsimp only; omega⟩
    · exact List.pairwise_cons.mpr ⟨fun o ho => (h.inside o ho).2.2.trans hslot, h.apart⟩

/-- After any requests the objects lie in the space, with the red zones between them, and the next request gives an
object of the size and the alignment asked for, or nothing, and then changes nothing. -/
theorem arena_of_run (hdet : opts.deterministicAllocation = true) (hredzone : opts.redzoneSize < 2 ^ 32)
    (hbase : 0 < base) (hspace : base + space ≤ 2 ^ 61) {requests : List (Nat × Nat)}
    (hrequests : ∀ q ∈ requests, q.1 < 2 ^ 32 ∧ q.2 ≤ 2 ^ 62) :
    let mm := requests.foldl (fun mm q => (mm.allocate opts host q.1 q.2).2) ⟨[], base, base, space⟩
    mm.Arena opts base space ∧ ∀ size < 2 ^ 32, ∀ alignment ≤ 2 ^ 62, ∀ r mm',
      mm.allocate opts host size alignment = (r, mm') → Serves opts base space size alignment mm r mm' := by
  have hrun : ∀ mm : MemoryManager, mm.Arena opts base space →
      (requests.foldl (fun mm q => (mm.allocate opts host q.1 q.2).2) mm).Arena opts base space := by
    induction requests with
    | nil => exact fun _ h => h
    | cons q requests ih =>
      obtain ⟨hq, hrequests⟩ := List.forall_mem_cons.mp hrequests
      exact fun mm h => ih hrequests _ (h.step (h.serves hdet hredzone hbase hspace hq.1 hq.2 rfl))
  intro mm
  have h : mm.Arena opts base space := hrun _ ⟨rfl, rfl, ⟨Nat.le_refl _, by dsimp only; omega⟩, by simp, .nil⟩
  exact ⟨h, fun size hsize alignment halign r mm' => h.serves hdet hredzone hbase hspace hsize halign⟩

/-- Three objects, one of them empty, and a request that does not fit. -/
theorem arena_of_run_small :
    ([(16, 8), (0, 1), (2, 3), (100, 16), (4096, 1)].foldl (fun mm q => (allocate ⟨true, false, 10⟩
      ⟨fun _ _ => 0, fun _ _ _ => none⟩ mm q.1 q.2).2) ⟨[], 4096, 4096, 4096⟩ : MemoryManager).Arena
        ⟨true, false, 10⟩ 4096 4096 :=
  (arena_of_run rfl (by decide) (by decide) (by decide) (by decide)).1

end MemoryManager

end CgsKlee
