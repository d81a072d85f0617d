import CgsKlee.Core.AddressSpace
import CgsKlee.Support.TreeIterator

/-!
# The object map of an address space

The entries of an address space lie in an immutable tree, ordered by address.  Binding and unbinding objects in the
tree is what `AddressSpace` says of the list of entries, and so are the searches that resolve a pointer.
-/

namespace CgsKlee

namespace AddressSpace

open ImmutableTree

variable {ω : Type}

/-- The key of `MemoryObjectLT`. -/
def address (op : MemoryObject × ω) : Nat := op.1.address

/-- The tree holds the entries. -/
structure Stored (t : Node (MemoryObject × ω)) (as : AddressSpace ω) : Prop where
  balanced : t.Balanced
  toList : t.toList = as.objects

theorem put_eq_replaceEntry (op : MemoryObject × ω) (l : List (MemoryObject × ω)) :
    put address (fun _ => op) op l = replaceEntry op l := by
  induction l with
  | nil => rfl
  | cons x l ih =>
    unfold put replaceEntry
    rw [ih]
    rfl

/-- A change of the memory of a state. -/
inductive Change (ω : Type)
  | bind (op : MemoryObject × ω)
  | unbind (mo : MemoryObject)

def Change.apply (as : AddressSpace ω) : Change ω → AddressSpace ω
  | bind op => as.replace op
  | unbind mo => as.remove mo

/-- The operation of `ImmutableMap` that makes the change. -/
def Change.op : Change ω → Op (MemoryObject × ω) Nat
  | bind op => .replace op
  | unbind mo => .remove mo.address

instance : Inhabited MemoryObject := ⟨⟨0, 0⟩⟩

variable {t : Node (MemoryObject × ω)} {as : AddressSpace ω}

theorem Stored.ascending (h : Stored t as) : ImmutableTree.Ascending address t.toList := h.toList ▸ as.sorted

theorem Stored.findObject (h : Stored t as) (mo : MemoryObject) :
    (Node.lookup address mo.address t).map (·.2) = as.findObject mo := by
  rw [Node.lookup_eq h.ascending, h.toList]
  rfl

theorem Stored.lookupPrevious (h : Stored t as) (a : Nat) :
    Node.lookupPrevious address a none t = as.lookupPrevious a := by
  rw [Node.lookupPrevious_eq h.ascending, h.toList, Option.or_none]
  rfl

variable [Inhabited ω]

theorem Stored.change (h : Stored t as) (c : Change ω) : Stored (c.op.apply address t) (c.apply as) := by
  obtain ⟨hb, htoList, -⟩ := c.op.apply_spec h.balanced h.ascending
  refine ⟨hb, htoList.trans ?_⟩
  rw [h.toList]
  cases c with
  | bind op => exact put_eq_replaceEntry op as.objects
  | unbind mo => rfl

theorem Stored.run (h : Stored t as) (changes : List (Change ω)) :
    Stored (changes.foldl (fun t c => c.op.apply address t) t) (changes.foldl Change.apply as) := by
  induction changes generalizing t as with
  | nil => exact h
  | cons c changes ih => exact ih (h.change c)

/-- After any changes the tree answers as the list of entries does: to `findObject`, to the search of a constant address,
and in the two loops from `upper_bound` on. -/
theorem objects_refine [DecidableEq ω] (changes : List (Change ω)) :
    let t := changes.foldl (fun t c => c.op.apply address t) .terminator
    let as : AddressSpace ω := changes.foldl Change.apply ⟨[], List.Pairwise.nil⟩
    (∀ mo, (Node.lookup address mo.address t).map (·.2) = as.findObject mo) ∧
      (∀ a, Node.lookupPrevious address a none t = as.lookupPrevious a) ∧
        ∀ a, ∃ start first, upperBound address a t = some start ∧ begin t = some first ∧
          start.backwards (as.objects.length + 1) first = some (as.upTo a).reverse ∧
            start.forwards (as.objects.length + 1) = some (as.above a) := by
  intro t as
  have h : Stored t as := Stored.run (t := .terminator) ⟨trivial, rfl⟩ changes
  refine ⟨h.findObject, h.lookupPrevious, fun a => ?_⟩
  have hloops := upperBound_loops h.balanced h.ascending a (Nat.lt_succ_self _)
  rw [h.toList] at hloops
  exact hloops

end AddressSpace

end CgsKlee
