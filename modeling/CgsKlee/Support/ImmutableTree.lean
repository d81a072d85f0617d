import Mathlib.Algebra.Group.Nat.Defs
import Mathlib.Order.Lattice
import Mathlib.Data.List.Basic

/-!
# Immutable trees

The search trees of `ImmutableTree`, on which the maps and sets of a state are built.  An operation makes new nodes
along the path to a key and shares all others, so that nodes are values here; their counts of references are left out.
`balance` keeps the heights of siblings within two of each other, and `tree_refines` says what a sequence of operations
makes of the entries in order.
-/

namespace CgsKlee

namespace ImmutableTree

/-- `Node`, or the `terminator` of all trees. -/
inductive Node (V : Type)
  | terminator
  | node (left right : Node V) (value : V) (height : Nat)
deriving DecidableEq

variable {V K : Type}

namespace Node

def height : Node V → Nat
  | terminator => 0
  | node _ _ _ height => height

/-- The terminator is its own child. -/
def left : Node V → Node V
  | terminator => terminator
  | node left _ _ _ => left

def right : Node V → Node V
  | terminator => terminator
  | node _ right _ _ => right

/-- The value of the terminator is one that no one has given it. -/
def value [Inhabited V] : Node V → V
  | terminator => default
  | node _ _ value _ => value

def isTerminator : Node V → Bool
  | terminator => true
  | node .. => false

/-- The constructor of `Node`. -/
def new (left right : Node V) (value : V) : Node V := node left right value (max left.height right.height + 1)

@[simp] theorem height_node (l r : Node V) (v : V) (h : Nat) : (node l r v h).height = h := rfl

@[simp] theorem height_terminator : (terminator : Node V).height = 0 := rfl

@[simp] theorem height_new (l r : Node V) (v : V) : (new l r v).height = max l.height r.height + 1 := rfl

@[simp] theorem isTerminator_terminator : (terminator : Node V).isTerminator = true := rfl

@[simp] theorem isTerminator_node (l r : Node V) (v : V) (h : Nat) : (node l r v h).isTerminator = false := rfl

section Balance

variable [Inhabited V]

def balance (left : Node V) (value : V) (right : Node V) : Node V :=
  if left.height > right.height + 2 then
    let ll := left.left
    let lr := left.right
    if ll.height ≥ lr.height then new ll (new lr right value) left.value
    else new (new ll lr.left left.value) (new lr.right right value) lr.value
  else if right.height > left.height + 2 then
    let rl := right.left
    let rr := right.right
    if rr.height ≥ rl.height then new (new left rl value) rr right.value
    else new (new left rl.left value) (new rl.right rr right.value) rl.value
  else new left right value

/-- The tree without its first entry, and this entry. -/
def popMin : Node V → Node V × V
  | terminator => (terminator, default)
  | node left right value _ =>
    if left.isTerminator then (right, value)
    else (balance (popMin left).1 value right, (popMin left).2)

def popMax : Node V → Node V × V
  | terminator => (terminator, default)
  | node left right value _ =>
    if right.isTerminator then (left, value)
    else (balance left value (popMax right).1, (popMax right).2)

variable [LinearOrder K] (key : V → K)

/-- What `insert` and `replace` have in common; they differ in what becomes of a node with the key. -/
def insertWith (same : Node V → Node V) (v : V) : Node V → Node V
  | terminator => new terminator terminator v
  | node left right value height =>
    if key v < key value then balance (insertWith same v left) value right
    else if key value < key v then balance left value (insertWith same v right)
    else same (node left right value height)

def insert (v : V) : Node V → Node V := insertWith key id v

def replace (v : V) : Node V → Node V := insertWith key (fun n => new n.left n.right v) v

def remove (k : K) : Node V → Node V
  | terminator => terminator
  | node left right value _ =>
    if k < key value then balance (remove k left) value right
    else if key value < k then balance left value (remove k right)
    else if left.isTerminator then right
    else if right.isTerminator then left
    else balance left (popMin right).2 (popMin right).1

end Balance

section Lookup

variable [LinearOrder K] (key : V → K)

def lookup (k : K) : Node V → Option V
  | terminator => none
  | node left right value _ =>
    if k < key value then lookup k left
    else if key value < k then lookup k right
    else some value

/-- The loop of `lookup_previous`, with its `result`. -/
def lookupPrevious (k : K) (result : Option V) : Node V → Option V
  | terminator => result
  | node left right value _ =>
    if k < key value then lookupPrevious k result left
    else if key value < k then lookupPrevious k (some value) right
    else some value

end Lookup

def toList : Node V → List V
  | terminator => []
  | node left right value _ => left.toList ++ value :: right.toList

/-- Heights are stored right, and those of siblings differ by two at most. -/
def Balanced : Node V → Prop
  | terminator => True
  | node left right _ height => left.Balanced ∧ right.Balanced ∧ height = max left.height right.height + 1 ∧
      left.height ≤ right.height + 2 ∧ right.height ≤ left.height + 2

@[simp] theorem toList_new (l r : Node V) (v : V) : (new l r v).toList = l.toList ++ v :: r.toList := rfl

theorem balanced_new {l r : Node V} {v : V} : (new l r v).Balanced ↔
    l.Balanced ∧ r.Balanced ∧ l.height ≤ r.height + 2 ∧ r.height ≤ l.height + 2 := by
  simp [new, Balanced]

theorem Balanced.height_pos {l r : Node V} {v : V} {h : Nat} (hb : (node l r v h).Balanced) :
    0 < (node l r v h).height := by
  rw [height_node, hb.2.2.1]
  exact Nat.succ_pos _

/-- The tree is no higher than three times the logarithm of the number of its entries. -/
theorem Balanced.two_pow_le {t : Node V} (h : t.Balanced) : 2 ^ (t.height / 3) ≤ t.toList.length + 1 := by
  induction t with
  | terminator => simp
  | node left right value height ihl ihr =>
    obtain ⟨hl, hr, hheight, hle, hge⟩ := h
    have hleft := ihl hl
    have hright := ihr hr
    rw [height_node, toList, List.length_append, List.length_cons]
    by_cases hsmall : height < 3
    · rw [Nat.div_eq_of_lt hsmall]
      omega
    · have hpow : 2 ^ (height / 3) = 2 ^ ((height - 3) / 3) + 2 ^ ((height - 3) / 3) := by
        rw [show height / 3 = (height - 3) / 3 + 1 by omega, Nat.pow_succ, Nat.mul_two]
      have h₁ : 2 ^ ((height - 3) / 3) ≤ 2 ^ (left.height / 3) := Nat.pow_le_pow_right Nat.two_pos (by omega)
      have h₂ : 2 ^ ((height - 3) / 3) ≤ 2 ^ (right.height / 3) := Nat.pow_le_pow_right Nat.two_pos (by omega)
      omega

variable [Inhabited V] {t l r : Node V} {v : V} {k : K}

theorem exists_node (h : 0 < t.height) : ∃ l r h', t = node l r t.value h' := by
  cases t with
  | terminator => cases h
  | node l r v h' => exact ⟨l, r, h', rfl⟩

theorem toList_eq (h : 0 < t.height) : t.toList = t.left.toList ++ t.value :: t.right.toList := by
  obtain ⟨l, r, h', ht⟩ := exists_node h
  rw [ht]
  rfl

/-- A rotation keeps the order of the entries, whatever the heights are. -/
theorem toList_balance (l : Node V) (v : V) (r : Node V) : (balance l v r).toList = l.toList ++ v :: r.toList := by
  unfold balance
  dsimp only
  split
  · rename_i hleft
    have hl := toList_eq (t := l) (by omega)
    split
    · simp [hl]
    · have hlr := toList_eq (t := l.right) (by omega)
      simp [hl, hlr]
  · split
    · rename_i hright
      have hr := toList_eq (t := r) (by omega)
      split
      · simp [hr]
      · have hrl := toList_eq (t := r.left) (by omega)
        simp [hr, hrl]
    · rfl

theorem Balanced.children (h : t.Balanced) (hpos : 0 < t.height) : t.left.Balanced ∧ t.right.Balanced ∧
    t.height = max t.left.height t.right.height + 1 ∧
      t.left.height ≤ t.right.height + 2 ∧ t.right.height ≤ t.left.height + 2 := by
  obtain ⟨l, r, h', ht⟩ := exists_node hpos
  rw [ht] at h ⊢
  exact h

/-- Two balanced trees whose heights differ by three at most are joined, and the height is one more than the greater
one, or this one after a rotation. -/
theorem balance_spec (hl : l.Balanced) (hr : r.Balanced) (hle : l.height ≤ r.height + 3)
    (hge : r.height ≤ l.height + 3) : (balance l v r).Balanced ∧
      max l.height r.height ≤ (balance l v r).height ∧ (balance l v r).height ≤ max l.height r.height + 1 ∧
        (l.height ≤ r.height + 2 → r.height ≤ l.height + 2 → max l.height r.height < (balance l v r).height) := by
  unfold balance
  dsimp only
  split
  · rename_i hleft
    obtain ⟨hll, hlr, hheight, h₁, h₂⟩ := hl.children (by omega)
    rw [max_eq_left (show r.height ≤ l.height by omega)]
    split
    · rename_i hout
      rw [max_eq_left hout] at hheight
      simp only [balanced_new, height_new, max_eq_left (show r.height ≤ l.right.height by omega)]
      refine ⟨⟨hll, ⟨hlr, hr, ?_, ?_⟩, ?_, ?_⟩, ?_, ?_, ?_⟩ <;> omega
    · rw [max_eq_right (by omega)] at hheight
      obtain ⟨hlrl, hlrr, hheight', h₃, h₄⟩ := hlr.children (by omega)
      simp only [balanced_new, height_new]
      refine ⟨⟨⟨hll, hlrl, ?_, ?_⟩, ⟨hlrr, hr, ?_, ?_⟩, ?_, ?_⟩, ?_, ?_, ?_⟩ <;> omega
  · split
    · rename_i hright
      obtain ⟨hrl, hrr, hheight, h₁, h₂⟩ := hr.children (by omega)
      rw [max_eq_right (show l.height ≤ r.height by omega)]
      split
      · rename_i hout
        rw [max_eq_right hout] at hheight
        simp only [balanced_new, height_new, max_eq_right (show l.height ≤ r.left.height by omega)]
        refine ⟨⟨⟨hl, hrl, ?_, ?_⟩, hrr, ?_, ?_⟩, ?_, ?_, ?_⟩ <;> omega
      · rw [max_eq_left (by omega)] at hheight
        obtain ⟨hrll, hrlr, hheight', h₃, h₄⟩ := hrl.children (by omega)
        simp only [balanced_new, height_new]
        refine ⟨⟨⟨hl, hrll, ?_, ?_⟩, ⟨hrlr, hrr, ?_, ?_⟩, ?_, ?_⟩, ?_, ?_, ?_⟩ <;> omega
    · simp only [balanced_new, height_new]
      refine ⟨⟨hl, hr, ?_, ?_⟩, ?_, ?_, ?_⟩ <;> omega

theorem popMin_spec : ∀ {t : Node V}, t.Balanced → 0 < t.height → t.toList = (popMin t).2 :: (popMin t).1.toList ∧
    (popMin t).1.Balanced ∧ (popMin t).1.height ≤ t.height ∧ t.height ≤ (popMin t).1.height + 1
  | terminator, _, hpos => by cases hpos
  | node left right value height, ⟨hl, hr, hheight, hle, hge⟩, _ => by
    rw [height_node]
    unfold popMin
    cases left with
    | terminator =>
      rw [height_terminator] at hheight hge
      rw [if_pos isTerminator_terminator]
      dsimp only
      exact ⟨rfl, hr, by omega, by omega⟩
    | node ll lr lv lh =>
      obtain ⟨htoList, hmin, hmin_le, hle_min⟩ := popMin_spec hl hl.height_pos
      rw [if_neg (by simp)]
      dsimp only
      obtain ⟨hb, h₁, h₂, h₃⟩ := balance_spec (v := value) hmin hr (by omega) (by omega)
      refine ⟨?_, hb, by omega, by omega⟩
      rw [toList_balance, toList, htoList, List.cons_append]

theorem popMax_spec : ∀ {t : Node V}, t.Balanced → 0 < t.height → t.toList = (popMax t).1.toList ++ [(popMax t).2] ∧
    (popMax t).1.Balanced ∧ (popMax t).1.height ≤ t.height ∧ t.height ≤ (popMax t).1.height + 1
  | terminator, _, hpos => by cases hpos
  | node left right value height, ⟨hl, hr, hheight, hle, hge⟩, _ => by
    rw [height_node]
    unfold popMax
    cases right with
    | terminator =>
      rw [height_terminator] at hheight hle
      rw [if_pos isTerminator_terminator]
      dsimp only
      exact ⟨rfl, hl, by omega, by omega⟩
    | node rl rr rv rh =>
      obtain ⟨htoList, hmax, hmax_le, hle_max⟩ := popMax_spec hr hr.height_pos
      rw [if_neg (by simp)]
      dsimp only
      obtain ⟨hb, h₁, h₂, h₃⟩ := balance_spec (v := value) hl hmax (by omega) (by omega)
      refine ⟨?_, hb, by omega, by omega⟩
      rw [toList_balance, toList, htoList, List.append_assoc, List.cons_append]

section Operations

variable [LinearOrder K] {key : V → K}

theorem insertWith_grows {same : Node V → Node V}
    (hsame : ∀ n : Node V, n.Balanced → 0 < n.height → (same n).Balanced ∧ (same n).height = n.height) (h : t.Balanced) :
    (insertWith key same v t).Balanced ∧ t.height ≤ (insertWith key same v t).height ∧
      (insertWith key same v t).height ≤ t.height + 1 := by
  induction t with
  | terminator => simp [insertWith, balanced_new, Balanced]
  | node left right value height ihl ihr =>
    obtain ⟨hl, hr, hheight, hle, hge⟩ := h
    unfold insertWith
    rw [height_node]
    split
    · obtain ⟨hb, h₁, h₂⟩ := ihl hl
      obtain ⟨hb', h₃, h₄, h₅⟩ := balance_spec (v := value) hb hr (by omega) (by omega)
      exact ⟨hb', by omega, by omega⟩
    · split
      · obtain ⟨hb, h₁, h₂⟩ := ihr hr
        obtain ⟨hb', h₃, h₄, h₅⟩ := balance_spec (v := value) hl hb (by omega) (by omega)
        exact ⟨hb', by omega, by omega⟩
      · obtain ⟨hb, heq⟩ := hsame (node left right value height) ⟨hl, hr, hheight, hle, hge⟩ (by simp [hheight])
        rw [height_node] at heq
        exact ⟨hb, by omega, by omega⟩

theorem remove_shrinks (h : t.Balanced) : (remove key k t).Balanced ∧ (remove key k t).height ≤ t.height ∧
    t.height ≤ (remove key k t).height + 1 := by
  induction t with
  | terminator => simp [remove, Balanced]
  | node left right value height ihl ihr =>
    obtain ⟨hl, hr, hheight, hle, hge⟩ := h
    unfold remove
    rw [height_node]
    split
    · obtain ⟨hb, h₁, h₂⟩ := ihl hl
      obtain ⟨hb', h₃, h₄, h₅⟩ := balance_spec (v := value) hb hr (by omega) (by omega)
      exact ⟨hb', by omega, by omega⟩
    · split
      · obtain ⟨hb, h₁, h₂⟩ := ihr hr
        obtain ⟨hb', h₃, h₄, h₅⟩ := balance_spec (v := value) hl hb (by omega) (by omega)
        exact ⟨hb', by omega, by omega⟩
      · cases left with
        | terminator =>
          rw [height_terminator] at hheight hge
          rw [if_pos isTerminator_terminator]
          exact ⟨hr, by omega, by omega⟩
        | node ll lr lv lh =>
          rw [if_neg (by simp)]
          cases right with
          | terminator =>
            rw [height_terminator] at hheight hle
            rw [if_pos isTerminator_terminator]
            exact ⟨hl, by omega, by omega⟩
          | node rl rr rv rh =>
            rw [if_neg (by simp)]
            obtain ⟨-, hb, h₁, h₂⟩ := popMin_spec hr hr.height_pos
            obtain ⟨hb', h₃, h₄, h₅⟩ := balance_spec (v := (popMin (node rl rr rv rh)).2) hl hb (by omega) (by omega)
            exact ⟨hb', by omega, by omega⟩

end Operations

end Node

section Lists

variable [LinearOrder K] (key : V → K)

/-- Put an entry into a sorted list; `same` is what becomes of an entry with its key. -/
def put (same : V → V) (v : V) : List V → List V
  | [] => [v]
  | x :: xs =>
    if key v < key x then v :: x :: xs
    else if key x < key v then x :: put same v xs
    else same x :: xs

variable {key} {same : V → V} {v x : V} {k : K} {l r : List V}

theorem put_append_left (h : key v < key x) : put key same v (l ++ x :: r) = put key same v l ++ x :: r := by
  induction l with
  | nil => simp [put, h]
  | cons y l ih =>
    simp only [List.cons_append, put, ih]
    split
    · rfl
    · split <;> rfl

theorem put_append_right (h : ∀ y ∈ l, key y < key v) : put key same v (l ++ r) = l ++ put key same v r := by
  induction l with
  | nil => rfl
  | cons y l ih =>
    obtain ⟨hy, hl⟩ := List.forall_mem_cons.mp h
    simp only [List.cons_append, put, ih hl]
    rw [if_neg hy.not_gt, if_pos hy]

theorem forall_put {P : K → Prop} (hsame : ∀ x, key x = key v → key (same x) = key v) (hv : P (key v))
    (hl : ∀ x ∈ l, P (key x)) : ∀ y ∈ put key same v l, P (key y) := by
  induction l with
  | nil => simpa [put] using hv
  | cons x l ih =>
    obtain ⟨hx, hl⟩ := List.forall_mem_cons.mp hl
    unfold put
    split
    · exact List.forall_mem_cons.mpr ⟨hv, List.forall_mem_cons.mpr ⟨hx, hl⟩⟩
    · split
      · exact List.forall_mem_cons.mpr ⟨hx, ih hl⟩
      · rename_i hge hle
        refine List.forall_mem_cons.mpr ⟨?_, hl⟩
        rw [hsame x (le_antisymm (not_lt.mp hge) (not_lt.mp hle))]
        exact hv

theorem filter_ne_eq_self (h : ∀ y ∈ l, key y ≠ k) : l.filter (key · ≠ k) = l :=
  List.filter_eq_self.mpr fun y hy => by simp [h y hy]

end Lists

section Ordered

variable [LinearOrder K] (key : V → K)

/-- The entries ascend, so that no two have the same key. -/
def Ascending (l : List V) : Prop := l.Pairwise fun x y => key x < key y

variable {key} {l r : List V} {v x : V} {k : K}

theorem ascending_append : Ascending key (l ++ x :: r) ↔
    (Ascending key l ∧ ∀ y ∈ l, key y < key x) ∧ Ascending key r ∧ ∀ y ∈ r, key x < key y := by
  unfold Ascending
  rw [List.pairwise_append, List.pairwise_cons]
  constructor
  · rintro ⟨hl, ⟨hx, hr⟩, hlr⟩
    exact ⟨⟨hl, fun y hy => hlr y hy x List.mem_cons_self⟩, hr, hx⟩
  · rintro ⟨⟨hl, hlx⟩, hr, hx⟩
    refine ⟨hl, ⟨hx, hr⟩, fun y hy z hz => ?_⟩
    rcases List.mem_cons.mp hz with rfl | hz
    · exact hlx y hy
    · exact (hlx y hy).trans (hx z hz)

theorem ascending_put {same : V → V} (hsame : ∀ x, key x = key v → key (same x) = key v) (h : Ascending key l) :
    Ascending key (put key same v l) := by
  induction l with
  | nil => exact List.pairwise_singleton _ _
  | cons x l ih =>
    obtain ⟨hx, hl⟩ := List.pairwise_cons.mp h
    unfold put
    split
    · rename_i hlt
      exact List.pairwise_cons.mpr ⟨List.forall_mem_cons.mpr ⟨hlt, fun y hy => hlt.trans (hx y hy)⟩, h⟩
    · split
      · rename_i hlt
        exact List.pairwise_cons.mpr ⟨forall_put hsame hlt hx, ih hl⟩
      · rename_i hge hle
        have hkey : key x = key v := le_antisymm (not_lt.mp hge) (not_lt.mp hle)
        refine List.pairwise_cons.mpr ⟨fun y hy => ?_, hl⟩
        rw [hsame x hkey, ← hkey]
        exact hx y hy

namespace Node

variable [Inhabited V] {t : Node V}

theorem toList_insertWith {same : Node V → Node V} {sameEntry : V → V}
    (hsame : ∀ left right value height,
      (same (node left right value height)).toList = left.toList ++ sameEntry value :: right.toList)
    (h : Ascending key t.toList) : (insertWith key same v t).toList = put key sameEntry v t.toList := by
  induction t with
  | terminator => rfl
  | node left right value height ihl ihr =>
    rw [toList, ascending_append] at h
    obtain ⟨⟨hl, hlx⟩, hr, hx⟩ := h
    unfold insertWith
    rw [toList]
    split
    · rename_i hlt
      rw [toList_balance, ihl hl, put_append_left hlt]
    · split
      · rename_i hge hlt
        rw [toList_balance, ihr hr, put_append_right fun y hy => (hlx y hy).trans hlt, put, if_neg hge, if_pos hlt]
      · rename_i hge hle
        have hkey : key value = key v := le_antisymm (not_lt.mp hge) (not_lt.mp hle)
        rw [hsame, put_append_right (hkey ▸ hlx), put, if_neg hge, if_neg hle]

theorem toList_insert (h : Ascending key t.toList) : (insert key v t).toList = put key id v t.toList :=
  toList_insertWith (fun _ _ _ _ => rfl) h

theorem toList_replace (h : Ascending key t.toList) : (replace key v t).toList = put key (fun _ => v) v t.toList :=
  toList_insertWith (fun _ _ _ _ => rfl) h

theorem toList_remove (hb : t.Balanced) (h : Ascending key t.toList) :
    (remove key k t).toList = t.toList.filter (key · ≠ k) := by
  induction t with
  | terminator => rfl
  | node left right value height ihl ihr =>
    rw [toList, ascending_append] at h
    obtain ⟨⟨hl, hlx⟩, hr, hx⟩ := h
    unfold remove
    rw [toList, List.filter_append]
    split
    · rename_i hlt
      rw [toList_balance, ihl hb.1 hl, List.filter_cons_of_pos (by simpa using hlt.ne'),
        filter_ne_eq_self fun y hy => (hlt.trans (hx y hy)).ne']
    · split
      · rename_i hlt
        rw [toList_balance, ihr hb.2.1 hr, List.filter_cons_of_pos (by simpa using hlt.ne),
          filter_ne_eq_self fun y hy => ((hlx y hy).trans hlt).ne]
      · rename_i hge hle
        have hkey : key value = k := le_antisymm (not_lt.mp hge) (not_lt.mp hle)
        rw [List.filter_cons_of_neg (by simpa using hkey), filter_ne_eq_self fun y hy => (hkey ▸ hlx y hy).ne,
          filter_ne_eq_self fun y hy => (hkey ▸ hx y hy).ne']
        cases left with
        | terminator => rfl
        | node ll lr lv lh =>
          rw [if_neg (by simp)]
          cases right with
          | terminator => exact (List.append_nil _).symm
          | node rl rr rv rh =>
            rw [if_neg (by simp), toList_balance, ← (popMin_spec hb.2.1 hb.2.1.height_pos).1]

omit [Inhabited V]

theorem lookup_eq (h : Ascending key t.toList) : lookup key k t = t.toList.find? (key · = k) := by
  induction t with
  | terminator => rfl
  | node left right value height ihl ihr =>
    rw [toList, ascending_append] at h
    obtain ⟨⟨hl, hlx⟩, hr, hx⟩ := h
    unfold lookup
    rw [toList, List.find?_append]
    split
    · rename_i hlt
      have hright : (value :: right.toList).find? (key · = k) = none := by
        refine List.find?_eq_none.mpr fun y hy => ?_
        rcases List.mem_cons.mp hy with rfl | hy
        · simpa using hlt.ne'
        · simpa using (hlt.trans (hx y hy)).ne'
      rw [ihl hl, hright, Option.or_none]
    · rename_i hge
      have hleft : left.toList.find? (key · = k) = none :=
        List.find?_eq_none.mpr fun y hy => by simpa using ((hlx y hy).trans_le (not_lt.mp hge)).ne
      rw [hleft, Option.none_or]
      split
      · rename_i hlt
        rw [ihr hr, List.find?_cons_of_neg (by simpa using hlt.ne)]
      · rename_i hle
        rw [List.find?_cons_of_pos (by simpa using le_antisymm (not_lt.mp hge) (not_lt.mp hle))]

theorem lookupPrevious_eq {result : Option V} (h : Ascending key t.toList) :
    lookupPrevious key k result t = (t.toList.filter (key · ≤ k)).getLast?.or result := by
  induction t generalizing result with
  | terminator => rfl
  | node left right value height ihl ihr =>
    rw [toList, ascending_append] at h
    obtain ⟨⟨hl, hlx⟩, hr, hx⟩ := h
    unfold lookupPrevious
    rw [toList, List.filter_append]
    split
    · rename_i hlt
      have hright : (value :: right.toList).filter (key · ≤ k) = [] := by
        refine List.filter_eq_nil_iff.mpr fun y hy => ?_
        rcases List.mem_cons.mp hy with rfl | hy
        · simpa using hlt
        · simpa using hlt.trans (hx y hy)
      rw [ihl hl, hright, List.append_nil]
    · rename_i hge
      rw [List.filter_cons_of_pos (by simpa using hge), List.getLast?_append, List.getLast?_cons]
      split
      · rw [ihr hr]
        cases (right.toList.filter (key · ≤ k)).getLast? <;> rfl
      · rename_i hle
        have hright : right.toList.filter (key · ≤ k) = [] :=
          List.filter_eq_nil_iff.mpr fun y hy => by simpa using (not_lt.mp hle).trans_lt (hx y hy)
        rw [hright]
        rfl

end Node

end Ordered

/-- An operation that gives a new tree. -/
inductive Op (V K : Type)
  | insert (v : V)
  | replace (v : V)
  | remove (k : K)
  | popMin
  | popMax

section Run

variable [Inhabited V] [LinearOrder K] (key : V → K)

def Op.apply : Op V K → Node V → Node V
  | insert v => Node.insert key v
  | replace v => Node.replace key v
  | remove k => Node.remove key k
  | popMin => fun t => t.popMin.1
  | popMax => fun t => t.popMax.1

/-- What the operation means for the entries in order. -/
def Op.onEntries : Op V K → List V → List V
  | insert v => put key id v
  | replace v => put key (fun _ => v) v
  | remove k => List.filter (key · ≠ k)
  | popMin => List.tail
  | popMax => List.dropLast

variable {key}

theorem Op.apply_spec {t : Node V} (op : Op V K) (hb : t.Balanced) (h : Ascending key t.toList) :
    (op.apply key t).Balanced ∧ (op.apply key t).toList = op.onEntries key t.toList ∧
      Ascending key (op.onEntries key t.toList) := by
  cases op with
  | insert v =>
    exact ⟨(Node.insertWith_grows (fun _ hn _ => ⟨hn, rfl⟩) hb).1, Node.toList_insert h,
      ascending_put (fun _ hx => hx) h⟩
  | replace v =>
    refine ⟨(Node.insertWith_grows (fun n hn hpos => ?_) hb).1, Node.toList_replace h, ascending_put (fun _ _ => rfl) h⟩
    obtain ⟨hl, hr, hheight, hle, hge⟩ := hn.children hpos
    exact ⟨Node.balanced_new.mpr ⟨hl, hr, hle, hge⟩, hheight.symm⟩
  | remove k => exact ⟨(Node.remove_shrinks hb).1, Node.toList_remove hb h, h.filter _⟩
  | popMin =>
    cases t with
    | terminator => exact ⟨trivial, rfl, h⟩
    | node left right value height =>
      obtain ⟨htoList, hmin, -, -⟩ := Node.popMin_spec hb hb.height_pos
      refine ⟨hmin, ?_, h.sublist (List.tail_sublist _)⟩
      rw [Op.onEntries, htoList]
      rfl
  | popMax =>
    cases t with
    | terminator => exact ⟨trivial, rfl, h⟩
    | node left right value height =>
      obtain ⟨htoList, hmax, -, -⟩ := Node.popMax_spec hb hb.height_pos
      refine ⟨hmax, ?_, h.sublist (List.dropLast_sublist _)⟩
      rw [Op.onEntries, htoList, List.dropLast_concat]
      rfl

theorem run_spec (ops : List (Op V K)) {t : Node V} (hb : t.Balanced) (h : Ascending key t.toList) :
    (ops.foldl (fun t op => op.apply key t) t).Balanced ∧
      (ops.foldl (fun t op => op.apply key t) t).toList = ops.foldl (fun l op => op.onEntries key l) t.toList ∧
        Ascending key (ops.foldl (fun t op => op.apply key t) t).toList := by
  induction ops generalizing t with
  | nil => exact ⟨hb, rfl, h⟩
  | cons op ops ih =>
    obtain ⟨hb', htoList, h'⟩ := op.apply_spec hb h
    rw [← htoList] at h'
    have hrun := ih hb' h'
    rw [htoList] at hrun
    exact hrun

/-- Every version of a tree is a balanced search tree, no higher than three times the logarithm of its size, with the
entries that the operations say; and the two searches are those in the list of the entries. -/
theorem tree_refines (key : V → K) (ops : List (Op V K)) (k : K) :
    let t := ops.foldl (fun t op => op.apply key t) Node.terminator
    let entries := ops.foldl (fun l op => op.onEntries key l) []
    t.Balanced ∧ 2 ^ (t.height / 3) ≤ entries.length + 1 ∧ t.toList = entries ∧ Ascending key entries ∧
      Node.lookup key k t = entries.find? (key · = k) ∧
        Node.lookupPrevious key k none t = (entries.filter (key · ≤ k)).getLast? := by
  intro t entries
  have hnil : Ascending key (Node.terminator : Node V).toList := List.Pairwise.nil
  obtain ⟨hb, hentries, h⟩ := run_spec ops (t := Node.terminator) trivial hnil
  have htoList : t.toList = entries := hentries
  refine ⟨hb, htoList ▸ hb.two_pow_le, htoList, htoList ▸ h, htoList ▸ Node.lookup_eq h, ?_⟩
  rw [Node.lookupPrevious_eq h, Option.or_none, htoList]

end Run

end ImmutableTree

end CgsKlee
