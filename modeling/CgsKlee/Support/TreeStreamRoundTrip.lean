import CgsKlee.Support.TreeStream

/-!
# Path streams read back

The file of a writer, once its buffer is flushed, is the row of records of some history with the same streams as
the history of calls: the buffer merges writes to one stream and never moves a write across a fork.  Over such a
file the first pass of `readStream` finds the ancestors of the stream (`findChain_ops`), and the second pass has
collected, at every fork and chunk, exactly what the ancestor it is at holds there (`Reading`).
-/

namespace CgsKlee

open Bytes

namespace TreeStream

/-! ## The first pass -/

def Linked (parent : Nat → Nat) (roots : List Nat) : Prop :=
  List.IsChain (fun x y => parent y = x ∧ x < y) roots

/-- The chain of ancestors of a stream, from its root ancestor on. -/
structure ChainTo (parent : Nat → Nat) (streamID : Nat) (roots : List Nat) : Prop where
  root : ∃ a rest, roots = a :: rest ∧ 0 < a ∧ parent a = 0
  linked : Linked parent roots
  last : roots.getLast? = some streamID

variable {parent : Nat → Nat} {parents : List (Nat × Nat)} {streamID n : Nat}

theorem ancestors_chainTo (hlt : ∀ k, 0 < k → k ≤ n → parent k < k)
    (hlookup : ∀ k, 0 < k → k ≤ n → parents.lookup k = some (parent k)) {fuel id c : Nat} {rest : List Nat}
    (hn : id ≤ n) (hfuel : id ≤ fuel) (hc : parent c = id) (hpos : id < c) (hlinked : Linked parent (c :: rest))
    (hlast : (c :: rest).getLast? = some streamID) :
    ∃ roots, ancestors parents fuel id (c :: rest) = some roots ∧ ChainTo parent streamID roots := by
  induction fuel generalizing id c rest with
  | zero =>
    obtain rfl : id = 0 := by omega
    exact ⟨c :: rest, by simp [ancestors], ⟨c, rest, rfl, by omega, hc⟩, hlinked, hlast⟩
  | succ fuel ih =>
    by_cases h0 : id = 0
    · exact ⟨c :: rest, by simp [ancestors, h0], ⟨c, rest, rfl, by omega, by omega⟩, hlinked, hlast⟩
    · have hp := hlt id (by omega) hn
      have hle : parent id ≤ n := by omega
      have hlinked' : Linked parent (id :: c :: rest) := List.isChain_cons_cons.mpr ⟨⟨hc, hpos⟩, hlinked⟩
      obtain ⟨roots, hroots, hchain⟩ := ih hle (by omega) rfl hp hlinked' (by simpa using hlast)
      refine ⟨roots, ?_, hchain⟩
      rw [ancestors, if_neg h0]
      simp only [hlookup id (by omega) hn]
      exact hroots

theorem insertParent_eq {child id : Nat} (h : parents.lookup child = none) :
    insertParent parents child id = (child, id) :: parents := by
  simp [insertParent, h]

theorem findChain_ops {ops : List Op} (hv : Valid n ops)
    (hlt : ∀ k, 0 < k → k ≤ n + opens ops → parent k < k)
    (hops : ∀ i, i < opens ops → parent (n + i + 1) = (parentsOf ops).getD i 0)
    (hlookup : ∀ k, 0 < k → k ≤ n → parents.lookup k = some (parent k))
    (hnone : ∀ k, n < k → parents.lookup k = none) (hlen : parents.length = n) (hn : n < 2 ^ 31)
    (h0 : n < streamID) (h : streamID ≤ n + opens ops) :
    ∃ roots, findChain streamID (opsBytes n ops) parents = some roots ∧ ChainTo parent streamID roots := by
  induction ops generalizing n parents with
  | nil =>
    simp only [opens, parentsOf, List.length_nil] at h
    omega
  | cons op ops ih =>
    cases op with
    | flush => exact ih hv hlt hops hlookup hnone hlen hn h0 h
    | write id s =>
      obtain ⟨⟨-, hid, hs⟩, hv⟩ := hv
      obtain ⟨roots, hroots, hchain⟩ := ih hv hlt hops hlookup hnone hlen hn h0 h
      refine ⟨roots, ?_, hchain⟩
      rw [opsBytes, findChain_chunk (by omega) hs]
      exact hroots
    | openStream p =>
      obtain ⟨⟨hp, hn'⟩, hv⟩ := hv
      have hpar : parent (n + 1) = p := hops 0 (by simp [opens, parentsOf])
      have hopens : opens (.openStream p :: ops) = opens ops + 1 := by simp [opens, parentsOf]
      rw [hopens] at h hlt hops
      rw [opsBytes_openStream, findChain_fork (by omega) hn']
      by_cases hid : n + 1 = streamID
      · rw [if_pos hid]
        have hlt' : ∀ k, 0 < k → k ≤ n → parent k < k := fun k hk hkn => hlt k hk (by omega)
        exact ancestors_chainTo hlt' hlookup hp (by omega) hpar (by omega) (List.isChain_singleton _)
          (by simp [hid])
      · rw [if_neg hid, insertParent_eq (hnone (n + 1) (by omega))]
        have hlookup' : ∀ k, 0 < k → k ≤ n + 1 → ((n + 1, p) :: parents).lookup k = some (parent k) := by
          intro k hk hkn
          by_cases hkeq : k = n + 1
          · rw [hkeq, hpar]
            simp
          · have hne : (k == n + 1) = false := by simpa using hkeq
            rw [List.lookup_cons, hne]
            exact hlookup k hk (by omega)
        have hnone' : ∀ k, n + 1 < k → ((n + 1, p) :: parents).lookup k = none := by
          intro k hk
          have hne : (k == n + 1) = false := by simp; omega
          rw [List.lookup_cons, hne]
          exact hnone k (by omega)
        have hops' : ∀ i, i < opens ops → parent (n + 1 + i + 1) = (parentsOf ops).getD i 0 := by
          intro i hi
          have := hops (i + 1) (by omega)
          rw [show n + (i + 1) + 1 = n + 1 + i + 1 by omega] at this
          rw [this]
          rfl
        have hlt' : ∀ k, 0 < k → k ≤ n + 1 + opens ops → parent k < k := fun k hk hkn => hlt k hk (by omega)
        exact ih hv hlt' hops' hlookup' hnone' (by simp [hlen]) hn' (by omega) (by omega)

/-! ## The second pass -/

/-- Where the second pass is after the calls `pre`: at the last ancestor that is open, or at the root ancestor
when none is open yet, and with what that ancestor holds. -/
structure Reading (parent : Nat → Nat) (streamID : Nat) (out₀ : List UInt8) (pre : List Op) (roots : List Nat)
    (out : List UInt8) : Prop where
  linked : Linked parent roots
  last : roots.getLast? = some streamID
  current : ∃ a rest, roots = a :: rest ∧ (∀ b ∈ rest, opens pre < b) ∧ 0 < a ∧
    (a ≤ opens pre ∧ out = out₀ ++ expected pre a ∨ opens pre < a ∧ parent a = 0 ∧ out = out₀)

variable {out₀ out : List UInt8} {pre : List Op} {roots : List Nat}

theorem opens_snoc_write (id : Nat) (s : List UInt8) : opens (pre ++ [.write id s]) = opens pre := by
  rw [opens_append]
  rfl

theorem opens_snoc_flush : opens (pre ++ [.flush]) = opens pre := by
  rw [opens_append]
  rfl

theorem opens_snoc_open (p : Nat) : opens (pre ++ [.openStream p]) = opens pre + 1 := by
  rw [opens_append]
  rfl

theorem Reading.write (h : Reading parent streamID out₀ pre roots out) {id : Nat} {s : List UInt8}
    (hid : id ≤ opens pre) :
    Reading parent streamID out₀ (pre ++ [.write id s]) roots
      (if roots.head? = some id then out ++ s else out) := by
  obtain ⟨hlinked, hlast, a, rest, rfl, hrest, h0, hcur⟩ := h
  refine ⟨hlinked, hlast, a, rest, rfl, by rwa [opens_snoc_write], h0, ?_⟩
  simp only [opens_snoc_write, List.head?_cons, Option.some.injEq]
  obtain ⟨ha, rfl⟩ | ⟨ha, hroot, rfl⟩ := hcur
  · refine .inl ⟨ha, ?_⟩
    rw [expected_append h0 ha]
    by_cases hai : a = id
    · simp [written, hai]
    · simp [written, hai, Ne.symm hai]
  · exact .inr ⟨ha, hroot, if_neg (by omega)⟩

theorem Reading.flush (h : Reading parent streamID out₀ pre roots out) :
    Reading parent streamID out₀ (pre ++ [.flush]) roots out := by
  obtain ⟨hlinked, hlast, a, rest, rfl, hrest, h0, hcur⟩ := h
  refine ⟨hlinked, hlast, a, rest, rfl, by rwa [opens_snoc_flush], h0, ?_⟩
  rw [opens_snoc_flush]
  obtain ⟨ha, rfl⟩ | h := hcur
  · refine .inl ⟨ha, ?_⟩
    rw [expected_append h0 ha]
    simp [written]
  · exact .inr h

/-- A fork that opens another stream than the next one leaves the current ancestor as it is; the root ancestor
may be the one that is opened. -/
theorem stay_fork {a p : Nat} (hv : Valid 0 pre) (hpar : parent (opens pre + 1) = p) (h0 : 0 < a)
    (hcur : a ≤ opens pre ∧ out = out₀ ++ expected pre a ∨ opens pre < a ∧ parent a = 0 ∧ out = out₀) :
    a ≤ opens (pre ++ [.openStream p]) ∧ out = out₀ ++ expected (pre ++ [.openStream p]) a ∨
      opens (pre ++ [.openStream p]) < a ∧ parent a = 0 ∧ out = out₀ := by
  rw [opens_snoc_open]
  obtain ⟨ha, rfl⟩ | ⟨ha, hroot, rfl⟩ := hcur
  · refine .inl ⟨by omega, ?_⟩
    rw [expected_append h0 ha]
    simp [written]
  · by_cases han : a = opens pre + 1
    · refine .inl ⟨by omega, ?_⟩
      have hp0 : p = 0 := by rw [← hpar, ← han, hroot]
      rw [han, expected_open hv, hp0, expected_zero, List.append_nil]
    · exact .inr ⟨by omega, hroot, rfl⟩

theorem Reading.fork (h : Reading parent streamID out₀ pre roots out) (hv : Valid 0 pre) {p : Nat}
    (hp : p ≤ opens pre) (hpar : parent (opens pre + 1) = p) :
    Reading parent streamID out₀ (pre ++ [.openStream p])
      (if roots.head? = some p ∧ 1 < roots.length ∧ roots[1]? = some (opens pre + 1) then roots.tail else roots)
      out := by
  obtain ⟨hlinked, hlast, a, rest, rfl, hrest, h0, hcur⟩ := h
  cases rest with
  | nil =>
    rw [if_neg (by simp)]
    exact ⟨hlinked, hlast, a, [], rfl, by simp, h0, stay_fork hv hpar h0 hcur⟩
  | cons b rest =>
    have hlt : ∀ c ∈ rest, b < c := by
      have hpair : List.Pairwise (· < ·) (a :: b :: rest) :=
        List.isChain_iff_pairwise.mp (hlinked.imp fun _ _ h => h.2)
      exact (List.pairwise_cons.mp (List.pairwise_cons.mp hpair).2).1
    have hb := hrest b (by simp)
    obtain ⟨hab, hlinked'⟩ := List.isChain_cons_cons.mp hlinked
    by_cases hbn : b = opens pre + 1
    · -- the fork opens the next stream of the chain, so its parent is the current one
      obtain rfl : a = p := by rw [← hab.1, hbn, hpar]
      rw [if_pos ⟨by simp, by simp, by simp [hbn]⟩]
      obtain ⟨-, rfl⟩ | ⟨ha, -, -⟩ := hcur
      · refine ⟨hlinked', by simpa using hlast, b, rest, rfl, ?_, by omega, .inl ⟨?_, ?_⟩⟩
        · intro c hc
          rw [opens_snoc_open, ← hbn]
          exact hlt c hc
        · rw [opens_snoc_open, hbn]
        · rw [hbn, expected_open hv]
      · omega
    · rw [if_neg (by simp [hbn])]
      refine ⟨hlinked, hlast, a, b :: rest, rfl, ?_, h0, stay_fork hv hpar h0 hcur⟩
      intro c hc
      rw [opens_snoc_open]
      obtain rfl | hc := List.mem_cons.mp hc
      · omega
      · have := hlt c hc
        omega

theorem collect_ops {ops : List Op} (h : Reading parent streamID out₀ pre roots out) (hv : Valid 0 (pre ++ ops))
    (hops : ∀ i, i < opens ops → parent (opens pre + i + 1) = (parentsOf ops).getD i 0)
    (hn : opens pre < 2 ^ 31) :
    ∃ roots', Reading parent streamID out₀ (pre ++ ops) roots' (collect (opsBytes (opens pre) ops) roots out) := by
  induction ops generalizing pre roots out with
  | nil => exact ⟨roots, by simpa [opsBytes, collect_nil] using h⟩
  | cons op ops ih =>
    have hv' : Valid 0 ((pre ++ [op]) ++ ops) := by simpa using hv
    obtain ⟨hpre, hop⟩ := valid_append.mp hv
    rw [Nat.zero_add] at hop
    rw [← List.singleton_append, ← List.append_assoc, List.singleton_append]
    cases op with
    | flush =>
      have hrest := ih h.flush hv' (by rwa [opens_snoc_flush]) (by rwa [opens_snoc_flush])
      rwa [opens_snoc_flush] at hrest
    | write id s =>
      obtain ⟨⟨-, hid, hs⟩, -⟩ := hop
      rw [opsBytes, collect_chunk (by omega) hs]
      have hrest := ih (h.write hid) hv' (by rwa [opens_snoc_write]) (by rwa [opens_snoc_write])
      rwa [opens_snoc_write] at hrest
    | openStream p =>
      obtain ⟨⟨hp, hn'⟩, -⟩ := hop
      have hopens : opens (.openStream p :: ops) = opens ops + 1 := by simp [opens, parentsOf]
      have hpar : parent (opens pre + 1) = p := hops 0 (by omega)
      have hops' : ∀ i, i < opens ops → parent (opens (pre ++ [.openStream p]) + i + 1) =
          (parentsOf ops).getD i 0 := by
        intro i hi
        rw [opens_snoc_open, show opens pre + 1 + i + 1 = opens pre + (i + 1) + 1 by omega, hops (i + 1) (by omega)]
        rfl
      obtain ⟨roots', hrest⟩ := ih (h.fork hpre hp hpar) hv' hops' (by rwa [opens_snoc_open])
      refine ⟨roots', ?_⟩
      rw [opsBytes_openStream, collect_fork (by omega) hn']
      rw [opens_snoc_open, apply_ite (fun r => collect _ r out)] at hrest
      exact hrest

theorem Reading.finish (h : Reading parent streamID out₀ pre roots out) (hid : streamID ≤ opens pre) :
    out = out₀ ++ expected pre streamID := by
  obtain ⟨-, hlast, a, rest, rfl, hrest, -, hcur⟩ := h
  cases rest with
  | cons b rest =>
    have hmem : streamID ∈ b :: rest := by
      rw [List.getLast?_cons_cons] at hlast
      exact List.mem_of_getLast? hlast
    have := hrest _ hmem
    omega
  | nil =>
    obtain rfl : a = streamID := by simpa using hlast
    obtain ⟨-, h⟩ | ⟨h, -⟩ := hcur
    · exact h
    · omega

theorem parent_le {ops : List Op} (hv : Valid n ops) {i : Nat} (hi : i < opens ops) :
    (parentsOf ops).getD i 0 ≤ n + i := by
  induction ops generalizing n i with
  | nil => simp [parentsOf]
  | cons op ops ih =>
    cases op with
    | flush => exact ih hv hi
    | write id s => exact ih hv.2 hi
    | openStream p =>
      cases i with
      | zero => exact hv.1.1
      | succ i =>
        have := ih hv.2 (i := i) (by simpa [opens, parentsOf] using hi)
        simp only [parentsOf, List.getD_cons_succ]
        omega

theorem read_opsBytes {ops : List Op} (hv : Valid 0 ops) (h0 : 0 < streamID) (hid : streamID ≤ opens ops)
    (out : List UInt8) :
    ∃ roots, findChain streamID (opsBytes 0 ops) [] = some roots ∧
      collect (opsBytes 0 ops) roots out = out ++ expected ops streamID := by
  let parent : Nat → Nat := fun k => (parentsOf ops).getD (k - 1) 0
  have hlt : ∀ k, 0 < k → k ≤ 0 + opens ops → parent k < k := by
    intro k hk hkn
    have := parent_le hv (i := k - 1) (by omega)
    show (parentsOf ops).getD (k - 1) 0 < k
    omega
  have hops : ∀ i, i < opens ops → parent (0 + i + 1) = (parentsOf ops).getD i 0 := by
    intro i _
    show (parentsOf ops).getD (0 + i + 1 - 1) 0 = _
    rw [Nat.zero_add, Nat.add_sub_cancel]
  have hnone : ∀ k, 0 < k → ([] : List (Nat × Nat)).lookup k = none := fun _ _ => rfl
  obtain ⟨roots, hroots, ⟨a, rest, rfl, ha, hroot⟩, hlinked, hlast⟩ :=
    findChain_ops hv hlt hops (fun k h h' => by omega) hnone rfl (by norm_num) h0 (by omega)
  refine ⟨_, hroots, ?_⟩
  have hpos : ∀ b ∈ rest, 0 < b := by
    intro b hb
    have hpair : List.Pairwise (· < ·) (a :: rest) :=
      List.isChain_iff_pairwise.mp (hlinked.imp fun _ _ h => h.2)
    have := (List.pairwise_cons.mp hpair).1 b hb
    omega
  have hstart : Reading parent streamID out [] (a :: rest) out :=
    ⟨hlinked, hlast, a, rest, rfl, hpos, ha, .inr ⟨ha, hroot, rfl⟩⟩
  have hv' : Valid 0 ([] ++ ops) := hv
  obtain ⟨roots', hread⟩ := collect_ops hstart hv' hops (by decide)
  exact hread.finish hid

/-! ## What the writer has written -/

def Same (a b : List Op) : Prop :=
  opens a = opens b ∧ ∀ id, 0 < id → id ≤ opens a → expected a id = expected b id

theorem Same.rfl' (a : List Op) : Same a a := ⟨rfl, fun _ _ _ => rfl⟩

theorem Same.trans {a b c : List Op} (h : Same a b) (h' : Same b c) : Same a c :=
  ⟨h.1.trans h'.1, fun id h0 hid => (h.2 id h0 hid).trans (h'.2 id h0 (h.1 ▸ hid))⟩

theorem Same.snoc {a b : List Op} (h : Same a b) (ha : Valid 0 a) (hb : Valid 0 b) {op : Op}
    (hop : Valid (opens a) [op]) : Same (a ++ [op]) (b ++ [op]) := by
  refine ⟨by rw [opens_append, opens_append, h.1], ?_⟩
  intro id h0 hid
  by_cases hle : id ≤ opens a
  · rw [expected_append h0 hle, expected_append h0 (h.1 ▸ hle), h.2 id h0 hle]
  · -- only the stream that the call opens is left
    cases op with
    | openStream p =>
      rw [opens_snoc_open] at hid
      obtain rfl : id = opens a + 1 := by omega
      rw [expected_open ha, h.1, expected_open hb]
      have hp := hop.1.1
      by_cases hp0 : p = 0
      · rw [hp0, expected_zero, expected_zero]
      · exact h.2 p (by omega) hp
    | write i s =>
      rw [opens_snoc_write] at hid
      omega
    | flush =>
      rw [opens_snoc_flush] at hid
      omega

theorem Same.replace {a b c : List Op} (hb : opens b = 0) (hc : opens c = 0)
    (h : ∀ id, written id b = written id c) : Same (a ++ b) (a ++ c) := by
  refine ⟨by rw [opens_append, opens_append, hb, hc], ?_⟩
  intro id h0 hid
  rw [opens_append, hb] at hid
  rw [expected_append h0 hid, expected_append h0 hid, h]

namespace TreeStreamWriter

def pending (w : TreeStreamWriter) : List Op := if w.buffer = [] then [] else [.write w.lastID w.buffer]

/-- The file and the buffer of a writer have the streams of its history. -/
structure Keeps (ops : List Op) (w : TreeStreamWriter) : Prop where
  ids : w.ids = opens ops + 1
  small : w.bufferCount ≤ bufferSize
  records : ∃ recs, w.output = opsBytes 0 recs ∧ Valid 0 (recs ++ w.pending) ∧ Same ops (recs ++ w.pending)

variable {ops : List Op} {w : TreeStreamWriter}

theorem keeps_init : Keeps [] init :=
  ⟨rfl, by decide, [], rfl, trivial, Same.rfl' _⟩

theorem flushBuffer_buffer (w : TreeStreamWriter) : w.flushBuffer.buffer = [] := by
  unfold flushBuffer
  split
  · rfl
  · rename_i h
    simpa [bufferCount] using h

theorem flushBuffer_output (w : TreeStreamWriter) (n : Nat) :
    w.flushBuffer.output = w.output ++ opsBytes n w.pending := by
  unfold flushBuffer pending bufferCount
  by_cases hb : w.buffer = []
  · simp [hb, opsBytes]
  · simp [hb, opsBytes, opBytes]

theorem flushBuffer_ids (w : TreeStreamWriter) : w.flushBuffer.ids = w.ids := by
  unfold flushBuffer
  split <;> rfl

theorem pending_of_nil (h : w.buffer = []) : w.pending = [] := if_pos h

theorem Keeps.flushBuffer (h : Keeps ops w) : Keeps ops w.flushBuffer := by
  obtain ⟨hids, hsmall, recs, hout, hv, hsame⟩ := h
  have hnil := w.flushBuffer_buffer
  refine ⟨by rw [flushBuffer_ids, hids], by simp [bufferCount, hnil], recs ++ w.pending, ?_, ?_, ?_⟩
  · rw [w.flushBuffer_output (0 + opens recs), hout, opsBytes_append]
  · rwa [pending_of_nil hnil, List.append_nil]
  · rwa [pending_of_nil hnil, List.append_nil]

theorem valid_snoc {op : Op} (hop : Valid (opens ops) [op]) {recs : List Op} (hv : Valid 0 recs)
    (hsame : Same ops recs) : Valid 0 (recs ++ [op]) :=
  valid_append.mpr ⟨hv, by rwa [Nat.zero_add, ← hsame.1]⟩

theorem Keeps.emit (h : Keeps ops w) (hnil : w.buffer = []) (hv : Valid 0 ops) {op : Op}
    (hop : Valid (opens ops) [op]) :
    Keeps (ops ++ [op]) { w with output := w.output ++ opBytes (opens ops) op, ids := w.ids + opens [op] } := by
  obtain ⟨recs, hout, hvr, hsame⟩ := h.records
  rw [pending_of_nil hnil, List.append_nil] at hvr hsame
  have hpend : pending { w with output := w.output ++ opBytes (opens ops) op, ids := w.ids + opens [op] } = [] :=
    pending_of_nil hnil
  refine ⟨?_, h.small, recs ++ [op], ?_, ?_, ?_⟩
  · show w.ids + opens [op] = _
    rw [h.ids, opens_append]
    omega
  · show w.output ++ opBytes (opens ops) op = _
    rw [hout, opsBytes_append, hsame.1, Nat.zero_add]
    simp [opsBytes]
  · rw [hpend, List.append_nil]
    exact valid_snoc hop hvr hsame
  · rw [hpend, List.append_nil]
    exact hsame.snoc hv hvr hop

theorem Keeps.openStream (h : Keeps ops w) (hv : Valid 0 ops) {p : Nat} (hop : Valid (opens ops) [.openStream p]) :
    Keeps (ops ++ [.openStream p]) (w.openStream p).2 := by
  have hf := h.flushBuffer.emit w.flushBuffer_buffer hv hop
  rw [opBytes, ← h.flushBuffer.ids] at hf
  exact hf

theorem Keeps.flush (h : Keeps ops w) : Keeps (ops ++ [.flush]) w.flush := by
  obtain ⟨hids, hsmall, recs, hout, hv, hsame⟩ := h.flushBuffer
  have hflush : Same (ops ++ [.flush]) (ops ++ []) := Same.replace rfl rfl fun _ => rfl
  rw [List.append_nil] at hflush
  exact ⟨by rw [opens_snoc_flush]; exact hids, hsmall, recs, hout, hv, hflush.trans hsame⟩

theorem Keeps.addToBuffer (h : Keeps ops w) (hv : Valid 0 ops) {id : Nat} {s : List UInt8}
    (hop : Valid (opens ops) [.write id s]) (hne : w.buffer ≠ []) (hid : id = w.lastID)
    (hs : s.length + w.bufferCount ≤ bufferSize) :
    Keeps (ops ++ [.write id s]) { w with buffer := w.buffer ++ s } := by
  obtain ⟨hids, hsmall, recs, hout, hvr, hsame⟩ := h
  have hp : w.pending = [.write id w.buffer] := by rw [pending, if_neg hne, hid]
  have hp' : pending { w with buffer := w.buffer ++ s } = [.write id (w.buffer ++ s)] := by
    rw [pending, if_neg (by simp [hne]), hid]
  have hlen : (w.buffer ++ s).length ≤ bufferSize := by
    rw [List.length_append]
    simp only [bufferCount] at hs
    omega
  rw [hp] at hvr hsame
  refine ⟨by rw [opens_snoc_write]; exact hids, hlen, recs, hout, ?_, ?_⟩
  · rw [hp']
    obtain ⟨hrecs, ⟨h0, hle, -⟩, -⟩ := valid_append.mp hvr
    have hbound : (w.buffer ++ s).length < 2 ^ 31 := by
      simp only [bufferSize] at hlen
      omega
    exact valid_append.mpr ⟨hrecs, ⟨h0, hle, hbound⟩, trivial⟩
  · rw [hp']
    refine (hsame.snoc hv hvr hop).trans ?_
    rw [List.append_assoc]
    refine Same.replace rfl rfl fun i => ?_
    by_cases hi : id = i
    · simp [written, hi]
    · simp [written, hi]

theorem Keeps.newBuffer (h : Keeps ops w) (hv : Valid 0 ops) {id : Nat} {s : List UInt8}
    (hop : Valid (opens ops) [.write id s]) (hnil : w.buffer = []) (hs : s.length < bufferSize) :
    Keeps (ops ++ [.write id s]) { w with lastID := id, buffer := s } := by
  obtain ⟨recs, hout, hvr, hsame⟩ := h.records
  rw [pending_of_nil hnil, List.append_nil] at hvr hsame
  have hsnoc := hsame.snoc hv hvr hop
  refine ⟨by rw [opens_snoc_write]; exact h.ids, le_of_lt hs, recs, hout, ?_, ?_⟩
  · by_cases hs0 : s = []
    · simpa [pending, hs0] using hvr
    · simp only [pending, if_neg hs0]
      exact valid_snoc hop hvr hsame
  · by_cases hs0 : s = []
    · have hnone : Same (recs ++ [.write id s]) (recs ++ []) := by
        refine Same.replace rfl rfl fun i => ?_
        simp [written, hs0]
      simpa [pending, hs0] using hsnoc.trans hnone
    · simp only [pending, if_neg hs0]
      exact hsnoc

theorem Keeps.write (h : Keeps ops w) (hv : Valid 0 ops) {id : Nat} {s : List UInt8}
    (hop : Valid (opens ops) [.write id s]) : Keeps (ops ++ [.write id s]) (w.write id s) := by
  -- the writer after the first branch, which flushes a buffer of another stream and one that is too full
  have hfirst : ∃ w₀, Keeps ops w₀ ∧
      (w₀.bufferCount ≠ 0 → id = w₀.lastID ∧ s.length + w₀.bufferCount ≤ bufferSize) ∧
      w.write id s = if w₀.bufferCount ≠ 0 then { w₀ with buffer := w₀.buffer ++ s }
        else if s.length < bufferSize then { w₀ with lastID := id, buffer := s }
        else { w₀ with output := w₀.output ++ (header id s.length ++ s) } := by
    by_cases hc : w.bufferCount ≠ 0 ∧ (id ≠ w.lastID ∨ bufferSize < s.length + w.bufferCount)
    · refine ⟨w.flushBuffer, h.flushBuffer, ?_, by simp only [TreeStreamWriter.write, if_pos hc]⟩
      intro hne
      exact absurd (by simp [bufferCount, w.flushBuffer_buffer]) hne
    · refine ⟨w, h, ?_, by simp only [TreeStreamWriter.write, if_neg hc]⟩
      intro hne
      by_cases hid : id = w.lastID
      · refine ⟨hid, ?_⟩
        by_contra hlt
        exact hc ⟨hne, .inr (by omega)⟩
      · exact absurd ⟨hne, .inl hid⟩ hc
  obtain ⟨w₀, h₀, hfit, heq⟩ := hfirst
  rw [heq]
  by_cases hne : w₀.bufferCount ≠ 0
  · rw [if_pos hne]
    obtain ⟨hid, hs⟩ := hfit hne
    exact h₀.addToBuffer hv hop (by simpa [bufferCount] using hne) hid hs
  · rw [if_neg hne]
    have hnil : w₀.buffer = [] := by simpa [bufferCount] using hne
    by_cases hs : s.length < bufferSize
    · rw [if_pos hs]
      exact h₀.newBuffer hv hop hnil hs
    · rw [if_neg hs]
      exact h₀.emit hnil hv hop

theorem Keeps.step (h : Keeps ops w) (hv : Valid 0 ops) {op : Op} (hop : Valid (opens ops) [op]) :
    Keeps (ops ++ [op]) (w.step op) := by
  cases op with
  | openStream p => exact h.openStream hv hop
  | write id s => exact h.write hv hop
  | flush => exact h.flush

end TreeStreamWriter

open TreeStreamWriter

theorem keeps_run {ops : List Op} (hv : Valid 0 ops) : TreeStreamWriter.Keeps ops (run ops) := by
  induction ops using List.reverseRecOn with
  | nil => exact keeps_init
  | append_singleton ops op ih =>
    obtain ⟨hops, hop⟩ := valid_append.mp hv
    rw [Nat.zero_add] at hop
    rw [run, List.foldl_append]
    exact (ih hops).step hops hop

theorem TreeStreamWriter.Keeps.readStream {ops : List Op} {w : TreeStreamWriter}
    (h : TreeStreamWriter.Keeps ops w) {id : Nat} (h0 : 0 < id) (hid : id ≤ opens ops) (out : List UInt8) :
    w.readStream id out = some (out ++ expected ops id, w.flush) := by
  obtain ⟨-, -, recs, hout, hvr, hsame⟩ := h.flushBuffer
  rw [pending_of_nil (flushBuffer_buffer _), List.append_nil] at hvr hsame
  obtain ⟨roots, hroots, hcollect⟩ := read_opsBytes hvr h0 (hsame.1 ▸ hid) out
  rw [TreeStreamWriter.readStream, if_pos ⟨h0, by rw [h.ids]; omega⟩]
  simp only [TreeStreamWriter.flush, hout, hroots, hcollect, hsame.2 id h0 hid]

/-- Reading a stream gives what its ancestors held at the forks that lead to it, and then its own bytes. -/
theorem readStream_eq_expected (ops : List Op) (hv : Valid 0 ops) (id : Nat) (h0 : 0 < id) (hid : id ≤ opens ops)
    (out : List UInt8) :
    (run ops).readStream id out = some (out ++ expected ops id, (run ops).flush) :=
  (keeps_run hv).readStream h0 hid out

/-- A stream, a fork of it, and a write to each. -/
theorem readStream_fork :
    (run [.openStream 0, .write 1 [1], .openStream 1, .write 1 [2], .write 2 [3]]).readStream 2 [] =
      some ([1, 3], (run [.openStream 0, .write 1 [1], .openStream 1, .write 1 [2], .write 2 [3]]).flush) := by
  have hbytes : expected [.openStream 0, .write 1 [1], .openStream 1, .write 1 [2], .write 2 [3]] 2 = [1, 3] := by
    have h2 : openedAt [.openStream 0, .write 1 [1], .openStream 1, .write 1 [2], .write 2 [3]] 2 = some (2, 1) := rfl
    have h1 : openedAt [.openStream 0, .write 1 [1]] 1 = some (0, 0) := rfl
    rw [expected_of_openedAt h2, List.take_succ_cons, List.take_succ_cons, List.take_zero, expected_of_openedAt h1,
      expected_zero]
    rfl
  rw [readStream_eq_expected _ (by decide) 2 (by decide) (by decide), hbytes]
  rfl

end TreeStream

end CgsKlee
