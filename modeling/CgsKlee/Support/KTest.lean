import CgsKlee.Lib.Bytes
import Mathlib.Data.List.TakeWhile

/-!
# Test-case files

`KTest.cpp` writes a test case (the program arguments and the bytes of each symbolic object) to a `.ktest` file
and reads it back.  A file is the list of its bytes.  A writing step appends to the file and says whether it
succeeded; the first step that fails takes the error exit, which leaves in the file what was written before
it.  The reader returns `none` on the error exit.

`fwrite` and `fread` return the number of items they moved, and that number is zero when the size of an item is
zero.  The writer and the reader both pass a string's length as the size of one item and test for the result
`1`, so a string or an object without bytes is taken for an error.
-/

namespace CgsKlee

open Bytes

abbrev File := List UInt8

/-- A C string: its characters, without the `NUL` at the end. -/
structure CString where
  chars : List UInt8
  nul_notMem : 0 ∉ chars
  deriving DecidableEq

namespace CString

def strlen (s : CString) : Nat := s.chars.length

/-- The length as an `unsigned`. -/
def len32 (s : CString) : Nat := s.strlen % 2 ^ 32

theorem len32_lt (s : CString) : s.len32 < 2 ^ 32 := Nat.mod_lt _ (by norm_num)

theorem len32_le (s : CString) : s.len32 ≤ s.strlen := Nat.mod_le _ _

/-- The string that a buffer holds: everything before the first `NUL`. -/
def ofBuffer (buf : List UInt8) : CString where
  chars := buf.takeWhile (· ≠ 0)
  nul_notMem h := by simpa using List.mem_takeWhile_imp h

@[ext] theorem ext {s t : CString} (h : s.chars = t.chars) : s = t := by
  cases s
  cases t
  simpa using h

def truncate (s : CString) (n : Nat) : CString where
  chars := s.chars.take n
  nul_notMem h := s.nul_notMem (List.mem_of_mem_take h)

theorem ofBuffer_take (s : CString) (n : Nat) : ofBuffer (s.chars.take n) = s.truncate n := by
  ext1
  show (s.chars.take n).takeWhile (· ≠ 0) = s.chars.take n
  rw [List.takeWhile_eq_self_iff]
  intro c hc
  have hne : c ≠ 0 := fun h0 => s.nul_notMem (h0 ▸ List.mem_of_mem_take hc)
  simpa using hne

theorem truncate_eq_self_iff (s : CString) (n : Nat) : s.truncate n = s ↔ s.strlen ≤ n := by
  constructor
  · intro h
    have hlen : (s.chars.take n).length = s.chars.length := by
      rw [show s.chars.take n = (s.truncate n).chars from rfl, h]
    rw [List.length_take] at hlen
    simp only [strlen]
    omega
  · intro h
    ext1
    exact List.take_of_length_le h

end CString

structure KTestObject where
  name : CString
  bytes : List UInt8
  numBytes_lt : bytes.length < 2 ^ 32
  deriving DecidableEq

structure KTest where
  version : UInt32
  args : List CString
  symArgvs : UInt32
  symArgvLen : UInt32
  objects : List KTestObject
  numArgs_lt : args.length < 2 ^ 32
  numObjects_lt : objects.length < 2 ^ 32
  deriving DecidableEq

namespace KTestObject

def numBytes (o : KTestObject) : Nat := o.bytes.length

@[ext] theorem ext {o p : KTestObject} (hn : o.name = p.name) (hb : o.bytes = p.bytes) : o = p := by
  cases o
  cases p
  simp_all

end KTestObject

namespace KTest

def KTEST_VERSION : UInt32 := 3

def KTEST_MAGIC : List UInt8 := [75, 84, 69, 83, 84]

def KTEST_MAGIC_SIZE : Nat := 5

def BOUT_MAGIC : List UInt8 := [66, 79, 85, 84, 10]

def numArgs (bo : KTest) : Nat := bo.args.length

def numObjects (bo : KTest) : Nat := bo.objects.length

/-! ## The C library -/

/-- `fwrite` on a file without faults: the number of items written and the file. -/
def fwrite (data : List UInt8) (size nmemb : Nat) (f : File) : Nat × File :=
  if size = 0 ∨ nmemb = 0 then (0, f) else (nmemb, f ++ data.take (size * nmemb))

/-- `fread` on the rest of a file: the number of whole items read, their bytes and what is left. -/
def fread (size nmemb : Nat) (f : File) : Nat × List UInt8 × File :=
  if size = 0 ∨ nmemb = 0 then (0, [], f)
  else (min nmemb (f.length / size), f.take (size * nmemb), f.drop (size * nmemb))

/-! ## Writing -/

/-- A writing step: whether it succeeded, and the file after it. -/
abbrev Write := File → Bool × File

def steps : List Write → Write
  | [], f => (true, f)
  | w :: ws, f =>
    match w f with
    | (true, f) => steps ws f
    | (false, f) => (false, f)

def writeUint32 (value : Nat) : Write := fun f =>
  let data := [UInt8.ofNat (value >>> 24), UInt8.ofNat (value >>> 16), UInt8.ofNat (value >>> 8),
    UInt8.ofNat (value >>> 0)]
  let (n, f) := fwrite data 1 4 f
  (n == 4, f)

def writeString (value : CString) : Write := fun f =>
  let len := value.len32
  match writeUint32 len f with
  | (false, f) => (false, f)
  | (true, f) =>
    let (n, f) := fwrite value.chars len 1 f
    (n == 1, f)

/-- The bytes of an object, the last step of the loop over the objects. -/
def writeBytes (o : KTestObject) : Write := fun f =>
  let (n, f) := fwrite o.bytes o.numBytes 1 f
  (n == 1, f)

def writeMagic : Write := fun f =>
  let (n, f) := fwrite KTEST_MAGIC KTEST_MAGIC.length 1 f
  (n == 1, f)

/-- `kTest_toFile`: the result and the file, which `fopen` with `"wb"` makes empty. -/
def kTestToFile (bo : KTest) : Bool × File :=
  steps ([writeMagic, writeUint32 KTEST_VERSION.toNat, writeUint32 bo.numArgs] ++
    bo.args.map writeString ++
    [writeUint32 bo.symArgvs.toNat, writeUint32 bo.symArgvLen.toNat, writeUint32 bo.numObjects] ++
    bo.objects.flatMap (fun o => [writeString o.name, writeUint32 o.numBytes, writeBytes o])) []

/-! ## Reading -/

def readUint32 (f : File) : Option (Nat × File) :=
  match fread 4 1 f with
  | (1, [d₀, d₁, d₂, d₃], f) => some ((((d₀.toNat <<< 8 + d₁.toNat) <<< 8 + d₂.toNat) <<< 8) + d₃.toNat, f)
  | _ => none

/-- The buffer has `len + 1` bytes, computed in 32 bits: for the largest `len` it has none, and filling it is
out of bounds. -/
def readString (f : File) : Option (CString × File) := do
  let (len, f) ← readUint32 f
  if (len + 1) % 2 ^ 32 ≤ len then none
  else
    match fread len 1 f with
    | (1, data, f) => some (CString.ofBuffer data, f)
    | _ => none

def readObject (f : File) : Option (KTestObject × File) := do
  let (name, f) ← readString f
  let (numBytes, f) ← readUint32 f
  match fread numBytes 1 f with
  | (1, data, f) => if h : data.length < 2 ^ 32 then some (⟨name, data, h⟩, f) else none
  | _ => none

def kTestCheckHeader (f : File) : Option File :=
  match fread KTEST_MAGIC_SIZE 1 f with
  | (1, header, f) => if header ≠ KTEST_MAGIC ∧ header ≠ BOUT_MAGIC then none else some f
  | _ => none

/-- The two fields that came with version 2; the test case is allocated with zeros. -/
def readSymArgv (version : Nat) (f : File) : Option (Nat × Nat × File) :=
  if 2 ≤ version then do
    let (symArgvs, f) ← readUint32 f
    let (symArgvLen, f) ← readUint32 f
    return (symArgvs, symArgvLen, f)
  else some (0, 0, f)

def kTestFromFile (f : File) : Option KTest := do
  let f ← kTestCheckHeader f
  let (version, f) ← readUint32 f
  if KTEST_VERSION.toNat < version then none
  else
    let (numArgs, f) ← readUint32 f
    let (args, f) ← readMany readString numArgs f
    let (symArgvs, symArgvLen, f) ← readSymArgv version f
    let (numObjects, f) ← readUint32 f
    let (objects, _) ← readMany readObject numObjects f
    if h : args.length < 2 ^ 32 ∧ objects.length < 2 ^ 32 then
      some ⟨.ofNat version, args, .ofNat symArgvs, .ofNat symArgvLen, objects, h.1, h.2⟩
    else none

/-! ## What the writer writes -/

theorem fread_append {size : Nat} (h0 : 0 < size) {data : List UInt8} (hd : data.length = size) (rest : File) :
    fread size 1 (data ++ rest) = (1, data, rest) := by
  have hn : min 1 ((data ++ rest).length / size) = 1 := by
    have h1 : 1 ≤ (data ++ rest).length / size := by
      rw [Nat.le_div_iff_mul_le h0, List.length_append]
      omega
    omega
  subst hd
  have hne : ¬(data.length = 0 ∨ 1 = 0) := by omega
  simp only [fread, if_neg hne, hn, mul_one, List.take_left, List.drop_left]

/-- A step that succeeds iff `ok`, and then has appended `bs`. -/
def Appends (w : Write) (ok : Bool) (bs : List UInt8) : Prop :=
  ∀ f, ∃ g, w f = (ok, g) ∧ (ok → g = f ++ bs)

theorem steps_nil_appends : Appends (steps []) true [] := by
  intro f
  exact ⟨f, rfl, fun _ => by simp⟩

theorem steps_cons_appends {w : Write} {ws : List Write} {ok ok' : Bool} {bs bs' : List UInt8}
    (h : Appends w ok bs) (h' : Appends (steps ws) ok' bs') :
    Appends (steps (w :: ws)) (ok && ok') (bs ++ bs') := by
  intro f
  obtain ⟨g, hw, hg⟩ := h f
  cases ok with
  | false => exact ⟨g, by simp [steps, hw], by simp⟩
  | true =>
    obtain ⟨g', hws, hg'⟩ := h' g
    refine ⟨g', by simp [steps, hw, hws], ?_⟩
    intro hok
    rw [hg' (by simpa using hok), hg rfl, List.append_assoc]

theorem steps_append_appends {ws ws' : List Write} {ok ok' : Bool} {bs bs' : List UInt8}
    (h : Appends (steps ws) ok bs) (h' : Appends (steps ws') ok' bs') :
    Appends (steps (ws ++ ws')) (ok && ok') (bs ++ bs') := by
  have happ : ∀ f, steps (ws ++ ws') f =
      match steps ws f with
      | (true, f) => steps ws' f
      | (false, f) => (false, f) := by
    clear h
    induction ws with
    | nil => intro f; rfl
    | cons w ws ih =>
      intro f
      simp only [List.cons_append, steps]
      cases hw : w f with
      | mk ok g => cases ok <;> simp [ih]
  intro f
  obtain ⟨g, hws, hg⟩ := h f
  rw [happ, hws]
  cases ok with
  | false => exact ⟨g, by simp, by simp⟩
  | true =>
    obtain ⟨g', hws', hg'⟩ := h' g
    refine ⟨g', by simp [hws'], ?_⟩
    intro hok
    rw [hg' (by simpa using hok), hg rfl, List.append_assoc]

theorem steps_flatMap_appends {α : Type} {w : α → List Write} {ok : α → Bool} {bs : α → List UInt8}
    (h : ∀ a, Appends (steps (w a)) (ok a) (bs a)) (l : List α) :
    Appends (steps (l.flatMap w)) (l.all ok) (l.flatMap bs) := by
  induction l with
  | nil => exact steps_nil_appends
  | cons a l ih =>
    simpa only [List.flatMap_cons, List.all_cons] using steps_append_appends (h a) ih

theorem steps_singleton_appends {w : Write} {ok : Bool} {bs : List UInt8} (h : Appends w ok bs) :
    Appends (steps [w]) ok bs := by
  simpa using steps_cons_appends h steps_nil_appends

def uint32Bytes (v : Nat) : List UInt8 := (le 4 v).reverse

theorem writeUint32_appends (v : Nat) : Appends (writeUint32 v) true (uint32Bytes v) := by
  intro f
  refine ⟨f ++ uint32Bytes v, ?_, fun _ => rfl⟩
  have hb : uint32Bytes v = [UInt8.ofNat (v >>> 24), UInt8.ofNat (v >>> 16), UInt8.ofNat (v >>> 8),
      UInt8.ofNat (v >>> 0)] := by
    simp [uint32Bytes, le, Nat.shiftRight_eq_div_pow, Nat.div_div_eq_div_mul]
  simp [writeUint32, fwrite, hb]

theorem writeMagic_appends : Appends writeMagic true KTEST_MAGIC := by
  intro f
  exact ⟨f ++ KTEST_MAGIC, by simp [writeMagic, fwrite, KTEST_MAGIC], fun _ => rfl⟩

/-- The bytes of a string: its length in 32 bits and that many of its characters. -/
def stringBytes (s : CString) : List UInt8 :=
  uint32Bytes s.len32 ++ s.chars.take s.len32

def stringWritten (s : CString) : Bool := s.len32 != 0

theorem writeString_appends (s : CString) : Appends (writeString s) (stringWritten s) (stringBytes s) := by
  intro f
  obtain ⟨g, hw, hg⟩ := writeUint32_appends s.len32 f
  by_cases h0 : s.len32 = 0
  · exact ⟨g, by simp only [writeString, hw]; simp [fwrite, h0, stringWritten], by simp [stringWritten, h0]⟩
  · refine ⟨g ++ s.chars.take s.len32, by simp [writeString, hw, fwrite, h0, stringWritten], ?_⟩
    intro _
    rw [hg rfl, stringBytes, List.append_assoc]

def objectBytes (o : KTestObject) : List UInt8 :=
  stringBytes o.name ++ (uint32Bytes o.numBytes ++ o.bytes)

def objectWritten (o : KTestObject) : Bool := stringWritten o.name && o.numBytes != 0

theorem writeBytes_appends (o : KTestObject) : Appends (writeBytes o) (o.numBytes != 0) o.bytes := by
  intro f
  by_cases h0 : o.numBytes = 0
  · exact ⟨f, by simp [writeBytes, fwrite, h0], by simp [h0]⟩
  · refine ⟨f ++ o.bytes, ?_, fun _ => rfl⟩
    have ht : o.bytes.take o.numBytes = o.bytes := List.take_length
    simp [writeBytes, fwrite, h0, ht]

theorem writeObject_appends (o : KTestObject) :
    Appends (steps [writeString o.name, writeUint32 o.numBytes, writeBytes o]) (objectWritten o)
      (objectBytes o) := by
  have h := steps_cons_appends (writeString_appends o.name) (steps_cons_appends (writeUint32_appends o.numBytes)
    (steps_singleton_appends (writeBytes_appends o)))
  simpa [objectWritten, objectBytes] using h

def fileBytes (bo : KTest) : List UInt8 :=
  KTEST_MAGIC ++ (uint32Bytes KTEST_VERSION.toNat ++ (uint32Bytes bo.numArgs ++
    (bo.args.flatMap stringBytes ++ (uint32Bytes bo.symArgvs.toNat ++ (uint32Bytes bo.symArgvLen.toNat ++
      (uint32Bytes bo.numObjects ++ bo.objects.flatMap objectBytes))))))

theorem kTestToFile_appends (bo : KTest) :
    ∃ f, kTestToFile bo = (bo.args.all stringWritten && bo.objects.all objectWritten, f) ∧
      (bo.args.all stringWritten && bo.objects.all objectWritten → f = fileBytes bo) := by
  have hargs := steps_flatMap_appends (fun s => steps_singleton_appends (writeString_appends s)) bo.args
  rw [← List.map_eq_flatMap] at hargs
  have hobjects := steps_flatMap_appends writeObject_appends bo.objects
  have hhead := steps_cons_appends writeMagic_appends
    (steps_cons_appends (writeUint32_appends KTEST_VERSION.toNat)
      (steps_singleton_appends (writeUint32_appends bo.numArgs)))
  have hmid := steps_cons_appends (writeUint32_appends bo.symArgvs.toNat)
    (steps_cons_appends (writeUint32_appends bo.symArgvLen.toNat)
      (steps_singleton_appends (writeUint32_appends bo.numObjects)))
  obtain ⟨f, hf, hg⟩ := steps_append_appends (steps_append_appends (steps_append_appends hhead hargs) hmid)
    hobjects []
  refine ⟨f, by simpa [kTestToFile] using hf, ?_⟩
  intro hok
  rw [hg (by simpa using hok)]
  simp [fileBytes]

/-! ## What the reader reads back -/

theorem readUint32_uint32Bytes {v : Nat} (h : v < 2 ^ 32) (rest : File) :
    readUint32 (uint32Bytes v ++ rest) = some (v, rest) := by
  have hlen : (uint32Bytes v).length = 4 := by simp [uint32Bytes]
  have hb : uint32Bytes v = [UInt8.ofNat (v / 256 / 256 / 256), UInt8.ofNat (v / 256 / 256),
      UInt8.ofNat (v / 256), UInt8.ofNat v] := by
    simp [uint32Bytes, le]
  rw [readUint32, fread_append (by norm_num) hlen, hb]
  simp only [Nat.shiftLeft_eq, UInt8.toNat_ofNat', Option.some.injEq, Prod.mk.injEq, and_true]
  omega

def stringRead (s : CString) : Bool := decide (s.len32 + 1 < 2 ^ 32)

theorem readString_stringBytes {s : CString} (h : stringWritten s) (rest : File) :
    readString (stringBytes s ++ rest) = if stringRead s then some (s.truncate s.len32, rest) else none := by
  have h0 : 0 < s.len32 := by
    simp only [stringWritten, bne_iff_ne] at h
    omega
  have hlt := s.len32_lt
  have hlen : (s.chars.take s.len32).length = s.len32 := by
    rw [List.length_take]
    exact min_eq_left s.len32_le
  simp only [readString, stringBytes, List.append_assoc, readUint32_uint32Bytes hlt, Option.bind_eq_bind,
    Option.bind_some, fread_append h0 hlen, CString.ofBuffer_take]
  by_cases hr : s.len32 + 1 < 2 ^ 32
  · rw [if_neg (by omega), if_pos (by simpa [stringRead] using hr)]
  · rw [if_pos (by omega), if_neg (by simpa [stringRead] using hr)]

def objectBack (o : KTestObject) : KTestObject := { o with name := o.name.truncate o.name.len32 }

theorem readObject_objectBytes {o : KTestObject} (h : objectWritten o) (rest : File) :
    readObject (objectBytes o ++ rest) = if stringRead o.name then some (objectBack o, rest) else none := by
  simp only [objectWritten, Bool.and_eq_true, bne_iff_ne] at h
  have h0 : 0 < o.numBytes := Nat.pos_of_ne_zero h.2
  have hlt : o.numBytes < 2 ^ 32 := o.numBytes_lt
  have hd : o.bytes.length = o.numBytes := rfl
  simp only [readObject, objectBytes, List.append_assoc, readString_stringBytes h.1]
  by_cases hr : stringRead o.name
  · simp only [hr, if_true, Option.bind_eq_bind, Option.bind_some, readUint32_uint32Bytes hlt,
      fread_append h0 hd, o.numBytes_lt, dite_true]
    rfl
  · simp [hr]

def back (bo : KTest) : KTest where
  version := KTEST_VERSION
  args := bo.args.map fun s => s.truncate s.len32
  symArgvs := bo.symArgvs
  symArgvLen := bo.symArgvLen
  objects := bo.objects.map objectBack
  numArgs_lt := by simpa using bo.numArgs_lt
  numObjects_lt := by simpa using bo.numObjects_lt

def allRead (bo : KTest) : Bool := bo.args.all stringRead && bo.objects.all fun o => stringRead o.name

theorem kTestFromFile_fileBytes {bo : KTest} (hargs : bo.args.all stringWritten)
    (hobjects : bo.objects.all objectWritten) :
    kTestFromFile (fileBytes bo) = if bo.allRead then some bo.back else none := by
  have hm : KTEST_MAGIC.length = KTEST_MAGIC_SIZE := rfl
  have hv : KTEST_VERSION.toNat < 2 ^ 32 := by decide
  have hn : bo.numArgs < 2 ^ 32 := bo.numArgs_lt
  have ho : bo.numObjects < 2 ^ 32 := bo.numObjects_lt
  have ha : ∀ rest, readMany readString bo.numArgs (bo.args.flatMap stringBytes ++ rest) =
      if bo.args.all stringRead then some (bo.args.map fun s => s.truncate s.len32, rest) else none :=
    readMany_flatMap fun s hs rest => readString_stringBytes (List.all_eq_true.mp hargs s hs) rest
  have hb : ∀ rest, readMany readObject bo.numObjects (bo.objects.flatMap objectBytes ++ rest) =
      if bo.objects.all (fun o => stringRead o.name) then some (bo.objects.map objectBack, rest) else none :=
    readMany_flatMap fun o h rest => readObject_objectBytes (List.all_eq_true.mp hobjects o h) rest
  have hb' := hb []
  rw [List.append_nil] at hb'
  simp only [kTestFromFile, kTestCheckHeader, fileBytes, fread_append (by decide) hm, ne_eq, not_true_eq_false,
    false_and, if_false, readUint32_uint32Bytes hv, readUint32_uint32Bytes hn, ha, Option.bind_eq_bind,
    Option.bind_some, lt_irrefl]
  by_cases hra : bo.args.all stringRead
  · have hs : ∀ rest, readSymArgv KTEST_VERSION.toNat
        (uint32Bytes bo.symArgvs.toNat ++ (uint32Bytes bo.symArgvLen.toNat ++ rest)) =
          some (bo.symArgvs.toNat, bo.symArgvLen.toNat, rest) := by
      intro rest
      rw [readSymArgv, if_pos (by decide), readUint32_uint32Bytes bo.symArgvs.toNat_lt]
      simp [readUint32_uint32Bytes bo.symArgvLen.toNat_lt]
    simp only [hra, if_true, Option.bind_some, hs, readUint32_uint32Bytes ho, hb']
    by_cases hrb : bo.objects.all fun o => stringRead o.name
    · simp only [hrb, if_true, Option.bind_some, List.length_map, bo.numArgs_lt, bo.numObjects_lt, and_self,
        dite_true, allRead, hra]
      simp [back]
    · simp [hrb, allRead]
  · simp [hra, allRead]

/-! ## The round trip -/

/-- Writing reports success, and reading the file gives the test case again.  The version is not part of the
data: the writer always writes the current one. -/
def RoundTrips (bo : KTest) : Prop :=
  ∃ f, kTestToFile bo = (true, f) ∧ kTestFromFile f = some { bo with version := KTEST_VERSION }

instance (bo : KTest) : Decidable (RoundTrips bo) :=
  decidable_of_iff ((kTestToFile bo).1 = true ∧
      kTestFromFile (kTestToFile bo).2 = some { bo with version := KTEST_VERSION }) (by
    constructor
    · rintro ⟨h1, h2⟩
      exact ⟨(kTestToFile bo).2, by rw [← h1], h2⟩
    · rintro ⟨f, h1, h2⟩
      rw [h1]
      exact ⟨rfl, h2⟩)

/-- Every string has at least one character and fewer than `2 ^ 32 - 1`, and every object at least one byte. -/
def Storable (bo : KTest) : Prop :=
  (∀ s ∈ bo.args, 0 < s.strlen ∧ s.strlen < 2 ^ 32 - 1) ∧
    ∀ o ∈ bo.objects, (0 < o.name.strlen ∧ o.name.strlen < 2 ^ 32 - 1) ∧ 0 < o.numBytes

theorem string_back_iff (s : CString) :
    (stringWritten s ∧ stringRead s ∧ s.truncate s.len32 = s) ↔ 0 < s.strlen ∧ s.strlen < 2 ^ 32 - 1 := by
  rw [CString.truncate_eq_self_iff]
  have hw : stringWritten s = true ↔ s.len32 ≠ 0 := bne_iff_ne
  have hr : stringRead s = true ↔ s.len32 + 1 < 2 ^ 32 := decide_eq_true_iff
  rw [hw, hr, CString.len32]
  omega

theorem back_eq_iff (bo : KTest) :
    bo.back = { bo with version := KTEST_VERSION } ↔
      (∀ s ∈ bo.args, s.truncate s.len32 = s) ∧
        ∀ o ∈ bo.objects, o.name.truncate o.name.len32 = o.name := by
  have hobj : ∀ o : KTestObject, objectBack o = o ↔ o.name.truncate o.name.len32 = o.name := by
    intro o
    rw [KTestObject.ext_iff]
    simp [objectBack]
  have hmap : ∀ {α : Type} (g : α → α) (l : List α), l.map g = l ↔ ∀ a ∈ l, g a = a := by
    intro α g l
    conv_lhs => rhs; rw [← List.map_id l]
    exact List.map_inj_left
  simp only [back, KTest.mk.injEq, true_and, hmap, hobj]

theorem roundTrips_iff_storable (bo : KTest) : RoundTrips bo ↔ Storable bo := by
  obtain ⟨f, hf, hbytes⟩ := kTestToFile_appends bo
  constructor
  · rintro ⟨f', hw, hr⟩
    rw [hf, Prod.mk.injEq] at hw
    obtain ⟨hok, rfl⟩ := hw
    rw [hbytes hok] at hr
    simp only [Bool.and_eq_true] at hok
    rw [kTestFromFile_fileBytes hok.1 hok.2] at hr
    by_cases hall : bo.allRead
    · rw [if_pos hall, Option.some.injEq, back_eq_iff] at hr
      simp only [allRead, Bool.and_eq_true, List.all_eq_true] at hall
      simp only [List.all_eq_true] at hok
      refine ⟨fun s hs => (string_back_iff s).mp ⟨hok.1 s hs, hall.1 s hs, hr.1 s hs⟩, fun o ho => ?_⟩
      have hw := hok.2 o ho
      simp only [objectWritten, Bool.and_eq_true, bne_iff_ne] at hw
      exact ⟨(string_back_iff o.name).mp ⟨hw.1, hall.2 o ho, hr.2 o ho⟩, Nat.pos_of_ne_zero hw.2⟩
    · rw [if_neg hall] at hr
      cases hr
  · rintro ⟨hargs, hobjects⟩
    have ha : ∀ s ∈ bo.args, stringWritten s ∧ stringRead s ∧ s.truncate s.len32 = s :=
      fun s hs => (string_back_iff s).mpr (hargs s hs)
    have ho : ∀ o ∈ bo.objects, stringWritten o.name ∧ stringRead o.name ∧
        o.name.truncate o.name.len32 = o.name :=
      fun o h => (string_back_iff o.name).mpr (hobjects o h).1
    have hwa : bo.args.all stringWritten := List.all_eq_true.mpr fun s hs => (ha s hs).1
    have hwo : bo.objects.all objectWritten := by
      refine List.all_eq_true.mpr fun o h => ?_
      simp only [objectWritten, (ho o h).1, Bool.true_and, bne_iff_ne]
      exact Nat.ne_of_gt (hobjects o h).2
    have hall : bo.allRead := by
      simp only [allRead, Bool.and_eq_true, List.all_eq_true]
      exact ⟨fun s hs => (ha s hs).2.1, fun o h => (ho o h).2.1⟩
    have hok : (bo.args.all stringWritten && bo.objects.all objectWritten) = true := by rw [hwa, hwo]; rfl
    refine ⟨f, by rw [hf, hok], ?_⟩
    rw [hbytes hok, kTestFromFile_fileBytes hwa hwo, if_pos hall, Option.some.injEq, back_eq_iff]
    exact ⟨fun s hs => (ha s hs).2.2, fun o h => (ho o h).2.2⟩

theorem version_of_written {bo r : KTest} {f : File} (hw : kTestToFile bo = (true, f))
    (hr : kTestFromFile f = some r) : r.version = KTEST_VERSION := by
  obtain ⟨f', hf, hbytes⟩ := kTestToFile_appends bo
  rw [hf, Prod.mk.injEq] at hw
  obtain ⟨hok, rfl⟩ := hw
  rw [hbytes hok] at hr
  simp only [Bool.and_eq_true] at hok
  rw [kTestFromFile_fileBytes hok.1 hok.2] at hr
  by_cases hall : bo.allRead
  · rw [if_pos hall, Option.some.injEq] at hr
    rw [← hr]
    rfl
  · rw [if_neg hall] at hr
    cases hr

/-- A test case survives the file iff none of its strings and objects is empty and every length fits.  With the
version taken for a part of the data, it has to be the current one as well. -/
theorem kTest_roundTrip_iff (bo : KTest) :
    (RoundTrips bo ↔ Storable bo) ∧
      ((∃ f, kTestToFile bo = (true, f) ∧ kTestFromFile f = some bo) ↔
        bo.version = KTEST_VERSION ∧ Storable bo) := by
  refine ⟨roundTrips_iff_storable bo, ?_⟩
  rw [← roundTrips_iff_storable]
  constructor
  · rintro ⟨f, hw, hr⟩
    have hv := version_of_written hw hr
    exact ⟨hv, f, hw, by rw [hr, ← hv]⟩
  · rintro ⟨hv, f, hw, hr⟩
    exact ⟨f, hw, by rw [hr, ← hv]⟩

def emptyObject : KTest where
  version := KTEST_VERSION
  args := []
  symArgvs := 0
  symArgvLen := 0
  objects := [⟨⟨[97], by decide⟩, [], by decide⟩]
  numArgs_lt := by decide
  numObjects_lt := by decide

/-- Writing an object of zero bytes reports an error. -/
theorem emptyObject_not_written : (kTestToFile emptyObject).1 = false ∧ ¬RoundTrips emptyObject := by
  decide

end KTest

end CgsKlee
