import CgsKlee.Lib.APInt
import CgsKlee.Parser.Lexer
import Mathlib.Data.Int.ModEq
import Mathlib.Tactic.Positivity
import Mathlib.Tactic.Ring

/-!
# Number tokens

`ParseNumberToken` reads the digits of a token into a word that has `RadixBits` bits for each of them, negates it if
there is a minus, and only then truncates it or extends it with zeros to the type that is asked for.  A `NumberText` is
a number as it is written, with the integer that it denotes.  The constant is congruent to that integer unless the word
is extended after the integer went below zero or the word was too short for it (`FitsWord`).
-/

namespace CgsKlee

namespace ParserImpl

/-- `Builder->Constant(Value, W)`: a constant has bits. -/
def Constant (value w : Nat) : Option APInt := if 0 < w then some (.ofNat w value) else none

def digitOf (c : Char) : Option Nat :=
  if '0' ≤ c ∧ c ≤ '9' then some (c.toNat - '0'.toNat)
  else if 'a' ≤ c ∧ c ≤ 'z' then some (c.toNat - 'a'.toNat + 10)
  else if 'A' ≤ c ∧ c ≤ 'Z' then some (c.toNat - 'A'.toNat + 10)
  else none

/-- The loop of `ParseNumberToken` over the digits, or the message of the error that stops it. -/
def accumulateDigits (radix : Nat) {bits : Nat} : List Char → BitVec bits → Except String (BitVec bits)
  | [], val => .ok val
  | c :: digits, val =>
    if c = '_' then accumulateDigits radix digits val
    else
      match digitOf c with
      | none => .error "invalid character in numeric token."
      | some digit =>
        if radix ≤ digit then .error "invalid character in numeric token (out of range)."
        else accumulateDigits radix digits (val * BitVec.ofNat bits radix + BitVec.ofNat bits digit)

def splitSign : List Char → List Char × Bool
  | '+' :: s => (s, false)
  | '-' :: s => (s, true)
  | s => (s, false)

/-- The digits of a number without a sign, its radix and the bits for each digit. -/
def splitRadix : List Char → List Char × Nat × Nat
  | '0' :: 'b' :: s => (s, 2, 1)
  | '0' :: 'o' :: s => (s, 8, 3)
  | '0' :: 'x' :: s => (s, 16, 4)
  | s => (s, 10, 4)

def resize {bits : Nat} (val : BitVec bits) (type : Nat) : Option APInt :=
  if 0 < type then some ⟨type, val.setWidth type⟩ else none

/-- `ParserImpl::ParseNumberToken`: the constant, and the message of an error.  The bits are an unsigned number. -/
def ParseNumberToken (type : Nat) (tok : Token) : Option (APInt × Option String) :=
  let (s, hasMinus) := splitSign tok.text
  let (digits, radix, radixBits) := splitRadix s
  if digits.isEmpty ∧ radix ≠ 10 then (Constant 0 type).map (·, some "invalid numeric token (no digits).")
  else
    let bits := radixBits * digits.length % 2 ^ 32
    -- assert: an integer has bits
    if bits = 0 then none
    else
      match accumulateDigits radix digits (0 : BitVec bits) with
      | .error message => (Constant 0 type).map (·, some message)
      | .ok val => (resize (if hasMinus then -val else val) type).map (·, none)

end ParserImpl

inductive Radix
  | binary | octal | decimal | hexadecimal
deriving DecidableEq, Repr

namespace Radix

def prefixText : Radix → List Char
  | .binary => ['0', 'b']
  | .octal => ['0', 'o']
  | .decimal => []
  | .hexadecimal => ['0', 'x']

def value : Radix → Nat
  | .binary => 2
  | .octal => 8
  | .decimal => 10
  | .hexadecimal => 16

def bits : Radix → Nat
  | .binary => 1
  | .octal => 3
  | .decimal => 4
  | .hexadecimal => 4

theorem value_le_two_pow_bits (r : Radix) : r.value ≤ 2 ^ r.bits := by cases r <;> decide

theorem bits_pos (r : Radix) : 0 < r.bits := by cases r <;> decide

end Radix

inductive Sign
  | none | plus | minus
deriving DecidableEq, Repr

def Sign.text : Sign → List Char
  | .none => []
  | .plus => ['+']
  | .minus => ['-']

def Radix.IsDigit (r : Radix) (c : Char) : Prop := c = '_' ∨ ∃ d, ParserImpl.digitOf c = some d ∧ d < r.value

/-- A number as it is written: a sign, the radix and the digits with underscores, of which a decimal number does not
begin with one. -/
structure NumberText where
  sign : Sign
  radix : Radix
  digits : List Char
  digits_ne_nil : digits ≠ []
  isDigit : ∀ c ∈ digits, radix.IsDigit c
  first : radix = .decimal → ∀ c ∈ digits.head?, Lexer.isdigit c = true

namespace NumberText

def text (n : NumberText) : List Char := n.sign.text ++ (n.radix.prefixText ++ n.digits)

def digitsValue (radix : Nat) : List Char → Nat → Nat
  | [], v => v
  | c :: digits, v =>
    if c = '_' then digitsValue radix digits v
    else digitsValue radix digits (v * radix + (ParserImpl.digitOf c).getD 0)

def magnitude (n : NumberText) : Nat := digitsValue n.radix.value n.digits 0

def value (n : NumberText) : Int :=
  match n.sign with
  | .minus => -(n.magnitude : Int)
  | _ => n.magnitude

def wordBits (n : NumberText) : Nat := n.radix.bits * n.digits.length % 2 ^ 32

variable {n : NumberText}

theorem splitSign_text : ParserImpl.splitSign n.text = (n.radix.prefixText ++ n.digits, decide (n.sign = .minus)) := by
  obtain ⟨sign, radix, digits, hne, hdigit, hfirst⟩ := n
  cases sign with
  | plus | minus => rfl
  | none =>
    cases radix with
    | binary | octal | hexadecimal => rfl
    | decimal =>
      obtain ⟨c, rest, rfl⟩ := List.exists_cons_of_ne_nil hne
      have hc : Lexer.isdigit c = true := hfirst rfl c rfl
      have hplus : c ≠ '+' := by
        rintro rfl
        revert hc
        decide
      have hminus : c ≠ '-' := by
        rintro rfl
        revert hc
        decide
      simp [text, Sign.text, Radix.prefixText, ParserImpl.splitSign, hplus, hminus]

theorem splitRadix_text : ParserImpl.splitRadix (n.radix.prefixText ++ n.digits) = (n.digits, n.radix.value, n.radix.bits) := by
  obtain ⟨sign, radix, digits, hne, hdigit, hfirst⟩ := n
  cases radix with
  | binary | octal | hexadecimal => rfl
  | decimal =>
    have hletter : ∀ c ∈ digits, c ≠ 'b' ∧ c ≠ 'o' ∧ c ≠ 'x' := by
      intro c hc
      refine ⟨?_, ?_, ?_⟩ <;>
      · rintro rfl
        rcases hdigit _ hc with h | ⟨d, hd, hlt⟩
        · revert h
          decide
        · obtain rfl := Option.some.inj hd
          revert hlt
          decide
    show ParserImpl.splitRadix digits = (digits, 10, 4)
    unfold ParserImpl.splitRadix
    split <;> simp_all

theorem digitsValue_lt {r : Radix} {digits : List Char} (h : ∀ c ∈ digits, r.IsDigit c) {v k : Nat} (hv : v < 2 ^ k) :
    digitsValue r.value digits v < 2 ^ (k + r.bits * digits.length) := by
  induction digits generalizing v k with
  | nil => exact hv
  | cons c digits ih =>
    have hrest : ∀ c ∈ digits, r.IsDigit c := fun d hd => h d (.tail _ hd)
    have hexp : k + r.bits * (c :: digits).length = k + r.bits + r.bits * digits.length := by
      rw [List.length_cons]
      ring
    rw [hexp]
    unfold digitsValue
    split
    · exact ih hrest (hv.trans_le (Nat.pow_le_pow_right Nat.two_pos (by omega)))
    · refine ih hrest ?_
      rename_i hne
      obtain ⟨d, hd, hlt⟩ := (h c (.head _)).resolve_left hne
      rw [hd, Option.getD_some]
      calc v * r.value + d < (v + 1) * r.value := by
            rw [Nat.add_mul, Nat.one_mul]
            omega
        _ ≤ 2 ^ k * 2 ^ r.bits := Nat.mul_le_mul hv r.value_le_two_pow_bits
        _ = 2 ^ (k + r.bits) := (Nat.pow_add _ _ _).symm

theorem accumulateDigits_eq {r : Radix} {bits : Nat} {digits : List Char} (h : ∀ c ∈ digits, r.IsDigit c) (v : Nat) :
    ParserImpl.accumulateDigits r.value digits (BitVec.ofNat bits v) =
      .ok (BitVec.ofNat bits (digitsValue r.value digits v)) := by
  induction digits generalizing v with
  | nil => rfl
  | cons c digits ih =>
    have hrest : ∀ c ∈ digits, r.IsDigit c := fun d hd => h d (.tail _ hd)
    unfold ParserImpl.accumulateDigits digitsValue
    split
    · exact ih hrest v
    · rename_i hne
      obtain ⟨d, hd, hlt⟩ := (h c (.head _)).resolve_left hne
      rw [hd]
      dsimp only
      rw [if_neg (by omega), ← BitVec.ofNat_mul, ← BitVec.ofNat_add]
      exact ih hrest _

theorem isNumberChar_of_digitOf {c : Char} {d : Nat} (h : ParserImpl.digitOf c = some d) :
    Lexer.isNumberChar c = true := by
  unfold ParserImpl.digitOf at h
  unfold Lexer.isNumberChar Lexer.isalnum Lexer.isalpha Lexer.isdigit
  split at h
  · rename_i hc
    simp [hc]
  · split at h
    · rename_i hc
      simp [hc]
    · split at h
      · rename_i hc
        simp [hc]
      · cases h

theorem exists_first (n : NumberText) : ∃ c digits, n.radix.prefixText ++ n.digits = c :: digits ∧
    Lexer.isdigit c = true ∧ ∀ d ∈ digits, Lexer.isNumberChar d = true := by
  have hnumber : ∀ d ∈ n.digits, Lexer.isNumberChar d = true := by
    intro d hd
    rcases n.isDigit d hd with rfl | ⟨v, hv, -⟩
    · decide
    · exact isNumberChar_of_digitOf hv
  obtain ⟨sign, radix, digits, hne, hdigit, hfirst⟩ := n
  cases radix with
  | decimal =>
    obtain ⟨c, rest, rfl⟩ := List.exists_cons_of_ne_nil hne
    exact ⟨c, rest, rfl, hfirst rfl c rfl, fun d hd => hnumber d (.tail _ hd)⟩
  | binary | octal | hexadecimal =>
    refine ⟨_, _, rfl, by decide, fun d hd => ?_⟩
    rcases List.mem_cons.mp hd with rfl | hd
    · decide
    · exact hnumber d hd

theorem lex_text {rest : List Char} (hrest : ∀ c ∈ rest.head?, Lexer.isNumberChar c = false) :
    Lexer.Lex (n.text ++ rest) = (⟨.number, n.text⟩, rest) := by
  obtain ⟨c, digits, hstart, hc, hdigits⟩ := exists_first n
  have hdrop : ∀ l : List Char, (∀ d ∈ l, Lexer.isNumberChar d = true) →
      (l ++ rest).dropWhile Lexer.isNumberChar = rest := by
    intro l hl
    rw [List.dropWhile_append_of_pos hl]
    cases rest with
    | nil => rfl
    | cons d rest => exact List.dropWhile_cons_of_neg (by simp [hrest d rfl])
  have hnumber : Lexer.isNumberChar c = true := by
    unfold Lexer.isNumberChar Lexer.isalnum
    simp [hc]
  have hlex : ∀ {start buffer : List Char} {l : List Char}, start = l ++ rest →
      buffer.dropWhile Lexer.isNumberChar = rest → Lexer.LexNumber start buffer = (⟨.number, l⟩, rest) := by
    rintro start buffer l rfl hbuffer
    unfold Lexer.LexNumber Lexer.SetTokenKind
    rw [hbuffer, List.length_append, Nat.add_sub_cancel, List.take_left' rfl]
  unfold text
  rw [hstart]
  cases n.sign with
  | none =>
    show Lexer.Lex (c :: (digits ++ rest)) = (⟨.number, c :: digits⟩, rest)
    unfold Lexer.Lex
    rw [Lexer.skipSpace_digit hc, Lexer.lexToken_digit hc]
    exact hlex rfl (hdrop digits hdigits)
  | plus =>
    have hskip : Lexer.skipSpace ('+' :: c :: (digits ++ rest)) = '+' :: c :: (digits ++ rest) := by
      unfold Lexer.skipSpace
      rfl
    show Lexer.lexToken (Lexer.skipSpace ('+' :: c :: (digits ++ rest))) = (⟨.number, '+' :: c :: digits⟩, rest)
    rw [hskip, Lexer.lexToken_plus hc]
    exact hlex rfl (hdrop (c :: digits) (List.forall_mem_cons.mpr ⟨hnumber, hdigits⟩))
  | minus =>
    have hskip : Lexer.skipSpace ('-' :: c :: (digits ++ rest)) = '-' :: c :: (digits ++ rest) := by
      unfold Lexer.skipSpace
      rfl
    show Lexer.lexToken (Lexer.skipSpace ('-' :: c :: (digits ++ rest))) = (⟨.number, '-' :: c :: digits⟩, rest)
    rw [hskip, Lexer.lexToken_minus hc]
    exact hlex rfl (hdrop (c :: digits) (List.forall_mem_cons.mpr ⟨hnumber, hdigits⟩))

theorem parseNumberToken_eq {tok : Token} (htext : tok.text = n.text) {w : Nat} (hw : 0 < w) (hbits : n.wordBits ≠ 0) :
    ParserImpl.ParseNumberToken w tok = some (⟨w, (BitVec.ofInt n.wordBits n.value).setWidth w⟩, none) := by
  have hempty : n.digits.isEmpty = false := by
    rw [List.isEmpty_eq_false_iff]
    exact n.digits_ne_nil
  have hzero : (0 : BitVec (n.radix.bits * n.digits.length % 2 ^ 32)) = BitVec.ofNat _ 0 := rfl
  unfold ParserImpl.ParseNumberToken
  rw [htext, splitSign_text]
  dsimp only
  rw [splitRadix_text]
  dsimp only
  have hbits' : n.radix.bits * n.digits.length % 2 ^ 32 ≠ 0 := hbits
  rw [if_neg (by simp [hempty]), if_neg hbits', hzero, accumulateDigits_eq n.isDigit]
  dsimp only
  have hvalue : (if decide (n.sign = .minus) = true then -BitVec.ofNat n.wordBits n.magnitude
      else BitVec.ofNat n.wordBits n.magnitude) = BitVec.ofInt n.wordBits n.value := by
    unfold value
    cases n.sign with
    | minus =>
      rw [BitVec.ofInt_neg]
      rfl
    | none | plus => rfl
  show (ParserImpl.resize (if decide (n.sign = .minus) = true then -BitVec.ofNat n.wordBits n.magnitude
      else BitVec.ofNat n.wordBits n.magnitude) w).map _ = _
  rw [hvalue]
  unfold ParserImpl.resize
  rw [if_pos hw]
  rfl

theorem parseNumberToken_none {tok : Token} (htext : tok.text = n.text) {w : Nat} (hbits : n.wordBits = 0) :
    ParserImpl.ParseNumberToken w tok = none := by
  have hempty : n.digits.isEmpty = false := by
    rw [List.isEmpty_eq_false_iff]
    exact n.digits_ne_nil
  have hbits' : n.radix.bits * n.digits.length % 2 ^ 32 = 0 := hbits
  unfold ParserImpl.ParseNumberToken
  rw [htext, splitSign_text]
  dsimp only
  rw [splitRadix_text]
  dsimp only
  rw [if_neg (by simp [hempty]), if_pos hbits']

theorem emod_modEq_iff {v : Int} {k w : Nat} :
    v % 2 ^ k ≡ v [ZMOD 2 ^ w] ↔ w ≤ k ∨ (2 : Int) ^ (w - k) ∣ v / 2 ^ k := by
  have hsub : v - v % 2 ^ k = 2 ^ k * (v / 2 ^ k) := by
    have h := Int.mul_ediv_add_emod v (2 ^ k)
    omega
  rw [Int.modEq_iff_dvd, hsub]
  rcases Nat.lt_or_ge k w with hlt | hge
  · have hpow : (2 : Int) ^ w = 2 ^ k * 2 ^ (w - k) := by rw [← pow_add, Nat.add_sub_cancel' hlt.le]
    have hpos : (0 : Int) < 2 ^ k := by positivity
    rw [hpow, Int.mul_dvd_mul_iff_left hpos.ne']
    constructor
    · exact .inr
    · rintro (h | h)
      · omega
      · exact h
  · exact ⟨fun _ => .inl hge, fun _ => (pow_dvd_pow 2 hge).mul_right _⟩

/-- The integer is not cut, or what is cut off is congruent to nothing. -/
def FitsWord (n : NumberText) (w : Nat) : Prop := w ≤ n.wordBits ∨ (2 : Int) ^ (w - n.wordBits) ∣ n.value / 2 ^ n.wordBits

/-- The token has a constant that is congruent to the integer that is written. -/
def ParsedAs (n : NumberText) (tok : Token) (w : Nat) : Prop :=
  ∃ c, ParserImpl.ParseNumberToken w tok = some (c, none) ∧ c.width = w ∧ (c.toNat : Int) ≡ n.value [ZMOD 2 ^ w]

theorem parsedAs_iff {tok : Token} (htext : tok.text = n.text) {w : Nat} (hw : 0 < w) :
    n.ParsedAs tok w ↔ n.wordBits ≠ 0 ∧ n.FitsWord w := by
  by_cases hbits : n.wordBits = 0
  · refine ⟨?_, fun h => absurd hbits h.1⟩
    rintro ⟨c, hc, -⟩
    rw [parseNumberToken_none htext hbits] at hc
    cases hc
  · have hparse := parseNumberToken_eq htext hw hbits
    have hnat : (((BitVec.ofInt n.wordBits n.value).setWidth w).toNat : Int) ≡ n.value % 2 ^ n.wordBits [ZMOD 2 ^ w] := by
      rw [BitVec.toNat_setWidth, BitVec.toNat_ofInt]
      push_cast
      rw [Int.toNat_of_nonneg (Int.emod_nonneg _ (by positivity))]
      exact Int.mod_modEq _ _
    have hiff := emod_modEq_iff (v := n.value) (k := n.wordBits) (w := w)
    constructor
    · rintro ⟨c, hc, -, hcong⟩
      rw [hparse] at hc
      obtain rfl := (Prod.mk.inj (Option.some.inj hc)).1
      exact ⟨hbits, hiff.mp (hnat.symm.trans hcong)⟩
    · rintro ⟨-, hfits⟩
      exact ⟨_, hparse, rfl, hnat.trans (hiff.mpr hfits)⟩

theorem wordBits_eq (h : n.radix.bits * n.digits.length < 2 ^ 32) : n.wordBits = n.radix.bits * n.digits.length :=
  Nat.mod_eq_of_lt h

theorem length_digits_pos : 0 < n.digits.length := List.length_pos_iff.mpr n.digits_ne_nil

theorem magnitude_lt : n.magnitude < 2 ^ (n.radix.bits * n.digits.length) := by
  have h := digitsValue_lt n.isDigit (show 0 < 2 ^ 0 by decide)
  rwa [Nat.zero_add] at h

theorem fitsWord_iff {w : Nat} (h : n.radix.bits * n.digits.length < 2 ^ 32) :
    n.FitsWord w ↔ w ≤ n.radix.bits * n.digits.length ∨ 0 ≤ n.value := by
  unfold FitsWord
  rw [wordBits_eq h]
  have hlt : (n.magnitude : Int) < 2 ^ (n.radix.bits * n.digits.length) := by exact_mod_cast n.magnitude_lt
  have hpos : (0 : Int) < 2 ^ (n.radix.bits * n.digits.length) := by positivity
  have hbound : -2 ^ (n.radix.bits * n.digits.length) ≤ n.value ∧ n.value < 2 ^ (n.radix.bits * n.digits.length) := by
    unfold value
    split <;> omega
  rcases Nat.lt_or_ge (n.radix.bits * n.digits.length) w with hw | hw
  · rcases lt_or_ge n.value 0 with hneg | hnonneg
    · have hdiv : n.value / 2 ^ (n.radix.bits * n.digits.length) = -1 := by
        refine Int.ediv_eq_neg_one_of_neg_of_le hneg ?_
        omega
      have hone : ¬(2 : Int) ^ (w - n.radix.bits * n.digits.length) ∣ -1 := by
        rw [Int.dvd_neg]
        intro hdvd
        have hle := Int.le_of_dvd (by decide) hdvd
        have htwo : (2 : Int) ^ 1 ≤ 2 ^ (w - n.radix.bits * n.digits.length) :=
          pow_le_pow_right₀ (by decide) (by omega)
        omega
      rw [hdiv]
      constructor
      · rintro (hle | hdvd)
        · omega
        · exact absurd hdvd hone
      · rintro (hle | hge) <;> omega
    · have hdiv : n.value / 2 ^ (n.radix.bits * n.digits.length) = 0 := Int.ediv_eq_zero_of_lt hnonneg hbound.2
      rw [hdiv]
      exact ⟨fun _ => .inr hnonneg, fun _ => .inr (dvd_zero _)⟩
  · exact ⟨fun _ => .inl hw, fun _ => .inl hw⟩

/-- The constant of a number token is congruent to what is written exactly if nothing is lost in the word of the
digits; if the bits of all digits are an unsigned number, that is if the type has no more bits than the digits or the
number is not negative. -/
theorem parseNumberToken_congruent_iff (n : NumberText) {tok : Token} (htext : tok.text = n.text) {w : Nat}
    (hw : 0 < w) :
    (n.ParsedAs tok w ↔ n.wordBits ≠ 0 ∧ n.FitsWord w) ∧
      (n.radix.bits * n.digits.length < 2 ^ 32 →
        (n.ParsedAs tok w ↔ w ≤ n.radix.bits * n.digits.length ∨ 0 ≤ n.value)) := by
  refine ⟨parsedAs_iff htext hw, fun hshort => (parsedAs_iff htext hw).trans ?_⟩
  have hpos : 0 < n.radix.bits * n.digits.length := Nat.mul_pos n.radix.bits_pos n.length_digits_pos
  have hbits : n.wordBits ≠ 0 := by
    rw [wordBits_eq hshort]
    omega
  rw [fitsWord_iff hshort]
  exact and_iff_right hbits

def minusOne : NumberText where
  sign := .minus
  radix := .decimal
  digits := ['1']
  digits_ne_nil := by decide
  isDigit := by
    intro c hc
    obtain rfl := List.mem_singleton.mp hc
    exact .inr ⟨1, rfl, by decide⟩
  first := by
    rintro - c hc
    obtain rfl := Option.some.inj hc
    decide

/-- The number `-1` in four bits. -/
theorem parseNumberToken_congruent_minusOne : minusOne.ParsedAs ⟨.number, ['-', '1']⟩ 4 :=
  ((parseNumberToken_congruent_iff minusOne (show (Token.mk .number ['-', '1']).text = minusOne.text from rfl)
    (by decide)).2 (by decide)).mpr (.inl (by decide))

/-- The number `-1` in eight bits is 15. -/
theorem parseNumberToken_minusOne_byte :
    (Lexer.Lex ['-', '1']).1 = ⟨.number, minusOne.text⟩ ∧ minusOne.value = -1 ∧
      ParserImpl.ParseNumberToken 8 ⟨.number, minusOne.text⟩ = some (.ofNat 8 15, none) ∧
      ¬minusOne.ParsedAs ⟨.number, minusOne.text⟩ 8 := by
  have hparse : ParserImpl.ParseNumberToken 8 ⟨.number, minusOne.text⟩ = some (.ofNat 8 15, none) := by decide
  refine ⟨?_, rfl, hparse, ?_⟩
  · have hlex : Lexer.Lex (minusOne.text ++ []) = (⟨.number, minusOne.text⟩, []) := lex_text nofun
    rw [List.append_nil] at hlex
    exact congrArg Prod.fst hlex
  · rintro ⟨c, hc, -, hcong⟩
    rw [hparse] at hc
    obtain rfl := (Prod.mk.inj (Option.some.inj hc)).1
    revert hcong
    decide

end NumberText

end CgsKlee
