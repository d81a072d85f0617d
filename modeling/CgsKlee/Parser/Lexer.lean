import Mathlib.Data.List.TakeWhile
import Mathlib.Data.List.Basic

/-!
# Tokens of the query language

`Lexer::Lex` skips blanks and takes the longest token that starts at the next character.  The text is a list of
characters, each of them a byte; the end of the text is `none`, and so is the byte that is `-1` as a signed character.
-/

namespace CgsKlee

inductive TokenKind
  | at | arrow | colon | comma | comment | endOfFile | equals | identifier | kwArray | kwFalse | kwQuery | kwReserved
  | kwSymbolic | kwTrue | kwWidth | lBrace | lParen | lSquare | number | rBrace | rParen | rSquare | semicolon | unknown
deriving DecidableEq, Repr

def TokenKind.isKeyword : TokenKind → Bool
  | .kwArray | .kwFalse | .kwQuery | .kwReserved | .kwSymbolic | .kwTrue | .kwWidth => true
  | _ => false

/-- `Token`: its kind and the string it spans. -/
structure Token where
  kind : TokenKind
  text : List Char
deriving DecidableEq, Repr

namespace Lexer

def isspace (c : Char) : Bool := c = ' ' || ('\t' ≤ c && c ≤ '\r')

def isdigit (c : Char) : Bool := '0' ≤ c && c ≤ '9'

def isalpha (c : Char) : Bool := ('a' ≤ c && c ≤ 'z') || ('A' ≤ c && c ≤ 'Z')

def isalnum (c : Char) : Bool := isalpha c || isdigit c

def isInternalIdentifierChar (c : Char) : Bool := isalnum c || c = '_' || c = '.' || c = '-'

def isNumberChar (c : Char) : Bool := isalnum c || c = '_'

/-- A character as a number, with its sign. -/
def charInt (c : Char) : Option Char := if c = '\xff' then none else some c

def PeekNextChar : List Char → Option Char
  | [] => none
  | c :: _ => charInt c

def GetNextChar : List Char → Option Char × List Char
  | [] => (none, [])
  | c :: buffer =>
    if c = '\n' ∨ c = '\r' then
      match buffer with
      | d :: rest => (some '\n', if d.toNat + c.toNat = '\n'.toNat + '\r'.toNat then rest else d :: rest)
      | [] => (some '\n', [])
    else (charInt c, buffer)

theorem length_GetNextChar_lt (c : Char) (buffer : List Char) :
    (GetNextChar (c :: buffer)).2.length < (c :: buffer).length := by
  by_cases h : c = '\n' ∨ c = '\r'
  · cases buffer with
    | nil => simp [GetNextChar, h]
    | cons d rest =>
      simp only [GetNextChar, if_pos h, List.length_cons]
      split
      · omega
      · simp
  · simp [GetNextChar, h]

theorem length_GetNextChar_le (buffer : List Char) : (GetNextChar buffer).2.length ≤ buffer.length := by
  cases buffer with
  | nil => exact le_rfl
  | cons c rest => exact (length_GetNextChar_lt c rest).le

def isReservedKW (str : List Char) : Bool :=
  match str with
  | 'i' :: c :: rest => (c :: rest).all isdigit
  | 'f' :: 'p' :: c :: rest =>
    -- after the first digit, digits up to the end or to a period
    !rest.isEmpty && isdigit c && ((rest.dropWhile isdigit).head?.all (· = '.'))
  | _ => false

def isWidthKW (str : List Char) : Bool :=
  match str with
  | 'w' :: c :: rest => (c :: rest).all isdigit
  | _ => false

def identifierKind (str : List Char) : TokenKind :=
  if str = "def".toList ∨ str = "var".toList then .kwReserved
  else if str = "true".toList then .kwTrue
  else if str = "array".toList then .kwArray
  else if str = "false".toList then .kwFalse
  else if str = "query".toList then .kwQuery
  else if str = "define".toList ∨ str = "declare".toList then .kwReserved
  else if str = "symbolic".toList then .kwSymbolic
  else if isReservedKW str then .kwReserved
  else if isWidthKW str then .kwWidth
  else .identifier

def SkipToEndOfLine (buffer : List Char) : List Char :=
  match buffer with
  | [] => []
  | c :: rest =>
    let next := GetNextChar (c :: rest)
    if next.1 = none ∨ next.1 = some '\n' then next.2 else SkipToEndOfLine next.2
termination_by buffer.length
decreasing_by exact length_GetNextChar_lt c rest

/-- The loop of `Lexer::Lex` over blanks. -/
def skipSpace (buffer : List Char) : List Char :=
  match buffer with
  | [] => []
  | c :: rest => if isspace c then skipSpace (GetNextChar (c :: rest)).2 else c :: rest
termination_by buffer.length
decreasing_by exact length_GetNextChar_lt c rest

/-- `Lexer::SetTokenKind`: the token that begins at `start` and ends before `buffer`. -/
def SetTokenKind (start : List Char) (k : TokenKind) (buffer : List Char) : Token × List Char :=
  (⟨k, start.take (start.length - buffer.length)⟩, buffer)

def LexNumber (start buffer : List Char) : Token × List Char :=
  SetTokenKind start .number (buffer.dropWhile isNumberChar)

def LexIdentifier (start buffer : List Char) : Token × List Char :=
  let buffer := buffer.dropWhile isInternalIdentifierChar
  SetTokenKind start (identifierKind (start.take (start.length - buffer.length))) buffer

def lexToken (start : List Char) : Token × List Char :=
  let (char, buffer) := GetNextChar start
  match char with
  | none => SetTokenKind start .endOfFile buffer
  | some '(' => SetTokenKind start .lParen buffer
  | some ')' => SetTokenKind start .rParen buffer
  | some ',' => SetTokenKind start .comma buffer
  | some ':' => SetTokenKind start .colon buffer
  | some ';' => SetTokenKind start .semicolon buffer
  | some '=' => SetTokenKind start .equals buffer
  | some '@' => SetTokenKind start .at buffer
  | some '[' => SetTokenKind start .lSquare buffer
  | some ']' => SetTokenKind start .rSquare buffer
  | some '\x7b' => SetTokenKind start .lBrace buffer
  | some '\x7d' => SetTokenKind start .rBrace buffer
  | some '#' => SetTokenKind start .comment (SkipToEndOfLine buffer)
  | some '+' =>
    if (PeekNextChar buffer).any isdigit then LexNumber start buffer else SetTokenKind start .unknown buffer
  | some '-' =>
    if PeekNextChar buffer = some '>' then SetTokenKind start .arrow (GetNextChar buffer).2
    else if (PeekNextChar buffer).any isdigit then LexNumber start buffer
    else SetTokenKind start .unknown buffer
  | some c =>
    if isdigit c then LexNumber start buffer
    else if isalpha c || c = '_' then LexIdentifier start buffer
    else SetTokenKind start .unknown buffer

def Lex (buffer : List Char) : Token × List Char := lexToken (skipSpace buffer)

section Digits

variable {c : Char} (hc : isdigit c = true)

include hc

theorem charInt_digit : charInt c = some c := by
  refine if_neg ?_
  rintro rfl
  revert hc
  decide

theorem GetNextChar_digit (buffer : List Char) : GetNextChar (c :: buffer) = (some c, buffer) := by
  have hline : ¬(c = '\n' ∨ c = '\r') := by
    rintro (rfl | rfl) <;>
    · revert hc
      decide
  unfold GetNextChar
  dsimp only
  rw [if_neg hline, charInt_digit hc]

theorem skipSpace_digit (buffer : List Char) : skipSpace (c :: buffer) = c :: buffer := by
  have hspace : isspace c = false := by
    unfold isdigit at hc
    unfold isspace
    simp only [Bool.and_eq_true, decide_eq_true_eq, Char.le_def, UInt32.le_iff_toNat_le] at hc
    simp only [Bool.or_eq_false_iff, Bool.and_eq_false_iff, decide_eq_false_iff_not, Char.le_def,
      UInt32.le_iff_toNat_le]
    have hzero : ('0' : Char).val.toNat = 48 := rfl
    have hreturn : ('\r' : Char).val.toNat = 13 := rfl
    refine ⟨?_, .inr (by omega)⟩
    rintro rfl
    exact absurd hc.1 (by decide)
  unfold skipSpace
  rw [if_neg (by simp [hspace])]

theorem PeekNextChar_digit (buffer : List Char) : PeekNextChar (c :: buffer) = some c := charInt_digit hc

theorem lexToken_digit (buffer : List Char) : lexToken (c :: buffer) = LexNumber (c :: buffer) buffer := by
  unfold lexToken
  rw [GetNextChar_digit hc]
  dsimp only
  split
  case h_16 =>
    rename_i d h
    obtain rfl := Option.some.inj h
    rw [if_pos hc]
  all_goals
    rename_i h
    first
    | cases h
      done
    | obtain rfl := Option.some.inj h
      exact absurd hc (by decide)

theorem lexToken_plus (buffer : List Char) :
    lexToken ('+' :: c :: buffer) = LexNumber ('+' :: c :: buffer) (c :: buffer) := by
  have hpeek : (PeekNextChar (c :: buffer)).any isdigit = true := by
    rw [PeekNextChar_digit hc]
    exact hc
  exact if_pos hpeek

theorem lexToken_minus (buffer : List Char) :
    lexToken ('-' :: c :: buffer) = LexNumber ('-' :: c :: buffer) (c :: buffer) := by
  have hpeek : (PeekNextChar (c :: buffer)).any isdigit = true := by
    rw [PeekNextChar_digit hc]
    exact hc
  have hgreater : PeekNextChar (c :: buffer) ≠ some '>' := by
    rw [PeekNextChar_digit hc]
    intro h
    obtain rfl := Option.some.inj h
    exact absurd hc (by decide)
  exact (if_neg hgreater).trans (if_pos hpeek)

end Digits

end Lexer

end CgsKlee
