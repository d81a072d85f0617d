import CgsKlee.Expr.Create
import CgsKlee.Lib.StepMonad
import CgsKlee.Parser.NumberToken

/-!
# Tokens and tables of the parser

`ParserImpl` looks at one token at a time and counts the open parentheses and brackets; comments are passed over.  After
an error it skips to the parenthesis or bracket that closes the current level, or to the end.  It is a `StepM` program.
Its steps are those for which it relies on what it has not looked at: a token taken for a number or a type, or the
operands of an operation.

An identifier is its name, the diagnostics are the messages with the tokens that they are about, and the tables are lists
in which each name occurs once.
-/

namespace CgsKlee

namespace Lexer

theorem length_skipSpace_le (buffer : List Char) : (skipSpace buffer).length ≤ buffer.length := by
  fun_induction skipSpace buffer with
  | case1 => exact le_rfl
  | case2 c rest _ ih => exact ih.trans (length_GetNextChar_lt c rest).le
  | case3 c rest _ => exact le_rfl

theorem length_SkipToEndOfLine_le (buffer : List Char) : (SkipToEndOfLine buffer).length ≤ buffer.length := by
  fun_induction SkipToEndOfLine buffer with
  | case1 => exact le_rfl
  | case2 c rest next _ => exact (length_GetNextChar_lt c rest).le
  | case3 c rest next _ ih => exact ih.trans (length_GetNextChar_lt c rest).le

theorem length_dropWhile_le {α : Type} (p : α → Bool) (l : List α) : (l.dropWhile p).length ≤ l.length :=
  (List.dropWhile_suffix p).length_le

theorem length_lexToken_le (start : List Char) : (lexToken start).2.length ≤ (GetNextChar start).2.length := by
  unfold lexToken LexNumber LexIdentifier SetTokenKind
  generalize GetNextChar start = next
  obtain ⟨char, buffer⟩ := next
  dsimp only
  split
  case h_13 => exact length_SkipToEndOfLine_le buffer
  case h_14 =>
    split
    · exact length_dropWhile_le _ _
    · exact le_rfl
  case h_15 =>
    split
    · exact length_GetNextChar_le buffer
    · split
      · exact length_dropWhile_le _ _
      · exact le_rfl
  case h_16 =>
    split
    · exact length_dropWhile_le _ _
    · split
      · exact length_dropWhile_le _ _
      · exact le_rfl
  all_goals exact le_rfl

theorem length_Lex_lt {buffer : List Char} (h : skipSpace buffer ≠ []) : (Lex buffer).2.length < buffer.length := by
  obtain ⟨c, rest, hc⟩ := List.exists_cons_of_ne_nil h
  have hle := length_skipSpace_le buffer
  have hlex := length_lexToken_le (skipSpace buffer)
  have hnext := length_GetNextChar_lt c rest
  rw [hc] at hle hlex
  unfold Lex
  rw [hc]
  omega

/-- The tokens that calls of `Lex` give up to the end of the text. -/
def tokens (buffer : List Char) : List Token :=
  if skipSpace buffer = [] then [] else (Lex buffer).1 :: tokens (Lex buffer).2
termination_by buffer.length
decreasing_by exact length_Lex_lt ‹_›

end Lexer

def TokenKind.isBracket : TokenKind → Bool
  | .lParen | .rParen | .lSquare | .rSquare => true
  | _ => false

namespace ParserImpl

open StepM

/-- The arrays that the parser creates: bytes with indices of 32 bits. -/
abbrev ParsedArray := {a : ExprArray // a.domain = 32 ∧ a.range = 8}

structure VersionHandle where
  root : ParsedArray
  head : UpdateNode
deriving DecidableEq

def getWidth (e : Expr) : Nat := e.width % 2 ^ 32

/-- `UpdateList::extend`, which asserts that the update fits the array. -/
def VersionHandle.extend (u : VersionHandle) (index value : Expr) : Option VersionHandle :=
  if u.root.1.domain = getWidth index ∧ u.root.1.range = getWidth value then some ⟨u.root, .cons index value u.head⟩
  else none

structure ArrayDecl where
  Name : List Char
  Domain : Nat
  Range : Nat
  Root : ParsedArray
deriving DecidableEq

inductive Decl
  | array (decl : ArrayDecl)
  | query (Constraints : List Expr) (Query : Expr) (Values : List Expr) (Objects : List ParsedArray)
deriving DecidableEq

/-- The state of `ParserImpl`.  The first of the tokens is the current one; at the end there is no token left. -/
structure ParserState where
  tokens : List Token
  ParenLevel : Nat := 0
  SquareLevel : Nat := 0
  errors : List (String × Token) := []
  ArraySymTab : List (List Char × ArrayDecl) := []
  ExprSymTab : List (List Char × Expr) := []
  VersionSymTab : List (List Char × VersionHandle) := []
  /-- `TheArrayCache`: all arrays with their names. -/
  arrays : List (List Char × ParsedArray) := []

/-- What the parser does without having looked at whether it may. -/
inductive ParserStep
  /-- `ParseNumber` of this token. -/
  | expectNumber (tok : Token)
  /-- `ParseNumberToken`. -/
  | numberToken (type : Nat) (tok : Token)
  /-- `ParseTypeSpecifier` at this token. -/
  | typeSpecifier (tok : Token)
  /-- `ConsumeToken` of an unexpected token. -/
  | skipToken (tok : Token)
  /-- `Builder->Constant` of this width. -/
  | constant (w : Nat)
  /-- The call of the builder that the plain node stands for. -/
  | build (node : Expr)
  /-- `AddExpr::create`. -/
  | add (left right : Expr)
  /-- `ConcatExpr::createN`. -/
  | concat (kids : List Expr)
  /-- `ArrayCache::CreateArray`. -/
  | createArray (size : Nat) (values : List APInt)
deriving DecidableEq

abbrev ParserM := StepM ParserState ParserStep

namespace ParserState

def Tok (s : ParserState) : Token := s.tokens.headD ⟨.endOfFile, []⟩

def remaining (s : ParserState) : Nat := s.tokens.length

/-- `Lexer::Lex` into `Tok`, until it is no comment. -/
def next (s : ParserState) : ParserState := { s with tokens := s.tokens.tail.dropWhile (·.kind = .comment) }

/-- The token is consumed, with the levels of parentheses and brackets. -/
def consume (s : ParserState) : ParserState :=
  match s.Tok.kind with
  | .lParen => { s with ParenLevel := s.ParenLevel + 1 }.next
  | .rParen => { s with ParenLevel := s.ParenLevel - 1 }.next
  | .lSquare => { s with SquareLevel := s.SquareLevel + 1 }.next
  | .rSquare => { s with SquareLevel := s.SquareLevel - 1 }.next
  | _ => s.next

end ParserState

def Initialize (tokens : List Token) : ParserState where
  tokens := tokens.dropWhile (·.kind = .comment)

def Tok : ParserM Token := do return (← get).Tok

def GetNextNonCommentToken : ParserM Unit := modify ParserState.next

def Error (Message : String) (At : Token) : ParserM Unit :=
  modify fun s => { s with errors := s.errors ++ [(Message, At)] }

def GetOrCreateIdentifier (tok : Token) : ParserM (List Char) := do
  assert (tok.kind = .identifier)
  return tok.text

def ConsumeToken : ParserM Unit := do
  let tok ← Tok
  assert (tok.kind.isBracket = false)
  GetNextNonCommentToken

def _ConsumeExpectedToken (k : TokenKind) : ParserM Unit := do
  let tok ← Tok
  assert (tok.kind = k)
  GetNextNonCommentToken

def ConsumeExpectedToken (k : TokenKind) : ParserM Unit := do
  let tok ← Tok
  assert (tok.kind.isBracket = false)
  _ConsumeExpectedToken k

def ConsumeLParen : ParserM Unit := do
  modify fun s => { s with ParenLevel := s.ParenLevel + 1 }
  _ConsumeExpectedToken .lParen

def ConsumeRParen : ParserM Unit := do
  modify fun s => { s with ParenLevel := s.ParenLevel - 1 }
  _ConsumeExpectedToken .rParen

def ConsumeLSquare : ParserM Unit := do
  modify fun s => { s with SquareLevel := s.SquareLevel + 1 }
  _ConsumeExpectedToken .lSquare

def ConsumeRSquare : ParserM Unit := do
  modify fun s => { s with SquareLevel := s.SquareLevel - 1 }
  _ConsumeExpectedToken .rSquare

def ConsumeAnyToken : ParserM Unit := do
  let tok ← Tok
  match tok.kind with
  | .lParen => ConsumeLParen
  | .rParen => ConsumeRParen
  | .lSquare => ConsumeLSquare
  | .rSquare => ConsumeRSquare
  | _ => ConsumeToken

/-- The loop of `SkipUntilRParen` and `SkipUntilRSquare`, to a number of tokens. -/
def skipUntil (k : TokenKind) (Level : Nat) : Nat → ParserM Unit
  | 0 => fail
  | n + 1 => do
    let s ← get
    if s.Tok.kind = .endOfFile then return ()
    else if s.Tok.kind = k ∧ s.ParenLevel = Level then ConsumeAnyToken
    else do
      ConsumeAnyToken
      skipUntil k Level n

/-- Skip to the next token after one of this kind at the current level of parentheses, or to the end. -/
def skipToLevel (k : TokenKind) : ParserM Unit := do
  let s ← get
  skipUntil k s.ParenLevel (s.remaining + 1)

def SkipUntilRParen : ParserM Unit := skipToLevel .rParen

/-- The level is that of parentheses here, too. -/
def SkipUntilRSquare : ParserM Unit := skipToLevel .rSquare

def expectClose (k : TokenKind) (atEnd Msg : String) : ParserM Unit := do
  let tok ← Tok
  if tok.kind = .endOfFile then Error atEnd tok
  else if tok.kind = k then ConsumeAnyToken
  else do
    Error Msg tok
    skipToLevel k

def ExpectRParen (Msg : String) : ParserM Unit := expectClose .rParen "expected ')' but found end-of-file." Msg

def ExpectRSquare (Msg : String) : ParserM Unit := expectClose .rSquare "expected ']' but found end-of-file." Msg

/-- `ArrayCache::CreateArray`: a symbolic array is created once for each name and size.  The constructor asserts that the
values are bytes and fill the array. -/
def createArray (arrays : List (List Char × ParsedArray)) (name : List Char) (size : Nat) (values : List APInt) :
    Option (ParsedArray × List (List Char × ParsedArray)) :=
  let array : ParsedArray :=
    ⟨{ id := arrays.length, size := size % 2 ^ 32, domain := 32, range := 8,
       constantValues := values.map fun v => v.value.setWidth 8 }, rfl, rfl⟩
  if values = [] then
    match arrays.find? fun a => a.1 = name ∧ a.2.1.isSymbolicArray ∧ a.2.1.size = size % 2 ^ 32 with
    | some a => some (a.2, arrays)
    | none => some (array, arrays ++ [(name, array)])
  else if values.length = size % 2 ^ 32 ∧ ∀ v ∈ values, v.width = 8 then some (array, arrays ++ [(name, array)])
  else none

def CreateArray (name : List Char) (size : Nat) (values : List APInt) : ParserM ParsedArray := do
  let s ← get
  let r ← call (.createArray size values) (createArray s.arrays name size values)
  modify fun s => { s with arrays := r.2 }
  return r.1

/-- `std::map::insert`: an entry that exists stays. -/
def insertNew {β : Type} (key : List Char) (value : β) (table : List (List Char × β)) : List (List Char × β) :=
  if (table.lookup key).isSome then table else (key, value) :: table

end ParserImpl

end CgsKlee
