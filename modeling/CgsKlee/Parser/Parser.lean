import CgsKlee.Parser.ParserState

/-!
# Productions of the parser

The productions of `ParserImpl`.  A result that the code marks as not valid is `none`.  `ParseExpr` and
`ParseVersionSpecifier` call each other through the other productions, which have them as parameters; both are followed
to a depth that is enough for the tokens that are left.  `Builder` is a call of the builder for the plain node that it
stands for, `constArrayOpt` the option of the constructors, and `ClearArrayAfterQuery` that of the parser.
-/

namespace CgsKlee

namespace ParserImpl

open StepM

def constant (value w : Nat) : ParserM Expr := do
  return .constant (← call (.constant w) (Constant value w))

def parseNumberToken (type : Nat) (tok : Token) : ParserM APInt := do
  let r ← call (.numberToken type tok) (ParseNumberToken type tok)
  match r.2 with
  | some Message => do
    Error Message tok
    return r.1
  | none => return r.1

/-- `ParseNumber`.  The result is always a constant. -/
def ParseNumber (type : Nat) : ParserM APInt := do
  let tok ← Tok
  let Res ← parseNumberToken type tok
  check (.expectNumber tok) (tok.kind = .number)
  ConsumeExpectedToken .number
  return Res

def ParseIntegerConstant (type : Nat) : ParserM Nat := do
  let Res ← ParseNumber type
  -- getZExtValue
  assert (Res.width ≤ type)
  return Res.toNat

/-- `atoi` of digits as an unsigned number; a number of 64 bits and a sign is the largest that it reads. -/
def atoi (digits : List Char) : Nat :=
  min (digits.foldl (fun n c => 10 * n + (c.toNat - '0'.toNat)) 0) (2 ^ 63 - 1) % 2 ^ 32

def ParseTypeSpecifier : ParserM Nat := do
  let tok ← Tok
  check (.typeSpecifier tok) (tok.kind = .kwWidth)
  ConsumeToken
  return atoi (tok.text.drop 1)

inductive UnaryKind
  | not
  | cast (kind : CastKind)

def UnaryKind.node (Kind : UnaryKind) (e : Expr) (ResTy : Nat) : Expr :=
  match Kind with
  | .not => .not e
  | .cast kind => .cast kind e ResTy

/-- The kinds with two arguments. -/
inductive PairKind
  | binary (kind : BinaryKind)
  | cmp (kind : CmpKind)

def PairKind.node (Kind : PairKind) (l r : Expr) : Expr :=
  match Kind with
  | .binary kind => .binary kind l r
  | .cmp kind => .cmp kind l r

inductive ReadKind
  | read | readLSB | readMSB
deriving DecidableEq

/-- The kinds of expressions and macros, with what the number of arguments says about how they are parsed. -/
inductive ParenKind
  | unary (Kind : UnaryKind)
  | pair (Kind : PairKind)
  | select
  | concat
  | extract
  | anyRead (Kind : ReadKind)

/-- The names that `LookupExprInfo` knows, the kinds, and whether the arguments have the width of the result. -/
def exprInfos : List (String × ParenKind × Bool) :=
  [("Eq", .pair (.cmp .eq), false), ("Ne", .pair (.cmp .ne), false), ("Or", .pair (.binary .or), true),
   ("Add", .pair (.binary .add), true), ("Sub", .pair (.binary .sub), true), ("Mul", .pair (.binary .mul), true),
   ("Not", .unary .not, true), ("And", .pair (.binary .and), true), ("Shl", .pair (.binary .shl), true),
   ("Xor", .pair (.binary .xor), true), ("Ult", .pair (.cmp .ult), false), ("Ule", .pair (.cmp .ule), false),
   ("Ugt", .pair (.cmp .ugt), false), ("Uge", .pair (.cmp .uge), false), ("Slt", .pair (.cmp .slt), false),
   ("Sle", .pair (.cmp .sle), false), ("Sgt", .pair (.cmp .sgt), false), ("Sge", .pair (.cmp .sge), false),
   ("Read", .anyRead .read, true), ("AShr", .pair (.binary .ashr), true), ("LShr", .pair (.binary .lshr), true),
   ("UDiv", .pair (.binary .udiv), true), ("SDiv", .pair (.binary .sdiv), true),
   ("URem", .pair (.binary .urem), true), ("SRem", .pair (.binary .srem), true),
   ("SExt", .unary (.cast .sext), false), ("ZExt", .unary (.cast .zext), false), ("Concat", .concat, false),
   ("Select", .select, false), ("Extract", .extract, false), ("ReadLSB", .anyRead .readLSB, true),
   ("ReadMSB", .anyRead .readMSB, true)]

def LookupExprInfo (tok : Token) : ParserM (Option (ParenKind × Bool)) := do
  assert (tok.kind = .identifier)
  return (exprInfos.find? fun info => info.1.toList = tok.text).map (·.2)

inductive NumberOrExprResult
  | number (tok : Token)
  | expr (Res : Option Expr)

def createN : List Expr → Option Expr
  -- assert: n_kids > 0
  | [] => none
  | [kid] => some kid
  | kid :: kids => do ConcatExpr.create kid (← createN kids)

section Builder

variable (Builder : Expr → Option Expr) (constArrayOpt : Bool)

def build (node : Expr) : ParserM Expr := call (.build node) (Builder node)

def argumentOrZero (ResTy : Nat) : Option Expr → ParserM Expr
  | some e => return e
  | none => constant 0 ResTy

section Productions

variable (ParseExpr : Option Nat → ParserM (Option Expr)) (ParseVersionSpecifier : ParserM (Option VersionHandle))

def ParseNumberOrExpr : ParserM NumberOrExprResult := do
  let tok ← Tok
  if tok.kind = .number then do
    ConsumeToken
    return .number tok
  else return .expr (← ParseExpr none)

def ParseUnaryParenExpr (Name : Token) (Kind : UnaryKind) (IsFixed : Bool) (ResTy : Nat) : ParserM Expr := do
  let tok ← Tok
  if tok.kind = .rParen then do
    Error "unexpected end of arguments." Name
    ConsumeRParen
    constant 0 ResTy
  else do
    let Arg ← ParseExpr (if IsFixed then some ResTy else none)
    let E ← argumentOrZero ResTy Arg
    ExpectRParen "unexpected argument in unary expression."
    build Builder (Kind.node E ResTy)

def parseSecondArg (Name : Token) : NumberOrExprResult → ParserM (Option Expr × Option Expr)
  | .number num => do
    match ← ParseNumberOrExpr ParseExpr with
    | .number _ => do
      Error "ambiguous arguments to expression." Name
      return (none, none)
    | .expr none => return (none, none)
    | .expr (some RHS) => do
      let LHS ← parseNumberToken (getWidth RHS) num
      return (some (.constant LHS), some RHS)
  | .expr none => return (none, ← ParseExpr none)
  | .expr (some LHS) => return (some LHS, ← ParseExpr (some (getWidth LHS)))

def ParseMatchedBinaryArgs (Name : Token) (ExpectType : Option Nat) : ParserM (Option Expr × Option Expr) := do
  let tok ← Tok
  if tok.kind = .rParen then do
    Error "unexpected end of arguments." Name
    ConsumeRParen
    return (none, none)
  else
    match ExpectType with
    | some type => do
      let LHS ← ParseExpr (some type)
      let tok ← Tok
      if tok.kind = .rParen then do
        Error "unexpected end of arguments." Name
        ConsumeRParen
        return (LHS, none)
      else do
        let RHS ← ParseExpr (some type)
        ExpectRParen "unexpected argument to expression."
        return (LHS, RHS)
    | none => do
      let LHS_NOE ← ParseNumberOrExpr ParseExpr
      let tok ← Tok
      if tok.kind = .rParen then do
        Error "unexpected end of arguments." Name
        ConsumeRParen
        return (none, none)
      else do
        let args ← parseSecondArg ParseExpr Name LHS_NOE
        ExpectRParen "unexpected argument to expression."
        return args

def ParseBinaryParenExpr (Name : Token) (Kind : PairKind) (IsFixed : Bool) (ResTy : Nat) : ParserM Expr := do
  match ← ParseMatchedBinaryArgs ParseExpr Name (if IsFixed then some ResTy else none) with
  | (some LHS, some RHS) =>
    if getWidth LHS ≠ getWidth RHS then do
      Error "type widths do not match in binary expression" Name
      constant 0 ResTy
    else build Builder (Kind.node LHS RHS)
  | _ => constant 0 ResTy

def ParseSelectParenExpr (Name : Token) (ResTy : Nat) : ParserM Expr := do
  let tok ← Tok
  if tok.kind = .rParen then do
    Error "unexpected end of arguments." Name
    ConsumeRParen
    constant 0 ResTy
  else do
    let Cond ← ParseExpr (some 1)
    let args ← ParseMatchedBinaryArgs ParseExpr Name (some ResTy)
    match Cond, args with
    | some Cond, (some LHS, some RHS) => build Builder (.select Cond LHS RHS)
    | _, _ => constant 0 ResTy

/-- The loop of `ParseConcatParenExpr`, to a number of tokens; the sum of the widths is an unsigned number. -/
def parseKids : Nat → List Expr → Nat → ParserM (Option (List Expr × Nat))
  | 0, _, _ => fail
  | n + 1, Kids, Width => do
    let tok ← Tok
    if tok.kind = .rParen then return some (Kids, Width)
    else
      match ← ParseExpr none with
      | none => do
        SkipUntilRParen
        return none
      | some E => parseKids n (Kids ++ [E]) ((Width + getWidth E) % 2 ^ 32)

def ParseConcatParenExpr (ResTy : Nat) : ParserM Expr := do
  let s ← get
  match ← parseKids ParseExpr (s.remaining + 1) [] 0 with
  | none => constant 0 ResTy
  | some (Kids, Width) => do
    ConsumeRParen
    if Width ≠ ResTy then do
      Error "concat does not match expected result size." (← Tok)
      constant 0 ResTy
    else call (.concat Kids) (createN Kids)

def ParseExtractParenExpr (Name : Token) (ResTy : Nat) : ParserM Expr := do
  let Offset ← ParseIntegerConstant 32
  let Child ← ParseExpr none
  ExpectRParen "unexpected argument to expression."
  match Child with
  | none => constant 0 ResTy
  | some Child =>
    -- the sum is an unsigned number
    if getWidth Child < (Offset + ResTy) % 2 ^ 32 then do
      Error "extract out-of-range of child expression." Name
      constant 0 ResTy
    else build Builder (.extract Child Offset ResTy)

def offsetIndex (Index : Expr) (i : Nat) : ParserM Expr := do
  if i = 0 then return Index
  else do
    let offset ← constant i 32
    call (.add Index offset) (AddExpr.create constArrayOpt Index offset)

def readBytes (Array : VersionHandle) (Index : Expr) : Nat → Nat → ParserM (List Expr)
  | 0, _ => return []
  | n + 1, i => do
    let OffsetIndex ← offsetIndex constArrayOpt Index i
    let kid ← build Builder (.read Array.root Array.head OffsetIndex)
    return kid :: (← readBytes Array Index n (i + 1))

def coerce (type : Nat) : NumberOrExprResult → ParserM (Option Expr)
  | .number tok => return some (.constant (← parseNumberToken type tok))
  | .expr Res => return Res

/-- The reads of `ParseAnyReadParenExpr` at an index of 32 bits. -/
def buildReads (Name : Token) (Kind : ReadKind) (ResTy : Nat) (Array : VersionHandle) (Index : Expr) : ParserM Expr :=
  if Kind = .read then build Builder (.read Array.root Array.head Index)
  else if ResTy ≠ ResTy / 8 * 8 then do
    Error "invalid ordered read (not multiple of range type)." Name
    constant 0 ResTy
  else do
    let Kids ← readBytes Builder constArrayOpt Array Index (ResTy / 8) 0
    let Kids := if Kind = .readLSB then Kids.reverse else Kids
    call (.concat Kids) (createN Kids)

def ParseAnyReadParenExpr (Name : Token) (Kind : ReadKind) (ResTy : Nat) : ParserM Expr := do
  let Index ← ParseNumberOrExpr ParseExpr
  let Array ← ParseVersionSpecifier
  ExpectRParen "unexpected argument in read expression."
  match Array with
  | none => constant 0 ResTy
  | some Array => do
    match ← coerce 32 Index with
    | none => constant 0 ResTy
    | some IndexExpr =>
      if getWidth IndexExpr ≠ 32 then do
        Error "index width does not match array domain." (← Tok)
        constant 0 ResTy
      else buildReads Builder constArrayOpt Name Kind ResTy Array IndexExpr

/-- `ParseParenExpr` of a kind that is known. -/
def parseKind (Name : Token) (ResTy : Nat) (info : ParenKind × Bool) : ParserM Expr :=
  match info.1 with
  | .unary Kind => ParseUnaryParenExpr Builder ParseExpr Name Kind info.2 ResTy
  | .pair Kind => ParseBinaryParenExpr Builder ParseExpr Name Kind info.2 ResTy
  | .select => ParseSelectParenExpr Builder ParseExpr Name ResTy
  | .concat => ParseConcatParenExpr ParseExpr ResTy
  | .extract => ParseExtractParenExpr Builder ParseExpr Name ResTy
  | .anyRead Kind => ParseAnyReadParenExpr Builder constArrayOpt ParseExpr ParseVersionSpecifier Name Kind ResTy

/-- The coercion case of `ParseParenExpr`. -/
def parseCoercion : ParserM (Option Expr) := do
  let ExpectedType ← ParseTypeSpecifier
  let tok ← Tok
  if tok.kind ≠ .number then do
    Error "coercion can only apply to a number." tok
    SkipUntilRParen
    return none
  else do
    let Res ← ParseNumber ExpectedType
    ExpectRParen "unexpected argument in coercion."
    return some (.constant Res)

def parseResultType : ParserM Nat := do
  let tok ← Tok
  if tok.kind = .kwWidth then ParseTypeSpecifier else return 1

def ParseParenExpr : ParserM (Option Expr) := do
  let tok ← Tok
  if tok.kind ≠ .lParen then do
    Error "unexpected token." tok
    ConsumeAnyToken
    return none
  else do
    ConsumeLParen
    let Name ← Tok
    if Name.kind = .kwWidth then parseCoercion
    else if Name.kind ≠ .identifier then do
      Error "unexpected token, expected expression." Name
      SkipUntilRParen
      return none
    else do
      ConsumeToken
      let ResTy ← parseResultType
      match ← LookupExprInfo Name with
      | none => do
        Error "unknown expression kind." Name
        SkipUntilRParen
        return none
      | some info => return some (← parseKind Builder constArrayOpt ParseExpr ParseVersionSpecifier Name ResTy info)

/-- `ParseExpr` from the parenthesis on, with the label that is defined. -/
def parseLabelled (ExpectedType : Option Nat) (Label : Option (List Char)) : ParserM (Option Expr) := do
  let Start ← Tok
  match ← ParseParenExpr Builder constArrayOpt ParseExpr ParseVersionSpecifier, ExpectedType with
  | none, none => return none
  | none, some type =>
    match Label with
    | none => return none
    | some Label => do
      let Value ← constant 0 type
      modify fun s => { s with ExprSymTab := insertNew Label Value s.ExprSymTab }
      return none
  | some Res, ExpectedType =>
    if ExpectedType.any (getWidth Res ≠ ·) then do
      Error "expression has incorrect type." Start
      return none
    else
      match Label with
      | none => return some Res
      | some Label => do
        modify fun s => { s with ExprSymTab := insertNew Label Res s.ExprSymTab }
        return some Res

/-- `ParseExpr` after an identifier: a reference, or the definition of a label. -/
def parseLabel (ExpectedType : Option Nat) (LTok : Token) (Label : List Char) : ParserM (Option Expr) := do
  let s ← get
  if s.Tok.kind ≠ .colon then
    match s.ExprSymTab.lookup Label with
    | none => do
      Error "invalid expression label reference." LTok
      return none
    | some e => return some e
  else do
    ConsumeToken
    if (s.ExprSymTab.lookup Label).isSome then do
      Error "duplicate expression label definition." LTok
      parseLabelled Builder constArrayOpt ParseExpr ParseVersionSpecifier ExpectedType none
    else parseLabelled Builder constArrayOpt ParseExpr ParseVersionSpecifier ExpectedType (some Label)

def parseExprBody (ExpectedType : Option Nat) : ParserM (Option Expr) := do
  let tok ← Tok
  if tok.kind = .endOfFile then do
    Error "unexpected end of file." tok
    return none
  else if tok.kind = .kwFalse ∨ tok.kind = .kwTrue then do
    ConsumeToken
    return some (← constant (if tok.kind = .kwTrue then 1 else 0) 1)
  else if tok.kind = .number then
    match ExpectedType with
    | none => do
      Error "cannot infer type of number." tok
      ConsumeToken
      return none
    | some type => return some (.constant (← ParseNumber type))
  else if tok.kind = .identifier then do
    let Label ← GetOrCreateIdentifier tok
    ConsumeToken
    parseLabel Builder constArrayOpt ParseExpr ParseVersionSpecifier ExpectedType tok Label
  else parseLabelled Builder constArrayOpt ParseExpr ParseVersionSpecifier ExpectedType none

structure WriteInfo where
  LHS : NumberOrExprResult
  RHS : NumberOrExprResult
  LHSTok : Token
  RHSTok : Token

def parseWrites : Nat → List WriteInfo → ParserM (List WriteInfo)
  | 0, _ => fail
  | n + 1, Writes => do
    let LHSTok ← Tok
    let LHS ← ParseNumberOrExpr ParseExpr
    let tok ← Tok
    if tok.kind ≠ .equals then do
      Error "expected '='." tok
      return Writes
    else do
      ConsumeToken
      let RHSTok ← Tok
      let RHS ← ParseNumberOrExpr ParseExpr
      let tok ← Tok
      if tok.kind = .comma then do
        ConsumeToken
        parseWrites n (Writes ++ [⟨LHS, RHS, LHSTok, RHSTok⟩])
      else return Writes ++ [⟨LHS, RHS, LHSTok, RHSTok⟩]

/-- An index or a value of an update, of the width that the array has. -/
def coerceWrite (type : Nat) (Message : String) (At : Token) (operand : NumberOrExprResult) : ParserM (Option Expr) := do
  match operand, ← coerce type operand with
  | .expr _, some e =>
    if getWidth e ≠ type then do
      Error Message At
      return none
    else return some e
  | _, Res => return Res

def extendAll : List WriteInfo → VersionHandle → ParserM VersionHandle
  | [], Base => return Base
  | WI :: Writes, Base => do
    let LHS ← coerceWrite 32 "invalid write index (doesn't match array domain)." WI.LHSTok WI.LHS
    let RHS ← coerceWrite 8 "invalid write value (doesn't match array range)." WI.RHSTok WI.RHS
    match LHS, RHS with
    | some LHS, some RHS => do
      let Base ← lift (Base.extend LHS RHS)
      extendAll Writes Base
    | _, _ => extendAll Writes Base

def ParseVersion : ParserM (Option VersionHandle) := do
  let tok ← Tok
  if tok.kind ≠ .lSquare then return none
  else do
    ConsumeLSquare
    let s ← get
    let Writes ← parseWrites ParseExpr (s.remaining + 1) []
    ExpectRSquare "expected close of update list"
    let tok ← Tok
    if tok.kind ≠ .at then do
      Error "expected '@'." tok
      return none
    else do
      ConsumeExpectedToken .at
      match ← ParseVersionSpecifier with
      | none => return none
      | some Base => return some (← extendAll Writes.reverse Base)

/-- `ParseVersionSpecifier` from the bracket on.  Without a version there is an update list of an array without a name. -/
def parseLabelledVersion (Label : Option (List Char)) : ParserM (Option VersionHandle) := do
  match ← ParseVersion ParseExpr ParseVersionSpecifier with
  | none => do
    let root ← CreateArray [] 0 []
    define Label ⟨root, .nil⟩
  | some Res => define Label Res
where
  define (Label : Option (List Char)) (Res : VersionHandle) : ParserM (Option VersionHandle) := do
    match Label with
    | none => return some Res
    | some Label => do
      modify fun s => { s with VersionSymTab := insertNew Label Res s.VersionSymTab }
      return some Res

def parseVersionSpecifierBody : ParserM (Option VersionHandle) := do
  let LTok ← Tok
  if LTok.kind = .identifier then do
    let Label ← GetOrCreateIdentifier LTok
    ConsumeToken
    let s ← get
    if s.Tok.kind ≠ .colon then
      match s.VersionSymTab.lookup Label with
      | none => do
        Error "invalid version reference." LTok
        return none
      | some u => return some u
    else do
      ConsumeToken
      if (s.VersionSymTab.lookup Label).isSome then do
        Error "duplicate update list label definition." LTok
        parseLabelledVersion ParseExpr ParseVersionSpecifier none
      else parseLabelledVersion ParseExpr ParseVersionSpecifier (some Label)
  else parseLabelledVersion ParseExpr ParseVersionSpecifier none

end Productions

mutual

def parseExprBounded : Nat → Option Nat → ParserM (Option Expr)
  | 0, _ => fail
  | n + 1, ExpectedType =>
    parseExprBody Builder constArrayOpt (parseExprBounded n) (parseVersionBounded n) ExpectedType

def parseVersionBounded : Nat → ParserM (Option VersionHandle)
  | 0 => fail
  | n + 1 => parseVersionSpecifierBody (parseExprBounded n) (parseVersionBounded n)

end

def ParseExpr (ExpectedType : Option Nat) : ParserM (Option Expr) := do
  let s ← get
  parseExprBounded Builder constArrayOpt (s.remaining + 1) ExpectedType

end Builder

/-- The exit of `ParseArrayDecl`, where what is not known gets a default. -/
def declareArray (Name : Token) (Size DomainType RangeType : Option Nat) (Values : List APInt) :
    ParserM (Option Decl) := do
  let Label ← GetOrCreateIdentifier Name
  let Root ← CreateArray Label (Size.getD 1) Values
  let AD : ArrayDecl := ⟨Label, DomainType.getD 32, RangeType.getD 8, Root⟩
  modify fun s => { s with
    ArraySymTab := (Label, AD) :: s.ArraySymTab.filter (·.1 ≠ Label)
    VersionSymTab := insertNew Label ⟨Root, .nil⟩ s.VersionSymTab }
  return some (.array AD)

/-- The loop of `ParseArrayDecl` over the values, to a number of tokens: whether it came to the bracket. -/
def parseValues (RangeType : Nat) : Nat → List APInt → ParserM (Bool × List APInt)
  | 0, _ => fail
  | n + 1, Values => do
    let tok ← Tok
    if tok.kind = .rSquare then return (true, Values)
    else if tok.kind = .endOfFile then do
      Error "unexpected end of file." tok
      return (false, Values)
    else do
      let Res ← ParseNumber RangeType
      parseValues RangeType n (Values ++ [Res])

def inferSize (Size : Option Nat) (Values : List APInt) : ParserM Nat := do
  match Size with
  | some Size => return Size
  | none =>
    if Values = [] then do
      Error "unsized arrays are not yet supported." (← Tok)
      return 1
    else return Values.length

def checkValues (passes : Bool) (Message : String) (Values : List APInt) : ParserM (List APInt) := do
  if passes then return Values
  else do
    Error Message (← Tok)
    return []

def checkArrayDecl (Name : Token) (Size : Option Nat) (DomainType RangeType : Nat) (Values : List APInt) :
    ParserM (Option Decl) := do
  let Size ← inferSize Size Values
  let Values ← checkValues (Values = [] ∨ Size = Values.length) "constant arrays must be completely specified." Values
  let Values ← checkValues (DomainType = 32) "array domain must currently be w32." Values
  let Values ← checkValues (RangeType = 8) "array domain must currently be w8." Values
  declareArray Name (some Size) (some 32) (some 8) Values

def parseInitializer (Name : Token) (Size : Option Nat) (DomainType RangeType : Nat) : ParserM (Option Decl) := do
  let tok ← Tok
  if tok.kind = .kwSymbolic then do
    ConsumeExpectedToken .kwSymbolic
    checkArrayDecl Name Size DomainType RangeType []
  else if tok.kind = .lSquare then do
    ConsumeLSquare
    let s ← get
    match ← parseValues RangeType (s.remaining + 1) [] with
    | (true, Values) => do
      ConsumeRSquare
      checkArrayDecl Name Size DomainType RangeType Values
    | (false, Values) => declareArray Name Size (some DomainType) (some RangeType) Values
  else do
    Error "expected 'symbolic' or '['." tok
    declareArray Name Size (some DomainType) (some RangeType) []

def parseSize : ParserM (Option Nat) := do
  let tok ← Tok
  if tok.kind = .rSquare then return none
  else return some (← ParseIntegerConstant 64)

def parseArrayTypes (Name : Token) (Size : Option Nat) : ParserM (Option Decl) := do
  let DomainType ← ParseTypeSpecifier
  let tok ← Tok
  if tok.kind ≠ .arrow then do
    Error "expected '->'." tok
    declareArray Name Size (some DomainType) none []
  else do
    ConsumeExpectedToken .arrow
    let RangeType ← ParseTypeSpecifier
    let tok ← Tok
    if tok.kind ≠ .equals then do
      Error "expected '='." tok
      declareArray Name Size (some DomainType) (some RangeType) []
    else do
      ConsumeExpectedToken .equals
      parseInitializer Name Size DomainType RangeType

def parseArraySize (Name : Token) : ParserM (Option Decl) := do
  let tok ← Tok
  if tok.kind ≠ .lSquare then do
    Error "expected '['." tok
    declareArray Name none none none []
  else do
    ConsumeLSquare
    let Size ← parseSize
    let tok ← Tok
    if tok.kind ≠ .rSquare then do
      Error "expected ']'." tok
      declareArray Name Size none none []
    else do
      ConsumeRSquare
      let tok ← Tok
      if tok.kind ≠ .colon then do
        Error "expected ':'." tok
        declareArray Name Size none none []
      else do
        ConsumeExpectedToken .colon
        parseArrayTypes Name Size

def ParseArrayDecl : ParserM (Option Decl) := do
  ConsumeExpectedToken .kwArray
  let Name ← Tok
  if Name.kind ≠ .identifier then do
    Error "expected identifier token." Name
    return none
  else do
    ConsumeToken
    parseArraySize Name

section Query

variable (Builder : Expr → Option Expr) (constArrayOpt ClearArrayAfterQuery : Bool)

/-- The loops of `ParseQueryCommand` over expressions, to a number of tokens: whether they came to the bracket. -/
def parseExprs (type : Option Nat) : Nat → List Expr → ParserM (Bool × List Expr)
  | 0, _ => fail
  | n + 1, Exprs => do
    let tok ← Tok
    if tok.kind = .rSquare then return (true, Exprs)
    else if tok.kind = .endOfFile then do
      Error "unexpected end of file." tok
      return (false, Exprs)
    else do
      let Res ← ParseExpr Builder constArrayOpt type
      parseExprs type n (Exprs ++ Res.toList)

/-- The loop of `ParseQueryCommand` over arrays, to a number of tokens: whether it came to the bracket. -/
def parseObjects : Nat → List ParsedArray → ParserM (Bool × List ParsedArray)
  | 0, _ => fail
  | n + 1, Objects => do
    let s ← get
    if s.Tok.kind = .rSquare then return (true, Objects)
    else if s.Tok.kind = .endOfFile then do
      Error "unexpected end of file." s.Tok
      return (false, Objects)
    else if s.Tok.kind ≠ .identifier then do
      Error "unexpected token." s.Tok
      check (.skipToken s.Tok) (s.Tok.kind.isBracket = false)
      ConsumeToken
      parseObjects n Objects
    else do
      let Label ← GetOrCreateIdentifier s.Tok
      ConsumeToken
      match s.ArraySymTab.lookup Label with
      | none => do
        Error "unknown array" s.Tok
        parseObjects n Objects
      | some AD => parseObjects n (Objects ++ [AD.Root])

def finishQuery (Constraints : List Expr) (Res : Expr) (Values : List Expr) (Objects : List ParsedArray) :
    ParserM (Option Decl) := do
  let tok ← Tok
  if tok.kind = .endOfFile then clear
  else do
    ExpectRParen "unexpected argument to 'query'."
    clear
where
  clear : ParserM (Option Decl) := do
    modify fun s => if ClearArrayAfterQuery then { s with ArraySymTab := [] } else s
    return some (.query Constraints Res Values Objects)

/-- A query without a list where one is expected. -/
def malformedQuery (Message : String) (tok : Token) : ParserM (Option Decl) := do
  Error Message tok
  SkipUntilRParen
  return none

def parseQueryObjects (Constraints : List Expr) (Res : Expr) (Values : List Expr) : ParserM (Option Decl) := do
  let tok ← Tok
  if tok.kind = .rParen then finishQuery ClearArrayAfterQuery Constraints Res Values []
  else if tok.kind ≠ .lSquare then malformedQuery "malformed query, expected array list." tok
  else do
    ConsumeLSquare
    let s ← get
    match ← parseObjects (s.remaining + 1) [] with
    | (true, Objects) => do
      ConsumeRSquare
      finishQuery ClearArrayAfterQuery Constraints Res Values Objects
    | (false, Objects) => finishQuery ClearArrayAfterQuery Constraints Res Values Objects

def parseQueryValues (Constraints : List Expr) (Res : Expr) : ParserM (Option Decl) := do
  let tok ← Tok
  if tok.kind = .rParen then finishQuery ClearArrayAfterQuery Constraints Res [] []
  else if tok.kind ≠ .lSquare then malformedQuery "malformed query, expected expression list." tok
  else do
    ConsumeLSquare
    let s ← get
    match ← parseExprs Builder constArrayOpt none (s.remaining + 1) [] with
    | (true, Values) => do
      ConsumeRSquare
      parseQueryObjects ClearArrayAfterQuery Constraints Res Values
    | (false, Values) => finishQuery ClearArrayAfterQuery Constraints Res Values []

def ParseQueryCommand : ParserM (Option Decl) := do
  -- the initial versions of the arrays are inserted again
  modify fun s => { s with
    ExprSymTab := []
    VersionSymTab := s.ArraySymTab.map fun a => (a.2.Name, ⟨a.2.Root, .nil⟩) }
  ConsumeExpectedToken .kwQuery
  let tok ← Tok
  if tok.kind ≠ .lSquare then malformedQuery "malformed query, expected constraint list." tok
  else do
    ConsumeLSquare
    let s ← get
    match ← parseExprs Builder constArrayOpt (some 1) (s.remaining + 1) [] with
    | (true, Constraints) => do
      ConsumeRSquare
      let Res ← ParseExpr Builder constArrayOpt (some 1)
      let Res ← argumentOrZero 1 Res
      parseQueryValues Builder constArrayOpt ClearArrayAfterQuery Constraints Res
    | (false, Constraints) => do
      let Res ← constant 0 1
      finishQuery ClearArrayAfterQuery Constraints Res [] []

def ParseCommandDecl : ParserM (Option Decl) := do
  ConsumeLParen
  let tok ← Tok
  if tok.kind.isKeyword = false then malformedQuery "malformed command." tok
  else if tok.kind = .kwQuery then ParseQueryCommand Builder constArrayOpt ClearArrayAfterQuery
  else malformedQuery "malformed command (unexpected keyword)." tok

def parseDecl : Nat → ParserM (Option Decl)
  | 0 => fail
  | n + 1 => do
    let tok ← Tok
    if tok.kind = .endOfFile then return none
    else if tok.kind = .kwArray then do
      match ← ParseArrayDecl with
      | some d => return some d
      | none => parseDecl n
    else if tok.kind = .lParen then do
      match ← ParseCommandDecl Builder constArrayOpt ClearArrayAfterQuery with
      | some d => return some d
      | none => parseDecl n
    else do
      Error "expected 'array' or '(' token." tok
      ConsumeAnyToken
      parseDecl n

def ParseTopLevelDecl : ParserM (Option Decl) := do
  let s ← get
  parseDecl Builder constArrayOpt ClearArrayAfterQuery (s.remaining + 1)

/-- Calls of `ParseTopLevelDecl` until it returns null, to a number of calls. -/
def parseDecls : Nat → ParserM (List Decl)
  | 0 => fail
  | n + 1 => do
    match ← ParseTopLevelDecl Builder constArrayOpt ClearArrayAfterQuery with
    | none => return []
    | some d => return d :: (← parseDecls n)

def parseAll : ParserM (List Decl) := do
  let s ← get
  parseDecls Builder constArrayOpt ClearArrayAfterQuery (s.remaining + 1)

end Query

end ParserImpl

end CgsKlee
