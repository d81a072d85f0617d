import CgsKlee.Expr.ExprBuilderTypes
import CgsKlee.Parser.Recovery

/-!
# Types of parsed expressions

The parser compares the widths of the operands of a binary expression, of an index and of an update, but it takes the
operands of an extension and of a selection as they are, and the bound of an extraction and the width of a concatenation
are sums of unsigned numbers.  In a run in which these meet the condition of their kind (`ParserStep.TypeChecked`), all
expressions of the declarations are typed, whatever the builder.
-/

namespace CgsKlee

namespace ParserImpl

open StepM

/-- The operands that the parser does not check: bits to extract that are there, an extension that is one, a condition of
one bit and arms of one width, and a concatenation whose width is a number of 32 bits. -/
def ParserStep.TypeChecked : ParserStep → Prop
  | .build (.extract expr offset width) => 0 < width ∧ offset + width ≤ getWidth expr
  | .build (.cast _ src width) => getWidth src < width
  | .build (.select cond trueExpr falseExpr) => getWidth cond = 1 ∧ getWidth trueExpr = getWidth falseExpr
  | .concat kids => (kids.map getWidth).sum < 2 ^ 32
  | _ => True

/-- The expression is typed, and its width is an unsigned number. -/
def Parsed (e : Expr) : Prop := e.Typed ∧ e.width < 2 ^ 32

theorem Parsed.getWidth {e : Expr} (h : Parsed e) : getWidth e = e.width := Nat.mod_eq_of_lt h.2

def VersionHandle.Typed (u : VersionHandle) : Prop := u.head.ForallNodes Expr.TypedNode

structure TypedTables (s : ParserState) : Prop where
  exprs : ∀ x ∈ s.ExprSymTab, Parsed x.2
  versions : ∀ x ∈ s.VersionSymTab, x.2.Typed

/-- What the expressions of a declaration are: of an array, the constants that it is filled with. -/
def Decl.exprs : Decl → List Expr
  | .array decl => decl.Root.1.constantValues.map fun v => .constant ⟨_, v⟩
  | .query Constraints Query Values Objects =>
    Constraints ++ Query :: Values ++
      Objects.flatMap fun a => a.1.constantValues.map fun v => .constant ⟨_, v⟩

/-- In steps that are checked the program keeps the tables typed and returns what has `Q`. -/
abbrev KeepsTypes {α : Type} (x : ParserM α) (Q : α → Prop) : Prop := KeepsInv ParserStep.TypeChecked TypedTables x Q

variable {α β : Type} {w type : Nat}

theorem modify_types {f : ParserState → ParserState} (hexprs : ∀ s, (f s).ExprSymTab = s.ExprSymTab)
    (hversions : ∀ s, (f s).VersionSymTab = s.VersionSymTab) : KeepsTypes (modify f) fun _ => True :=
  .modify fun s hs => ⟨fun x hx => hs.exprs x (hexprs s ▸ hx), fun x hx => hs.versions x (hversions s ▸ hx)⟩

theorem Tok_types : KeepsTypes Tok fun _ => True := .bind .get fun _ _ => .pure trivial

theorem Error_types (Message : String) (At : Token) : KeepsTypes (Error Message At) fun _ => True :=
  modify_types (fun _ => rfl) fun _ => rfl

theorem next_types : KeepsTypes GetNextNonCommentToken fun _ => True := modify_types (fun _ => rfl) fun _ => rfl

theorem GetOrCreateIdentifier_types {tok : Token} : KeepsTypes (GetOrCreateIdentifier tok) fun _ => True :=
  .bind .assert fun _ _ => .pure trivial

theorem ConsumeToken_types : KeepsTypes ConsumeToken fun _ => True :=
  .bind Tok_types fun _ _ => .bind .assert fun _ _ => next_types

variable {k : TokenKind} {Name : Token} {Size : Option Nat} {Values : List APInt} {Constraints : List Expr}

theorem _ConsumeExpectedToken_types : KeepsTypes (_ConsumeExpectedToken k) fun _ => True :=
  .bind Tok_types fun _ _ => .bind .assert fun _ _ => next_types

theorem ConsumeExpectedToken_types : KeepsTypes (ConsumeExpectedToken k) fun _ => True :=
  .bind Tok_types fun _ _ => .bind .assert fun _ _ => _ConsumeExpectedToken_types

theorem ConsumeLParen_types : KeepsTypes ConsumeLParen fun _ => True :=
  .bind (modify_types (fun _ => rfl) fun _ => rfl) fun _ _ => _ConsumeExpectedToken_types

theorem ConsumeRParen_types : KeepsTypes ConsumeRParen fun _ => True :=
  .bind (modify_types (fun _ => rfl) fun _ => rfl) fun _ _ => _ConsumeExpectedToken_types

theorem ConsumeLSquare_types : KeepsTypes ConsumeLSquare fun _ => True :=
  .bind (modify_types (fun _ => rfl) fun _ => rfl) fun _ _ => _ConsumeExpectedToken_types

theorem ConsumeRSquare_types : KeepsTypes ConsumeRSquare fun _ => True :=
  .bind (modify_types (fun _ => rfl) fun _ => rfl) fun _ _ => _ConsumeExpectedToken_types

theorem ConsumeAnyToken_types : KeepsTypes ConsumeAnyToken fun _ => True := by
  refine .bind Tok_types fun tok _ => ?_
  split
  · exact ConsumeLParen_types
  · exact ConsumeRParen_types
  · exact ConsumeLSquare_types
  · exact ConsumeRSquare_types
  · exact ConsumeToken_types

theorem skipUntil_types {Level : Nat} (n : Nat) : KeepsTypes (skipUntil k Level n) fun _ => True := by
  induction n with
  | zero => exact .fail
  | succ n ih =>
    refine .bind .get fun s _ => ?_
    split
    · exact .pure trivial
    · split
      · exact ConsumeAnyToken_types
      · exact .bind ConsumeAnyToken_types fun _ _ => ih

theorem skipToLevel_types : KeepsTypes (skipToLevel k) fun _ => True :=
  .bind .get fun _ _ => skipUntil_types _

theorem expectClose_types {atEnd Msg : String} :
    KeepsTypes (expectClose k atEnd Msg) fun _ => True := by
  refine .bind Tok_types fun tok _ => ?_
  split
  · exact Error_types _ _
  · split
    · exact ConsumeAnyToken_types
    · exact .bind (Error_types _ _) fun _ _ => skipToLevel_types

theorem parsed_constant {c : APInt} (h : c.width < 2 ^ 32) : Parsed (.constant c) := ⟨trivial, h⟩

theorem constant_types {v : Nat} (hw : w < 2 ^ 32) : KeepsTypes (constant v w) fun e => Parsed e ∧ e.width = w := by
  refine .bind (Q := fun c => c.width = w) (.call fun c _ hc => Constant_width hc) fun c hc => .pure ?_
  exact ⟨parsed_constant (hc.trans_lt hw), hc⟩

theorem zero_types (hw : w < 2 ^ 32) : KeepsTypes (constant 0 w) Parsed := (constant_types hw).mono fun _ h => h.1

theorem argumentOrZero_types (e : Option Expr) (he : ∀ x, e = some x → Parsed x) (hw : w < 2 ^ 32) :
    KeepsTypes (argumentOrZero w e) Parsed := by
  cases e with
  | none => exact zero_types hw
  | some e => exact .pure (he e rfl)

theorem parseNumberToken_types {tok : Token} : KeepsTypes (parseNumberToken type tok) fun c => c.width = type := by
  refine .bind (Q := fun r => r.1.width = type) (.call fun r _ hr => ParseNumberToken_width hr) fun r hr => ?_
  split
  · exact .bind (Error_types _ _) fun _ _ => .pure hr
  · exact .pure hr

theorem ParseNumber_types : KeepsTypes (ParseNumber type) fun c => c.width = type :=
  .bind Tok_types fun _ _ => .bind parseNumberToken_types fun _ hc =>
    .bind .check fun _ _ => .bind ConsumeExpectedToken_types fun _ _ => .pure hc

theorem ParseIntegerConstant_types : KeepsTypes (ParseIntegerConstant type) fun _ => True :=
  .bind ParseNumber_types fun _ _ => .bind .assert fun _ _ => .pure trivial

theorem ParseTypeSpecifier_types : KeepsTypes ParseTypeSpecifier fun w => w < 2 ^ 32 :=
  .bind Tok_types fun _ _ => .bind .check fun _ _ => .bind ConsumeToken_types fun _ _ =>
    .pure (Nat.mod_lt _ (Nat.two_pow_pos 32))

variable (B : TypedBuilder) {constArrayOpt : Bool}

theorem build_types {node : Expr} (h : ParserStep.TypeChecked (.build node) → node.Typed) (hw : node.width < 2 ^ 32) :
    KeepsTypes (build B.construct node) Parsed := by
  refine .call fun e hgood he => ?_
  obtain ⟨htyped, hwidth⟩ := B.construct_typed node (h hgood) e he
  exact ⟨htyped, hwidth.trans_lt hw⟩

variable {l r e : Expr}

theorem unary_types {Kind : UnaryKind} (he : Parsed e) (hw : w < 2 ^ 32) :
    KeepsTypes (build B.construct (Kind.node e w)) Parsed := by
  cases Kind with
  | not => exact build_types B (fun _ => ⟨he.1, trivial⟩) he.2
  | cast kind =>
    refine build_types B (fun hchecked => ⟨he.1, ?_⟩) hw
    have hlt : getWidth e < w := hchecked
    rwa [he.getWidth] at hlt

theorem pair_types {Kind : PairKind} (hl : Parsed l) (hr : Parsed r) (hw : getWidth l = getWidth r) :
    KeepsTypes (build B.construct (Kind.node l r)) Parsed := by
  rw [hl.getWidth, hr.getWidth] at hw
  cases Kind with
  | binary kind => exact build_types B (fun _ => ⟨hl.1, hr.1, hw⟩) hl.2
  | cmp kind => exact build_types B (fun _ => ⟨hl.1, hr.1, hw⟩) (by decide : 1 < 2 ^ 32)

theorem select_types (he : Parsed e) (hl : Parsed l) (hr : Parsed r) :
    KeepsTypes (build B.construct (.select e l r)) Parsed := by
  refine build_types B (fun hchecked => ⟨he.1, hl.1, hr.1, ?_⟩) hl.2
  have harms : getWidth e = 1 ∧ getWidth l = getWidth r := hchecked
  rwa [he.getWidth, hl.getWidth, hr.getWidth] at harms

theorem extract_types {offset : Nat} (he : Parsed e) (hw : w < 2 ^ 32) :
    KeepsTypes (build B.construct (.extract e offset w)) Parsed := by
  refine build_types B (fun hchecked => ⟨he.1, ?_⟩) hw
  have hbits : 0 < w ∧ offset + w ≤ getWidth e := hchecked
  rwa [he.getWidth] at hbits

theorem read_types {u : VersionHandle} (hu : u.Typed) (he : Parsed e) (hw : e.width = 32) :
    KeepsTypes (build B.construct (.read u.root.1 u.head e)) Parsed := by
  refine build_types B (fun _ => ⟨hu, he.1, hw⟩) ?_
  have hrange : (Expr.read u.root.1 u.head e).width = 8 := u.root.2.2
  omega

theorem createN_typed : ∀ {kids : List Expr}, (∀ k ∈ kids, k.Typed) → BuildsTyped (kids.map Expr.width).sum (createN kids)
  | [], _ => .none
  | [kid], h => .some (h kid (List.mem_singleton_self kid)) (Nat.add_zero _).symm
  | kid :: kid' :: kids, h => by
    obtain ⟨hkid, hkids⟩ := List.forall_mem_cons.mp h
    refine .andThen (createN_typed hkids) fun e he hw => ?_
    have hconcat := ConcatExpr.create_typed hkid he
    rw [hw] at hconcat
    exact hconcat

theorem concat_types {kids : List Expr} (h : ∀ k ∈ kids, Parsed k) :
    KeepsTypes (call (.concat kids) (createN kids)) Parsed := by
  refine .call fun e hchecked he => ?_
  obtain ⟨htyped, hw⟩ := createN_typed (fun k hk => (h k hk).1) e he
  have hsum : (kids.map getWidth).sum < 2 ^ 32 := hchecked
  have hmap : kids.map getWidth = kids.map Expr.width := List.map_congr_left fun k hk => (h k hk).getWidth
  rw [hmap] at hsum
  exact ⟨htyped, hw.trans_lt hsum⟩

theorem createArray_types {name : List Char} {size : Nat} {values : List APInt} :
    KeepsTypes (CreateArray name size values) fun _ => True :=
  .bind .get fun _ _ => .bind (Q := fun _ => True) (.call fun _ _ _ => trivial) fun _ _ =>
    .bind (modify_types (fun _ => rfl) fun _ => rfl) fun _ _ => .pure trivial

def ParsedResult (r : Option Expr) : Prop := ∀ e, r = some e → Parsed e

theorem ParsedResult.some (h : Parsed e) : ParsedResult (some e) := by
  rintro _ ⟨⟩
  exact h

theorem ParsedResult.none : ParsedResult none := nofun

def ParsedOperand : NumberOrExprResult → Prop
  | .number _ => True
  | .expr Res => ParsedResult Res

def UnsignedType (t : Option Nat) : Prop := ∀ w, t = some w → w < 2 ^ 32

theorem UnsignedType.some (h : w < 2 ^ 32) : UnsignedType (some w) := by
  rintro _ ⟨⟩
  exact h

theorem UnsignedType.none : UnsignedType none := nofun

theorem unsignedType_fixed {IsFixed : Bool} (h : w < 2 ^ 32) : UnsignedType (if IsFixed then .some w else .none) := by
  split
  · exact .some h
  · exact .none

theorem getWidth_lt : getWidth e < 2 ^ 32 := Nat.mod_lt _ (Nat.two_pow_pos 32)

section Productions

variable {ParseExpr : Option Nat → ParserM (Option Expr)} {ParseVersionSpecifier : ParserM (Option VersionHandle)}
  (hE : ∀ t, UnsignedType t → KeepsTypes (ParseExpr t) ParsedResult)
  (hV : KeepsTypes ParseVersionSpecifier fun r => ∀ u, r = some u → u.Typed)

include hE

theorem ParseNumberOrExpr_types : KeepsTypes (ParseNumberOrExpr ParseExpr) ParsedOperand := by
  refine .bind Tok_types fun tok _ => ?_
  split
  · exact .bind ConsumeToken_types fun _ _ => .pure trivial
  · exact .bind (hE none .none) fun r hr => .pure hr

variable {Name : Token} {t : Option Nat}

theorem ParseUnaryParenExpr_types {Kind : UnaryKind} {IsFixed : Bool} (hw : w < 2 ^ 32) :
    KeepsTypes (ParseUnaryParenExpr B.construct ParseExpr Name Kind IsFixed w) Parsed := by
  refine .bind Tok_types fun tok _ => ?_
  split
  · exact .bind (Error_types _ _) fun _ _ => .bind ConsumeRParen_types fun _ _ => zero_types hw
  · refine .bind (hE _ (unsignedType_fixed hw)) fun Arg hArg => ?_
    refine .bind (argumentOrZero_types Arg hArg hw) fun E hE => ?_
    exact .bind expectClose_types fun _ _ => unary_types B hE hw

theorem parseSecondArg_types (first : NumberOrExprResult) (hfirst : ParsedOperand first) :
    KeepsTypes (parseSecondArg ParseExpr Name first) fun args => ParsedResult args.1 ∧ ParsedResult args.2 := by
  cases first with
  | number num =>
    refine .bind (ParseNumberOrExpr_types hE) fun second hsecond => ?_
    cases second with
    | number tok => exact .bind (Error_types _ _) fun _ _ => .pure ⟨.none, .none⟩
    | expr Res =>
      cases Res with
      | none => exact .pure ⟨.none, .none⟩
      | some RHS =>
        refine .bind parseNumberToken_types fun LHS hLHS => .pure ⟨.some ?_, hsecond⟩
        exact parsed_constant (hLHS.trans_lt getWidth_lt)
  | expr Res =>
    cases Res with
    | none => exact .bind (hE none .none) fun RHS hRHS => .pure ⟨.none, hRHS⟩
    | some LHS => exact .bind (hE _ (.some getWidth_lt)) fun RHS hRHS => .pure ⟨hfirst, hRHS⟩

theorem ParseMatchedBinaryArgs_types (ht : UnsignedType t) :
    KeepsTypes (ParseMatchedBinaryArgs ParseExpr Name t) fun args => ParsedResult args.1 ∧ ParsedResult args.2 := by
  refine .bind Tok_types fun tok _ => ?_
  split
  · exact .bind (Error_types _ _) fun _ _ => .bind ConsumeRParen_types fun _ _ => .pure ⟨.none, .none⟩
  · cases t with
    | some type =>
      refine .bind (hE _ ht) fun LHS hLHS => .bind Tok_types fun tok _ => ?_
      split
      · exact .bind (Error_types _ _) fun _ _ => .bind ConsumeRParen_types fun _ _ => .pure ⟨hLHS, .none⟩
      · refine .bind (hE _ ht) fun RHS hRHS => ?_
        exact .bind expectClose_types fun _ _ => .pure ⟨hLHS, hRHS⟩
    | none =>
      refine .bind (ParseNumberOrExpr_types hE) fun LHS hLHS => .bind Tok_types fun tok _ => ?_
      split
      · exact .bind (Error_types _ _) fun _ _ => .bind ConsumeRParen_types fun _ _ => .pure ⟨.none, .none⟩
      · refine .bind (parseSecondArg_types hE LHS hLHS) fun args hargs => ?_
        exact .bind expectClose_types fun _ _ => .pure hargs

theorem ParseBinaryParenExpr_types {Kind : PairKind} {IsFixed : Bool} (hw : w < 2 ^ 32) :
    KeepsTypes (ParseBinaryParenExpr B.construct ParseExpr Name Kind IsFixed w) Parsed := by
  refine .bind (ParseMatchedBinaryArgs_types hE (unsignedType_fixed hw)) fun args hargs => ?_
  obtain ⟨LHS, RHS⟩ := args
  cases LHS with
  | none => exact zero_types hw
  | some LHS =>
    cases RHS with
    | none => exact zero_types hw
    | some RHS =>
      dsimp only
      split
      · exact .bind (Error_types _ _) fun _ _ => zero_types hw
      · rename_i hwidths
        exact pair_types B (hargs.1 _ rfl) (hargs.2 _ rfl) (not_not.mp hwidths)

theorem ParseSelectParenExpr_types (hw : w < 2 ^ 32) :
    KeepsTypes (ParseSelectParenExpr B.construct ParseExpr Name w) Parsed := by
  refine .bind Tok_types fun tok _ => ?_
  split
  · exact .bind (Error_types _ _) fun _ _ => .bind ConsumeRParen_types fun _ _ => zero_types hw
  · refine .bind (hE _ (.some (by decide))) fun Cond hCond => ?_
    refine .bind (ParseMatchedBinaryArgs_types hE (.some hw)) fun args hargs => ?_
    split
    · exact select_types B (hCond _ rfl) (hargs.1 _ rfl) (hargs.2 _ rfl)
    · exact zero_types hw

theorem parseKids_types (n : Nat) {Kids : List Expr} {Width : Nat} (h : ∀ k ∈ Kids, Parsed k) :
    KeepsTypes (parseKids ParseExpr n Kids Width) fun r => ∀ x, r = some x → ∀ k ∈ x.1, Parsed k := by
  induction n generalizing Kids Width with
  | zero => exact .fail
  | succ n ih =>
    refine .bind Tok_types fun tok _ => ?_
    split
    · refine .pure ?_
      rintro _ ⟨⟩
      exact h
    · refine .bind (hE none .none) fun r hr => ?_
      cases r with
      | none => exact .bind skipToLevel_types fun _ _ => .pure nofun
      | some E =>
        refine ih fun k hk => ?_
        rcases List.mem_append.mp hk with hk | hk
        · exact h k hk
        · obtain rfl := List.mem_singleton.mp hk
          exact hr _ rfl

theorem ParseConcatParenExpr_types (hw : w < 2 ^ 32) : KeepsTypes (ParseConcatParenExpr ParseExpr w) Parsed := by
  refine .bind .get fun s _ => .bind (parseKids_types hE _ (List.forall_mem_nil _)) fun r hr => ?_
  cases r with
  | none => exact zero_types hw
  | some r =>
    refine .bind ConsumeRParen_types fun _ _ => ?_
    split
    · exact .bind Tok_types fun _ _ => .bind (Error_types _ _) fun _ _ => zero_types hw
    · exact concat_types (hr r rfl)

theorem ParseExtractParenExpr_types (hw : w < 2 ^ 32) :
    KeepsTypes (ParseExtractParenExpr B.construct ParseExpr Name w) Parsed := by
  refine .bind ParseIntegerConstant_types fun Offset _ => .bind (hE none .none) fun Child hChild => ?_
  refine .bind expectClose_types fun _ _ => ?_
  cases Child with
  | none => exact zero_types hw
  | some Child =>
    dsimp only
    split
    · exact .bind (Error_types _ _) fun _ _ => zero_types hw
    · exact extract_types B (hChild _ rfl) hw

omit hE in
theorem offsetIndex_types {i : Nat} (he : Parsed e) (hw : e.width = 32) :
    KeepsTypes (offsetIndex constArrayOpt e i) fun index => Parsed index ∧ index.width = 32 := by
  unfold offsetIndex
  split
  · exact .pure ⟨he, hw⟩
  · refine .bind (Q := fun offset => ∃ c : APInt, offset = .constant c ∧ c.width = 32) ?_ ?_
    · exact .bind (Q := fun c => c.width = 32) (.call fun c _ hc => Constant_width hc) fun c hc => .pure ⟨c, rfl, hc⟩
    · rintro _ ⟨c, rfl, hc⟩
      refine .call fun index _ hindex => ?_
      obtain ⟨htyped, hwidth⟩ := AddExpr.create_constant_typed he.1 (hw.trans hc.symm) (by omega) index hindex
      exact ⟨⟨htyped, by omega⟩, hwidth.trans hc⟩

omit hE in
theorem readBytes_types {u : VersionHandle} (n : Nat) {i : Nat} (hu : u.Typed) (he : Parsed e) (hw : e.width = 32) :
    KeepsTypes (readBytes B.construct constArrayOpt u e n i) fun kids => ∀ k ∈ kids, Parsed k := by
  induction n generalizing i with
  | zero => exact .pure nofun
  | succ n ih =>
    refine .bind (offsetIndex_types he hw) fun index hindex => ?_
    refine .bind (read_types B hu hindex.1 hindex.2) fun kid hkid => .bind ih fun kids hkids => .pure ?_
    exact List.forall_mem_cons.mpr ⟨hkid, hkids⟩

omit hE in
theorem buildReads_types {Kind : ReadKind} {u : VersionHandle} (hu : u.Typed) (he : Parsed e)
    (hindex : e.width = 32) (hw : w < 2 ^ 32) :
    KeepsTypes (buildReads B.construct constArrayOpt Name Kind w u e) Parsed := by
  unfold buildReads
  split
  · exact read_types B hu he hindex
  · split
    · exact .bind (Error_types _ _) fun _ _ => zero_types hw
    · refine .bind (readBytes_types B _ hu he hindex) fun kids hkids => concat_types ?_
      split
      · exact fun k hk => hkids k (List.mem_reverse.mp hk)
      · exact hkids

omit hE in
theorem coerce_types (operand : NumberOrExprResult) (h : ParsedOperand operand) (hw : w < 2 ^ 32) :
    KeepsTypes (coerce w operand) ParsedResult := by
  cases operand with
  | number tok => exact .bind parseNumberToken_types fun c hc => .pure (.some (parsed_constant (hc.trans_lt hw)))
  | expr Res => exact .pure h

include hV

theorem ParseAnyReadParenExpr_types {Kind : ReadKind} (hw : w < 2 ^ 32) :
    KeepsTypes (ParseAnyReadParenExpr B.construct constArrayOpt ParseExpr ParseVersionSpecifier Name Kind w)
      Parsed := by
  refine .bind (ParseNumberOrExpr_types hE) fun Index hIndex => .bind hV fun Array hArray => ?_
  refine .bind expectClose_types fun _ _ => ?_
  cases Array with
  | none => exact zero_types hw
  | some Array =>
    refine .bind (coerce_types Index hIndex (by decide)) fun IndexExpr hIndexExpr => ?_
    cases IndexExpr with
    | none => exact zero_types hw
    | some IndexExpr =>
      dsimp only
      split
      · exact .bind Tok_types fun _ _ => .bind (Error_types _ _) fun _ _ => zero_types hw
      · rename_i hwidth
        have hparsed := hIndexExpr _ rfl
        exact buildReads_types B (hArray _ rfl) hparsed (hparsed.getWidth.symm.trans (not_not.mp hwidth)) hw

theorem parseKind_types {info : ParenKind × Bool} (hw : w < 2 ^ 32) :
    KeepsTypes (parseKind B.construct constArrayOpt ParseExpr ParseVersionSpecifier Name w info) Parsed := by
  unfold parseKind
  split
  · exact ParseUnaryParenExpr_types B hE hw
  · exact ParseBinaryParenExpr_types B hE hw
  · exact ParseSelectParenExpr_types B hE hw
  · exact ParseConcatParenExpr_types hE hw
  · exact ParseExtractParenExpr_types B hE hw
  · exact ParseAnyReadParenExpr_types B hE hV hw

omit hE hV in
theorem parseCoercion_types : KeepsTypes parseCoercion ParsedResult := by
  refine .bind ParseTypeSpecifier_types fun type htype => .bind Tok_types fun tok _ => ?_
  split
  · exact .bind (Error_types _ _) fun _ _ => .bind skipToLevel_types fun _ _ => .pure .none
  · refine .bind ParseNumber_types fun c hc => .bind expectClose_types fun _ _ => .pure (.some ?_)
    exact parsed_constant (hc.trans_lt htype)

omit hE hV in
theorem parseResultType_types : KeepsTypes parseResultType fun w => w < 2 ^ 32 := by
  refine .bind Tok_types fun tok _ => ?_
  split
  · exact ParseTypeSpecifier_types
  · exact .pure (by decide)

theorem ParseParenExpr_types :
    KeepsTypes (ParseParenExpr B.construct constArrayOpt ParseExpr ParseVersionSpecifier) ParsedResult := by
  refine .bind Tok_types fun tok _ => ?_
  split
  · exact .bind (Error_types _ _) fun _ _ => .bind ConsumeAnyToken_types fun _ _ => .pure .none
  · refine .bind ConsumeLParen_types fun _ _ => .bind Tok_types fun Name _ => ?_
    split
    · exact parseCoercion_types
    · split
      · exact .bind (Error_types _ _) fun _ _ => .bind skipToLevel_types fun _ _ => .pure .none
      · refine .bind ConsumeToken_types fun _ _ => .bind parseResultType_types fun w hw => ?_
        refine .bind (Q := fun _ => True) (.bind .assert fun _ _ => .pure trivial) fun info _ => ?_
        cases info with
        | none => exact .bind (Error_types _ _) fun _ _ => .bind skipToLevel_types fun _ _ => .pure .none
        | some info => exact .bind (parseKind_types B hE hV hw) fun e he => .pure (.some he)

omit hE hV in
theorem forall_insertNew {γ : Type} {P : List Char × γ → Prop} {key : List Char} {value : γ}
    {table : List (List Char × γ)} (h : ∀ x ∈ table, P x) (hnew : P (key, value)) :
    ∀ x ∈ insertNew key value table, P x := by
  unfold insertNew
  split
  · exact h
  · exact List.forall_mem_cons.mpr ⟨hnew, h⟩

omit hE hV in
theorem forall_lookup {γ : Type} {P : γ → Prop} {key : List Char} {value : γ} {table : List (List Char × γ)}
    (h : ∀ x ∈ table, P x.2) (hvalue : table.lookup key = some value) : P value := by
  induction table with
  | nil => cases hvalue
  | cons x table ih =>
    obtain ⟨hx, htable⟩ := List.forall_mem_cons.mp h
    rw [List.lookup_cons] at hvalue
    split at hvalue
    · cases hvalue
      exact hx
    · exact ih htable hvalue

omit hE hV in
theorem defineExpr_types {Label : List Char} (he : Parsed e) :
    KeepsTypes (StepM.modify fun s : ParserState => { s with ExprSymTab := insertNew Label e s.ExprSymTab })
      fun _ => True :=
  .modify fun _ hs => ⟨forall_insertNew hs.exprs he, hs.versions⟩

theorem parseLabelled_types {Label : Option (List Char)} (ht : UnsignedType t) :
    KeepsTypes (parseLabelled B.construct constArrayOpt ParseExpr ParseVersionSpecifier t Label) ParsedResult := by
  refine .bind Tok_types fun Start _ => .bind (ParseParenExpr_types B hE hV) fun Res hRes => ?_
  cases Res with
  | none =>
    cases t with
    | none => exact .pure .none
    | some type =>
      cases Label with
      | none => exact .pure .none
      | some Label =>
        exact .bind (zero_types (ht type rfl)) fun e he => .bind (defineExpr_types he) fun _ _ => .pure .none
  | some Res =>
    dsimp only
    split
    · exact .bind (Error_types _ _) fun _ _ => .pure .none
    · cases Label with
      | none => exact .pure hRes
      | some Label => exact .bind (defineExpr_types (hRes _ rfl)) fun _ _ => .pure hRes

theorem parseLabel_types {LTok : Token} {Label : List Char} (ht : UnsignedType t) :
    KeepsTypes (parseLabel B.construct constArrayOpt ParseExpr ParseVersionSpecifier t LTok Label) ParsedResult := by
  refine .bind .get fun s hs => ?_
  split
  · split
    · exact .bind (Error_types _ _) fun _ _ => .pure .none
    · rename_i e he
      exact .pure (.some (forall_lookup hs.exprs he))
  · refine .bind ConsumeToken_types fun _ _ => ?_
    split
    · exact .bind (Error_types _ _) fun _ _ => parseLabelled_types B hE hV ht
    · exact parseLabelled_types B hE hV ht

theorem parseExprBody_types (ht : UnsignedType t) :
    KeepsTypes (parseExprBody B.construct constArrayOpt ParseExpr ParseVersionSpecifier t) ParsedResult := by
  refine .bind Tok_types fun tok _ => ?_
  split
  · exact .bind (Error_types _ _) fun _ _ => .pure .none
  · split
    · exact .bind ConsumeToken_types fun _ _ => .bind (constant_types (by decide)) fun e he => .pure (.some he.1)
    · split
      · cases t with
        | none => exact .bind (Error_types _ _) fun _ _ => .bind ConsumeToken_types fun _ _ => .pure .none
        | some type =>
          refine .bind ParseNumber_types fun c hc => .pure (.some ?_)
          exact parsed_constant (hc.trans_lt (ht type rfl))
      · split
        · exact .bind GetOrCreateIdentifier_types fun Label _ => .bind ConsumeToken_types fun _ _ =>
            parseLabel_types B hE hV ht
        · exact parseLabelled_types B hE hV ht

omit hV in
theorem parseWrites_types (n : Nat) {Writes : List WriteInfo}
    (h : ∀ WI ∈ Writes, ParsedOperand WI.LHS ∧ ParsedOperand WI.RHS) :
    KeepsTypes (parseWrites ParseExpr n Writes) fun Writes => ∀ WI ∈ Writes, ParsedOperand WI.LHS ∧ ParsedOperand WI.RHS := by
  induction n generalizing Writes with
  | zero => exact .fail
  | succ n ih =>
    refine .bind Tok_types fun LHSTok _ => .bind (ParseNumberOrExpr_types hE) fun LHS hLHS => ?_
    refine .bind Tok_types fun tok _ => ?_
    split
    · exact .bind (Error_types _ _) fun _ _ => .pure h
    · refine .bind ConsumeToken_types fun _ _ => .bind Tok_types fun RHSTok _ => ?_
      refine .bind (ParseNumberOrExpr_types hE) fun RHS hRHS => .bind Tok_types fun tok _ => ?_
      have happend : ∀ WI ∈ Writes ++ [⟨LHS, RHS, LHSTok, RHSTok⟩], ParsedOperand WI.LHS ∧ ParsedOperand WI.RHS := by
        intro WI hWI
        rcases List.mem_append.mp hWI with hWI | hWI
        · exact h WI hWI
        · obtain rfl := List.mem_singleton.mp hWI
          exact ⟨hLHS, hRHS⟩
      split
      · exact .bind ConsumeToken_types fun _ _ => ih happend
      · exact .pure happend

omit hE hV in
theorem coerceWrite_types {Message : String} {At : Token} (operand : NumberOrExprResult) (h : ParsedOperand operand)
    (hw : w < 2 ^ 32) : KeepsTypes (coerceWrite w Message At operand) ParsedResult := by
  refine .bind (coerce_types operand h hw) fun r hr => ?_
  split
  · split
    · exact .bind (Error_types _ _) fun _ _ => .pure .none
    · exact .pure hr
  · exact .pure hr

omit hE hV in
theorem extendAll_types (Writes : List WriteInfo) {Base : VersionHandle} (hBase : Base.Typed)
    (h : ∀ WI ∈ Writes, ParsedOperand WI.LHS ∧ ParsedOperand WI.RHS) :
    KeepsTypes (extendAll Writes Base) VersionHandle.Typed := by
  induction Writes generalizing Base with
  | nil => exact .pure hBase
  | cons WI Writes ih =>
    obtain ⟨hWI, hWrites⟩ := List.forall_mem_cons.mp h
    refine .bind (coerceWrite_types WI.LHS hWI.1 (by decide)) fun LHS hLHS => ?_
    refine .bind (coerceWrite_types WI.RHS hWI.2 (by decide)) fun RHS hRHS => ?_
    split
    · refine .bind (Q := VersionHandle.Typed) (.lift fun u hu => ?_) fun u hu => ih hu hWrites
      unfold VersionHandle.extend at hu
      split at hu
      · cases hu
        exact ⟨(hLHS _ rfl).1, (hRHS _ rfl).1, hBase⟩
      · cases hu
    · exact ih hBase hWrites

theorem ParseVersion_types :
    KeepsTypes (ParseVersion ParseExpr ParseVersionSpecifier) fun r => ∀ u, r = some u → u.Typed := by
  refine .bind Tok_types fun tok _ => ?_
  split
  · exact .pure nofun
  · refine .bind ConsumeLSquare_types fun _ _ => .bind .get fun s _ => ?_
    refine .bind (parseWrites_types hE _ (List.forall_mem_nil _)) fun Writes hWrites => ?_
    refine .bind expectClose_types fun _ _ => .bind Tok_types fun tok _ => ?_
    split
    · exact .bind (Error_types _ _) fun _ _ => .pure nofun
    · refine .bind ConsumeExpectedToken_types fun _ _ => .bind hV fun Base hBase => ?_
      cases Base with
      | none => exact .pure nofun
      | some Base =>
        refine .bind (extendAll_types _ (hBase _ rfl) fun WI hWI => hWrites WI (List.mem_reverse.mp hWI)) ?_
        intro u hu
        refine .pure ?_
        rintro _ ⟨⟩
        exact hu

theorem parseLabelledVersion_types {Label : Option (List Char)} :
    KeepsTypes (parseLabelledVersion ParseExpr ParseVersionSpecifier Label) fun r => ∀ u, r = some u → u.Typed := by
  have hdefine : ∀ Res : VersionHandle, Res.Typed →
      KeepsTypes (parseLabelledVersion.define Label Res) fun r => ∀ u, r = some u → u.Typed := by
    intro Res hRes
    have hsome : ∀ u, some Res = some u → u.Typed := by
      rintro _ ⟨⟩
      exact hRes
    cases Label with
    | none => exact .pure hsome
    | some Label =>
      exact .bind (.modify fun _ hs => ⟨hs.exprs, forall_insertNew hs.versions hRes⟩) fun _ _ => .pure hsome
  refine .bind (ParseVersion_types hE hV) fun Res hRes => ?_
  cases Res with
  | none => exact .bind createArray_types fun root _ => hdefine _ trivial
  | some Res => exact hdefine Res (hRes Res rfl)

theorem parseVersionSpecifierBody_types :
    KeepsTypes (parseVersionSpecifierBody ParseExpr ParseVersionSpecifier) fun r => ∀ u, r = some u → u.Typed := by
  refine .bind Tok_types fun LTok _ => ?_
  split
  · refine .bind GetOrCreateIdentifier_types fun Label _ => .bind ConsumeToken_types fun _ _ => .bind .get fun s hs => ?_
    split
    · split
      · exact .bind (Error_types _ _) fun _ _ => .pure nofun
      · rename_i u hu
        refine .pure ?_
        rintro _ ⟨⟩
        exact forall_lookup (P := VersionHandle.Typed) hs.versions hu
    · refine .bind ConsumeToken_types fun _ _ => ?_
      split
      · exact .bind (Error_types _ _) fun _ _ => parseLabelledVersion_types hE hV
      · exact parseLabelledVersion_types hE hV
  · exact parseLabelledVersion_types hE hV

end Productions

theorem bounded_types (n : Nat) :
    (∀ t, UnsignedType t → KeepsTypes (parseExprBounded B.construct constArrayOpt n t) ParsedResult) ∧
    KeepsTypes (parseVersionBounded B.construct constArrayOpt n) fun r => ∀ u, r = some u → u.Typed := by
  induction n with
  | zero => exact ⟨fun _ _ => .fail, .fail⟩
  | succ n ih => exact ⟨fun _ ht => parseExprBody_types B ih.1 ih.2 ht, parseVersionSpecifierBody_types ih.1 ih.2⟩

theorem ParseExpr_types {t : Option Nat} (ht : UnsignedType t) :
    KeepsTypes (ParseExpr B.construct constArrayOpt t) ParsedResult :=
  .bind .get fun _ _ => (bounded_types B _).1 t ht

def DeclTyped (r : Option Decl) : Prop := ∀ d, r = some d → ∀ e ∈ d.exprs, e.Typed

theorem DeclTyped.none : DeclTyped none := nofun

theorem typed_constantValues {a : ParsedArray} : ∀ e ∈ a.1.constantValues.map fun v => Expr.constant ⟨_, v⟩, e.Typed := by
  intro e he
  obtain ⟨v, -, rfl⟩ := List.mem_map.mp he
  exact trivial

theorem declareArray_types {DomainType RangeType : Option Nat} :
    KeepsTypes (declareArray Name Size DomainType RangeType Values) DeclTyped := by
  refine .bind GetOrCreateIdentifier_types fun Label _ => .bind createArray_types fun Root _ => ?_
  refine .bind (.modify fun s hs => ⟨hs.exprs, forall_insertNew hs.versions trivial⟩) fun _ _ => .pure ?_
  rintro _ ⟨⟩
  exact typed_constantValues

theorem parseValues_types (n : Nat) :
    KeepsTypes (parseValues type n Values) fun _ => True := by
  induction n generalizing Values with
  | zero => exact .fail
  | succ n ih =>
    refine .bind Tok_types fun tok _ => ?_
    split
    · exact .pure trivial
    · split
      · exact .bind (Error_types _ _) fun _ _ => .pure trivial
      · exact .bind ParseNumber_types fun _ _ => ih

theorem inferSize_types (Size : Option Nat) : KeepsTypes (inferSize Size Values) fun _ => True := by
  cases Size with
  | some Size => exact .pure trivial
  | none =>
    unfold inferSize
    dsimp only
    split
    · exact .bind Tok_types fun _ _ => .bind (Error_types _ _) fun _ _ => .pure trivial
    · exact .pure trivial

theorem checkValues_types {passes : Bool} {Message : String} :
    KeepsTypes (checkValues passes Message Values) fun _ => True := by
  unfold checkValues
  split
  · exact .pure trivial
  · exact .bind Tok_types fun _ _ => .bind (Error_types _ _) fun _ _ => .pure trivial

theorem checkArrayDecl_types {DomainType RangeType : Nat} :
    KeepsTypes (checkArrayDecl Name Size DomainType RangeType Values) DeclTyped :=
  .bind (inferSize_types Size) fun _ _ => .bind checkValues_types fun _ _ => .bind checkValues_types fun _ _ =>
    .bind checkValues_types fun _ _ => declareArray_types

theorem parseInitializer_types {DomainType RangeType : Nat} :
    KeepsTypes (parseInitializer Name Size DomainType RangeType) DeclTyped := by
  refine .bind Tok_types fun tok _ => ?_
  split
  · exact .bind ConsumeExpectedToken_types fun _ _ => checkArrayDecl_types
  · split
    · refine .bind ConsumeLSquare_types fun _ _ => .bind .get fun s _ => .bind (parseValues_types _) fun r _ => ?_
      split
      · exact .bind ConsumeRSquare_types fun _ _ => checkArrayDecl_types
      · exact declareArray_types
    · exact .bind (Error_types _ _) fun _ _ => declareArray_types

theorem parseSize_types : KeepsTypes parseSize fun _ => True := by
  refine .bind Tok_types fun tok _ => ?_
  split
  · exact .pure trivial
  · exact .bind ParseIntegerConstant_types fun _ _ => .pure trivial

theorem parseArrayTypes_types :
    KeepsTypes (parseArrayTypes Name Size) DeclTyped := by
  refine .bind ParseTypeSpecifier_types fun DomainType _ => .bind Tok_types fun tok _ => ?_
  split
  · exact .bind (Error_types _ _) fun _ _ => declareArray_types
  · refine .bind ConsumeExpectedToken_types fun _ _ => .bind ParseTypeSpecifier_types fun RangeType _ => ?_
    refine .bind Tok_types fun tok _ => ?_
    split
    · exact .bind (Error_types _ _) fun _ _ => declareArray_types
    · exact .bind ConsumeExpectedToken_types fun _ _ => parseInitializer_types

theorem parseArraySize_types : KeepsTypes (parseArraySize Name) DeclTyped := by
  refine .bind Tok_types fun tok _ => ?_
  split
  · exact .bind (Error_types _ _) fun _ _ => declareArray_types
  · refine .bind ConsumeLSquare_types fun _ _ => .bind parseSize_types fun Size _ => .bind Tok_types fun tok _ => ?_
    split
    · exact .bind (Error_types _ _) fun _ _ => declareArray_types
    · refine .bind ConsumeRSquare_types fun _ _ => .bind Tok_types fun tok _ => ?_
      split
      · exact .bind (Error_types _ _) fun _ _ => declareArray_types
      · exact .bind ConsumeExpectedToken_types fun _ _ => parseArrayTypes_types

theorem ParseArrayDecl_types : KeepsTypes ParseArrayDecl DeclTyped := by
  refine .bind ConsumeExpectedToken_types fun _ _ => .bind Tok_types fun Name _ => ?_
  split
  · exact .bind (Error_types _ _) fun _ _ => .pure .none
  · exact .bind ConsumeToken_types fun _ _ => parseArraySize_types

variable {ClearArrayAfterQuery : Bool}

theorem parseExprs_types {t : Option Nat} (ht : UnsignedType t) (n : Nat) {Exprs : List Expr}
    (h : ∀ e ∈ Exprs, e.Typed) :
    KeepsTypes (parseExprs B.construct constArrayOpt t n Exprs) fun r => ∀ e ∈ r.2, e.Typed := by
  induction n generalizing Exprs with
  | zero => exact .fail
  | succ n ih =>
    refine .bind Tok_types fun tok _ => ?_
    split
    · exact .pure h
    · split
      · exact .bind (Error_types _ _) fun _ _ => .pure h
      · refine .bind (ParseExpr_types B ht) fun Res hRes => ih fun e he => ?_
        rcases List.mem_append.mp he with he | he
        · exact h e he
        · exact (hRes e (Option.mem_toList.mp he)).1

theorem parseObjects_types (n : Nat) {Objects : List ParsedArray} :
    KeepsTypes (parseObjects n Objects) fun _ => True := by
  induction n generalizing Objects with
  | zero => exact .fail
  | succ n ih =>
    refine .bind .get fun s _ => ?_
    split
    · exact .pure trivial
    · split
      · exact .bind (Error_types _ _) fun _ _ => .pure trivial
      · split
        · exact .bind (Error_types _ _) fun _ _ => .bind .check fun _ _ => .bind ConsumeToken_types fun _ _ => ih
        · refine .bind GetOrCreateIdentifier_types fun Label _ => .bind ConsumeToken_types fun _ _ => ?_
          split
          · exact .bind (Error_types _ _) fun _ _ => ih
          · exact ih

theorem finishQuery_types {Values : List Expr} {Res : Expr} {Objects : List ParsedArray}
    (hConstraints : ∀ e ∈ Constraints, e.Typed) (hRes : Res.Typed) (hValues : ∀ e ∈ Values, e.Typed) :
    KeepsTypes (finishQuery ClearArrayAfterQuery Constraints Res Values Objects) DeclTyped := by
  have hclear : KeepsTypes (finishQuery.clear ClearArrayAfterQuery Constraints Res Values Objects) DeclTyped := by
    refine .bind (.modify fun s hs => ?_) fun _ _ => .pure ?_
    · split
      · exact ⟨hs.exprs, hs.versions⟩
      · exact hs
    · rintro _ ⟨⟩ e he
      simp only [Decl.exprs, List.mem_append, List.mem_cons, List.mem_flatMap] at he
      rcases he with (he | rfl | he) | ⟨a, -, he⟩
      · exact hConstraints e he
      · exact hRes
      · exact hValues e he
      · exact typed_constantValues e he
  refine .bind Tok_types fun tok _ => ?_
  split
  · exact hclear
  · exact .bind expectClose_types fun _ _ => hclear

theorem malformedQuery_types {Message : String} {tok : Token} : KeepsTypes (malformedQuery Message tok) DeclTyped :=
  .bind (Error_types _ _) fun _ _ => .bind skipToLevel_types fun _ _ => .pure .none

theorem parseQueryObjects_types {Values : List Expr} {Res : Expr}
    (hConstraints : ∀ e ∈ Constraints, e.Typed) (hRes : Res.Typed) (hValues : ∀ e ∈ Values, e.Typed) :
    KeepsTypes (parseQueryObjects ClearArrayAfterQuery Constraints Res Values) DeclTyped := by
  refine .bind Tok_types fun tok _ => ?_
  split
  · exact finishQuery_types hConstraints hRes hValues
  · split
    · exact malformedQuery_types
    · refine .bind ConsumeLSquare_types fun _ _ => .bind .get fun s _ => .bind (parseObjects_types _) fun r _ => ?_
      split
      · exact .bind ConsumeRSquare_types fun _ _ => finishQuery_types hConstraints hRes hValues
      · exact finishQuery_types hConstraints hRes hValues

theorem parseQueryValues_types {Res : Expr} (hConstraints : ∀ e ∈ Constraints, e.Typed)
    (hRes : Res.Typed) :
    KeepsTypes (parseQueryValues B.construct constArrayOpt ClearArrayAfterQuery Constraints Res) DeclTyped := by
  refine .bind Tok_types fun tok _ => ?_
  split
  · exact finishQuery_types hConstraints hRes nofun
  · split
    · exact malformedQuery_types
    · refine .bind ConsumeLSquare_types fun _ _ => .bind .get fun s _ => ?_
      refine .bind (parseExprs_types B .none _ (List.forall_mem_nil _)) fun r hr => ?_
      split
      · exact .bind ConsumeRSquare_types fun _ _ => parseQueryObjects_types hConstraints hRes hr
      · exact finishQuery_types hConstraints hRes hr

theorem ParseQueryCommand_types :
    KeepsTypes (ParseQueryCommand B.construct constArrayOpt ClearArrayAfterQuery) DeclTyped := by
  have hclear : KeepsTypes (StepM.modify fun s : ParserState => { s with
      ExprSymTab := []
      VersionSymTab := s.ArraySymTab.map fun a => (a.2.Name, ⟨a.2.Root, .nil⟩) }) fun _ => True := by
    refine .modify fun s _ => ⟨nofun, fun x hx => ?_⟩
    obtain ⟨a, -, rfl⟩ := List.mem_map.mp hx
    exact trivial
  refine .bind hclear fun _ _ => .bind ConsumeExpectedToken_types fun _ _ => .bind Tok_types fun tok _ => ?_
  split
  · exact malformedQuery_types
  · refine .bind ConsumeLSquare_types fun _ _ => .bind .get fun s _ => ?_
    refine .bind (parseExprs_types B (.some (by decide)) _ (List.forall_mem_nil _)) fun r hr => ?_
    split
    · refine .bind ConsumeRSquare_types fun _ _ => .bind (ParseExpr_types B (.some (by decide))) fun Res hRes => ?_
      refine .bind (argumentOrZero_types Res hRes (by decide)) fun Res hRes => ?_
      exact parseQueryValues_types B hr hRes.1
    · exact .bind (zero_types (by decide)) fun Res hRes => finishQuery_types hr hRes.1 nofun

theorem ParseCommandDecl_types :
    KeepsTypes (ParseCommandDecl B.construct constArrayOpt ClearArrayAfterQuery) DeclTyped := by
  refine .bind ConsumeLParen_types fun _ _ => .bind Tok_types fun tok _ => ?_
  split
  · exact malformedQuery_types
  · split
    · exact ParseQueryCommand_types B
    · exact malformedQuery_types

theorem parseDecl_types (n : Nat) :
    KeepsTypes (parseDecl B.construct constArrayOpt ClearArrayAfterQuery n) DeclTyped := by
  induction n with
  | zero => exact .fail
  | succ n ih =>
    refine .bind Tok_types fun tok _ => ?_
    split
    · exact .pure .none
    · split
      · refine .bind ParseArrayDecl_types fun d hd => ?_
        cases d with
        | some d => exact .pure hd
        | none => exact ih
      · split
        · refine .bind (ParseCommandDecl_types B) fun d hd => ?_
          cases d with
          | some d => exact .pure hd
          | none => exact ih
        · exact .bind (Error_types _ _) fun _ _ => .bind ConsumeAnyToken_types fun _ _ => ih

theorem ParseTopLevelDecl_types :
    KeepsTypes (ParseTopLevelDecl B.construct constArrayOpt ClearArrayAfterQuery) DeclTyped :=
  .bind .get fun _ _ => parseDecl_types B _

/-- The parser of a text has returned these declarations and is in this state, and its steps were `good`. -/
inductive ParserRun (B : TypedBuilder) (constArrayOpt ClearArrayAfterQuery : Bool) (good : ParserStep → Prop)
    (text : List Char) : List Decl → ParserState → Prop
  | Initialize : ParserRun B constArrayOpt ClearArrayAfterQuery good text [] (Initialize (Lexer.tokens text))
  | ParseTopLevelDecl {ds : List Decl} {d : Option Decl} {s s' : ParserState}
      (hrun : ParserRun B constArrayOpt ClearArrayAfterQuery good text ds s)
      (h : (ParseTopLevelDecl B.construct constArrayOpt ClearArrayAfterQuery s).2 = some (d, s'))
      (hgood : ∀ step ∈ (ParseTopLevelDecl B.construct constArrayOpt ClearArrayAfterQuery s).1, good step) :
      ParserRun B constArrayOpt ClearArrayAfterQuery good text (ds ++ d.toList) s'

theorem ParserRun.typed {text : List Char} {ds : List Decl} {s : ParserState}
    (h : ParserRun B constArrayOpt ClearArrayAfterQuery ParserStep.TypeChecked text ds s) :
    TypedTables s ∧ ∀ d ∈ ds, ∀ e ∈ d.exprs, e.Typed := by
  induction h with
  | Initialize => exact ⟨⟨nofun, nofun⟩, nofun⟩
  | ParseTopLevelDecl _ hcall hchecked ih =>
    obtain ⟨hs, hd⟩ := ParseTopLevelDecl_types B _ ih.1 _ _ hcall hchecked
    refine ⟨hs, fun d hmem => ?_⟩
    rcases List.mem_append.mp hmem with hmem | hmem
    · exact ih.2 d hmem
    · exact hd d (Option.mem_toList.mp hmem)

/-- A query with an extension of four bits to eight. -/
def extensionText : List Char := "(query [] false [(ZExt w8 (w4 1))])".toList

theorem extensionText_eq : extensionText = [
    '(', 'q', 'u', 'e', 'r', 'y', ' ', '[', ']', ' ', 'f', 'a', 'l', 's', 'e', ' ', '[', '(', 'Z', 'E', 'x',
    't', ' ', 'w', '8', ' ', '(', 'w', '4', ' ', '1', ')', ')', ']', ')'] :=
  String.toList_ofList

/-- Values of a query: bits that the operand does not have, an extension to fewer bits, and arms of two widths. -/
def uncheckedText : List Char :=
  "(query [] false [(Extract w9 4294967295 (w32 7)) (ZExt w8 (w32 1)) (Select w32 true false 5)])".toList

theorem uncheckedText_eq : uncheckedText = [
    '(', 'q', 'u', 'e', 'r', 'y', ' ', '[', ']', ' ', 'f', 'a', 'l', 's', 'e', ' ', '[', '(', 'E', 'x', 't',
    'r', 'a', 'c', 't', ' ', 'w', '9', ' ', '4', '2', '9', '4', '9', '6', '7', '2', '9', '5', ' ', '(', 'w',
    '3', '2', ' ', '7', ')', ')', ' ', '(', 'Z', 'E', 'x', 't', ' ', 'w', '8', ' ', '(', 'w', '3', '2', ' ',
    '1', ')', ')', ' ', '(', 'S', 'e', 'l', 'e', 'c', 't', ' ', 'w', '3', '2', ' ', 't', 'r', 'u', 'e', ' ',
    'f', 'a', 'l', 's', 'e', ' ', '5', ')', ']', ')'] :=
  String.toList_ofList

end ParserImpl

end CgsKlee
