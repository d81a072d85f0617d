import CgsKlee.Parser.Parser

/-!
# Recovery from errors

A call of `ParseTopLevelDecl` fails no assertion if and only if each of its steps is one that may be taken (`ParserStep.Ok`):
the parser looks at the token before it consumes one, except in `ParseNumber`, `ParseTypeSpecifier` and the list of arrays
of a query, and it has not checked the operands of what it constructs.  Every call consumes a token unless it is at the
end, so that the calls come to the end of the tokens, and the depths to which the loops and the calls are followed are
enough.
-/

namespace CgsKlee

namespace ParserImpl

open StepM

/-- The step fails no assertion. -/
def ParserStep.Ok (Builder : Expr → Option Expr) (constArrayOpt : Bool) : ParserStep → Prop
  | .expectNumber tok => tok.kind = .number
  | .numberToken type tok => (ParseNumberToken type tok).isSome
  | .typeSpecifier tok => tok.kind = .kwWidth
  | .skipToken tok => tok.kind.isBracket = false
  | .constant w => 0 < w
  | .build node => (Builder node).isSome
  | .add left right => (AddExpr.create constArrayOpt left right).isSome
  | .concat kids => (createN kids).isSome
  | .createArray size values => values = [] ∨ values.length = size % 2 ^ 32 ∧ ∀ v ∈ values, v.width = 8

namespace ParserState

variable (s : ParserState)

theorem remaining_next_le : s.next.remaining ≤ s.remaining := by
  have hdrop := (List.dropWhile_suffix (l := s.tokens.tail) fun t : Token => decide (t.kind = .comment)).length_le
  have htail := List.length_tail (l := s.tokens)
  unfold remaining next
  dsimp only
  omega

theorem remaining_next_lt (h : s.Tok.kind ≠ .endOfFile) : s.next.remaining < s.remaining := by
  have hdrop := (List.dropWhile_suffix (l := s.tokens.tail) fun t : Token => decide (t.kind = .comment)).length_le
  unfold remaining next
  unfold Tok at h
  cases hs : s.tokens with
  | nil => simp [hs] at h
  | cons t rest =>
    rw [hs] at hdrop
    simp only [List.tail_cons, List.length_cons] at hdrop ⊢
    omega

theorem remaining_consume : s.consume.remaining = s.next.remaining := by
  unfold consume
  split <;> rfl

theorem remaining_consume_le : s.consume.remaining ≤ s.remaining := s.remaining_consume.trans_le s.remaining_next_le

theorem remaining_consume_lt (h : s.Tok.kind ≠ .endOfFile) : s.consume.remaining < s.remaining :=
  s.remaining_consume.trans_lt (s.remaining_next_lt h)

theorem consume_of_not_bracket (h : s.Tok.kind.isBracket = false) : s.consume = s.next := by
  unfold consume
  cases hk : s.Tok.kind <;> simp_all [TokenKind.isBracket]

end ParserState

section Tokens

variable {s : ParserState}

theorem Tok_run : Tok s = ([], some (s.Tok, s)) := rfl

theorem Error_run (Message : String) (At : Token) :
    Error Message At s = ([], some ((), { s with errors := s.errors ++ [(Message, At)] })) := rfl

theorem GetOrCreateIdentifier_run {tok : Token} (h : tok.kind = .identifier) :
    GetOrCreateIdentifier tok s = ([], some (tok.text, s)) := by
  unfold GetOrCreateIdentifier
  rw [run_bind (assert_run h)]
  rfl

theorem ConsumeToken_run (h : s.Tok.kind.isBracket = false) : ConsumeToken s = ([], some ((), s.consume)) := by
  unfold ConsumeToken
  rw [run_bind Tok_run, run_bind (assert_run h), s.consume_of_not_bracket h]
  rfl

theorem _ConsumeExpectedToken_run {k : TokenKind} (h : s.Tok.kind = k) :
    _ConsumeExpectedToken k s = ([], some ((), s.next)) := by
  unfold _ConsumeExpectedToken
  rw [run_bind Tok_run, run_bind (assert_run h)]
  rfl

theorem ConsumeExpectedToken_run {k : TokenKind} (h : s.Tok.kind = k) (hk : k.isBracket = false) :
    ConsumeExpectedToken k s = ([], some ((), s.consume)) := by
  subst h
  unfold ConsumeExpectedToken
  rw [run_bind Tok_run, run_bind (assert_run hk), _ConsumeExpectedToken_run rfl, s.consume_of_not_bracket hk]

theorem ConsumeLParen_run (h : s.Tok.kind = .lParen) : ConsumeLParen s = ([], some ((), s.consume)) := by
  have hconsume : s.consume = { s with ParenLevel := s.ParenLevel + 1 }.next := by simp [ParserState.consume, h]
  rw [hconsume]
  exact (run_bind rfl).trans (_ConsumeExpectedToken_run h)

theorem ConsumeRParen_run (h : s.Tok.kind = .rParen) : ConsumeRParen s = ([], some ((), s.consume)) := by
  have hconsume : s.consume = { s with ParenLevel := s.ParenLevel - 1 }.next := by simp [ParserState.consume, h]
  rw [hconsume]
  exact (run_bind rfl).trans (_ConsumeExpectedToken_run h)

theorem ConsumeLSquare_run (h : s.Tok.kind = .lSquare) : ConsumeLSquare s = ([], some ((), s.consume)) := by
  have hconsume : s.consume = { s with SquareLevel := s.SquareLevel + 1 }.next := by simp [ParserState.consume, h]
  rw [hconsume]
  exact (run_bind rfl).trans (_ConsumeExpectedToken_run h)

theorem ConsumeRSquare_run (h : s.Tok.kind = .rSquare) : ConsumeRSquare s = ([], some ((), s.consume)) := by
  have hconsume : s.consume = { s with SquareLevel := s.SquareLevel - 1 }.next := by simp [ParserState.consume, h]
  rw [hconsume]
  exact (run_bind rfl).trans (_ConsumeExpectedToken_run h)

theorem ConsumeAnyToken_run : ConsumeAnyToken s = ([], some ((), s.consume)) := by
  unfold ConsumeAnyToken
  rw [run_bind Tok_run]
  cases hk : s.Tok.kind
  case lParen => exact ConsumeLParen_run hk
  case rParen => exact ConsumeRParen_run hk
  case lSquare => exact ConsumeLSquare_run hk
  case rSquare => exact ConsumeRSquare_run hk
  all_goals exact ConsumeToken_run (by rw [hk]; rfl)

end Tokens

section Recovery

variable {Builder : Expr → Option Expr} {constArrayOpt : Bool} {s : ParserState} {m n : Nat} {α β : Type}

/-- No assertion fails but at a step, and at most `m` tokens are left. -/
abbrev Within (Builder : Expr → Option Expr) (constArrayOpt : Bool) (m : Nat) (x : ParserM α) (s : ParserState) : Prop :=
  Recovers (ParserStep.Ok Builder constArrayOpt) x s fun _ s' => s'.remaining ≤ m

theorem consume_le (h : s.remaining ≤ m) : s.consume.remaining ≤ m := s.remaining_consume_le.trans h

theorem skipUntil_within {k : TokenKind} {Level : Nat} (hn : s.remaining < n) (h : s.remaining ≤ m) :
    Within Builder constArrayOpt m (skipUntil k Level n) s := by
  induction n generalizing s with
  | zero => omega
  | succ n ih =>
    unfold skipUntil
    refine .after rfl ?_
    split
    · exact .pure h
    · rename_i hend
      split
      · exact .done ConsumeAnyToken_run (consume_le h)
      · refine .after ConsumeAnyToken_run (ih ?_ (consume_le h))
        have := s.remaining_consume_lt hend
        omega

theorem skipToLevel_within {k : TokenKind} (h : s.remaining ≤ m) : Within Builder constArrayOpt m (skipToLevel k) s :=
  .after rfl (skipUntil_within (Nat.lt_succ_self _) h)

theorem expectClose_within {k : TokenKind} {atEnd Msg : String} (h : s.remaining ≤ m) :
    Within Builder constArrayOpt m (expectClose k atEnd Msg) s := by
  unfold expectClose
  refine .after Tok_run ?_
  split
  · exact .done (Error_run _ _) h
  · split
    · exact .done ConsumeAnyToken_run (consume_le h)
    · exact .after (Error_run _ _) (skipToLevel_within h)

theorem ExpectRParen_within {Msg : String} (h : s.remaining ≤ m) :
    Within Builder constArrayOpt m (ExpectRParen Msg) s := expectClose_within h

theorem Constant_isSome {v w : Nat} : (Constant v w).isSome = true ↔ 0 < w := by
  unfold Constant
  split <;> simp [*]

theorem Constant_width {v w : Nat} {c : APInt} (h : Constant v w = some c) : c.width = w := by
  unfold Constant at h
  split at h
  · cases h
    rfl
  · cases h

variable {type : Nat} {Name : Token} {Size : Option Nat} {Values : List APInt}

theorem resize_width {bits : Nat} {v : BitVec bits} {c : APInt} (h : resize v type = some c) : c.width = type := by
  unfold resize at h
  split at h
  · cases h
    rfl
  · cases h

theorem ParseNumberToken_width {tok : Token} {r : APInt × Option String}
    (h : ParseNumberToken type tok = some r) : r.1.width = type := by
  unfold ParseNumberToken at h
  generalize splitSign tok.text = signed at h
  obtain ⟨text, hasMinus⟩ := signed
  dsimp only at h
  generalize splitRadix text = number at h
  obtain ⟨digits, radix, radixBits⟩ := number
  dsimp only at h
  split at h
  · obtain ⟨c, hc, rfl⟩ := Option.map_eq_some_iff.mp h
    exact Constant_width hc
  · split at h
    · cases h
    · split at h
      · obtain ⟨c, hc, rfl⟩ := Option.map_eq_some_iff.mp h
        exact Constant_width hc
      · obtain ⟨c, hc, rfl⟩ := Option.map_eq_some_iff.mp h
        exact resize_width hc

theorem constant_within {v w : Nat} (h : s.remaining ≤ m) : Within Builder constArrayOpt m (constant v w) s :=
  .bind (.call Constant_isSome fun _ _ => h) fun _ _ h => .pure h

theorem build_within {node : Expr} (h : s.remaining ≤ m) : Within Builder constArrayOpt m (build Builder node) s :=
  .call Iff.rfl fun _ _ => h

theorem argumentOrZero_within {w : Nat} (e : Option Expr) (h : s.remaining ≤ m) :
    Within Builder constArrayOpt m (argumentOrZero w e) s := by
  cases e with
  | none => exact constant_within h
  | some e => exact .pure h

theorem parseNumberToken_recovers {tok : Token} :
    Recovers (ParserStep.Ok Builder constArrayOpt) (parseNumberToken type tok) s fun c s' =>
      s'.tokens = s.tokens ∧ c.width = type := by
  unfold parseNumberToken
  refine .bind (Q := fun r s' => s' = s ∧ r.1.width = type) (.call Iff.rfl fun r hr => ⟨rfl, ParseNumberToken_width hr⟩) ?_
  rintro r _ ⟨rfl, hw⟩
  split
  · exact .after (Error_run _ _) (.pure ⟨rfl, hw⟩)
  · exact .pure ⟨rfl, hw⟩

theorem ParseNumber_recovers (h : s.next.remaining ≤ m) :
    Recovers (ParserStep.Ok Builder constArrayOpt) (ParseNumber type) s fun c s' => s'.remaining ≤ m ∧ c.width = type := by
  unfold ParseNumber
  refine .after Tok_run (.bind parseNumberToken_recovers ?_)
  rintro c s₁ ⟨htokens, hw⟩
  have hTok : s₁.Tok = s.Tok := by
    unfold ParserState.Tok
    rw [htokens]
  have hnext : s₁.next.remaining = s.next.remaining := by
    unfold ParserState.remaining ParserState.next
    rw [htokens]
  refine .bind (Q := fun _ s' => s' = s₁ ∧ s.Tok.kind = .number) (.check Iff.rfl fun hnumber => ⟨rfl, hnumber⟩) ?_
  rintro _ _ ⟨rfl, hnumber⟩
  refine .after (ConsumeExpectedToken_run ((congrArg Token.kind hTok).trans hnumber) rfl) (.pure ⟨?_, hw⟩)
  rw [ParserState.remaining_consume, hnext]
  exact h

theorem ParseNumber_within (h : s.next.remaining ≤ m) :
    Within Builder constArrayOpt m (ParseNumber type) s := (ParseNumber_recovers h).mono fun _ _ h => h.1

theorem ParseIntegerConstant_within (h : s.remaining ≤ m) :
    Within Builder constArrayOpt m (ParseIntegerConstant type) s := by
  unfold ParseIntegerConstant
  refine .bind (ParseNumber_recovers (s.remaining_next_le.trans h)) ?_
  rintro c s₁ ⟨h₁, hw⟩
  exact .after (assert_run hw.le) (.pure h₁)

theorem ParseTypeSpecifier_within (h : s.remaining ≤ m) : Within Builder constArrayOpt m ParseTypeSpecifier s := by
  unfold ParseTypeSpecifier
  refine .after Tok_run ?_
  refine .bind (Q := fun _ s' => s' = s ∧ s.Tok.kind = .kwWidth) (.check Iff.rfl fun hwidth => ⟨rfl, hwidth⟩) ?_
  rintro _ _ ⟨rfl, hwidth⟩
  exact .after (ConsumeToken_run (by rw [hwidth]; rfl)) (.pure (consume_le h))

section Productions

variable {ParseExpr : Option Nat → ParserM (Option Expr)} {ParseVersionSpecifier : ParserM (Option VersionHandle)}

/-- With less than `n` tokens the calls of `ParseExpr` recover.  They consume a token, unless they are at the end, where
there is no expression. -/
def ExprRecovers (Builder : Expr → Option Expr) (constArrayOpt : Bool) (n : Nat)
    (ParseExpr : Option Nat → ParserM (Option Expr)) : Prop :=
  ∀ t s, s.remaining < n → Recovers (ParserStep.Ok Builder constArrayOpt) (ParseExpr t) s fun r s' =>
    s'.remaining ≤ s.remaining ∧ (s.Tok.kind ≠ .endOfFile → s'.remaining < s.remaining) ∧
      (s.Tok.kind = .endOfFile → r = none)

def VersionRecovers (Builder : Expr → Option Expr) (constArrayOpt : Bool) (n : Nat)
    (ParseVersionSpecifier : ParserM (Option VersionHandle)) : Prop :=
  ∀ s, s.remaining < n → Within Builder constArrayOpt s.remaining ParseVersionSpecifier s

theorem ExprRecovers.within (hE : ExprRecovers Builder constArrayOpt n ParseExpr) (hm : m < n) {t : Option Nat}
    (h : s.remaining ≤ m) : Within Builder constArrayOpt m (ParseExpr t) s :=
  (hE t s (h.trans_lt hm)).mono fun _ _ hpost => hpost.1.trans h

theorem VersionRecovers.within (hV : VersionRecovers Builder constArrayOpt n ParseVersionSpecifier) (hm : m < n)
    (h : s.remaining ≤ m) : Within Builder constArrayOpt m ParseVersionSpecifier s :=
  (hV s (h.trans_lt hm)).mono fun _ _ hpost => hpost.trans h

variable (hE : ExprRecovers Builder constArrayOpt n ParseExpr)
  (hV : VersionRecovers Builder constArrayOpt n ParseVersionSpecifier) (hm : m < n)

include hE hm

theorem ParseNumberOrExpr_within (h : s.remaining ≤ m) :
    Within Builder constArrayOpt m (ParseNumberOrExpr ParseExpr) s := by
  unfold ParseNumberOrExpr
  refine .after Tok_run ?_
  split
  · rename_i hnumber
    exact .after (ConsumeToken_run (by rw [hnumber]; rfl)) (.pure (consume_le h))
  · exact .bind (hE.within hm h) fun _ _ h₁ => .pure h₁

variable {Name : Token} {ResTy : Nat} {type : Option Nat}

theorem ParseUnaryParenExpr_within {Kind : UnaryKind} {IsFixed : Bool}
    (h : s.remaining ≤ m) :
    Within Builder constArrayOpt m (ParseUnaryParenExpr Builder ParseExpr Name Kind IsFixed ResTy) s := by
  unfold ParseUnaryParenExpr
  refine .after Tok_run ?_
  split
  · exact .after (Error_run _ _) (.after (ConsumeRParen_run ‹_›) (constant_within (consume_le h)))
  · refine .bind (hE.within hm h) fun Arg _ h₁ => ?_
    refine .bind (argumentOrZero_within Arg h₁) fun E _ h₂ => ?_
    exact .bind (ExpectRParen_within h₂) fun _ _ h₃ => build_within h₃

theorem parseSecondArg_within (first : NumberOrExprResult) (h : s.remaining ≤ m) :
    Within Builder constArrayOpt m (parseSecondArg ParseExpr Name first) s := by
  cases first with
  | number num =>
    refine .bind (ParseNumberOrExpr_within hE hm h) fun second s₁ h₁ => ?_
    cases second with
    | number tok => exact .after (Error_run _ _) (.pure h₁)
    | expr Res =>
      cases Res with
      | none => exact .pure h₁
      | some RHS =>
        refine .bind parseNumberToken_recovers ?_
        rintro LHS s₂ ⟨htokens, -⟩
        exact .pure ((congrArg List.length htokens).trans_le h₁)
  | expr Res =>
    cases Res with
    | none => exact .bind (hE.within hm h) fun _ _ h₁ => .pure h₁
    | some LHS => exact .bind (hE.within hm h) fun _ _ h₁ => .pure h₁

theorem ParseMatchedBinaryArgs_within {ExpectType : Option Nat} (h : s.remaining ≤ m) :
    Within Builder constArrayOpt m (ParseMatchedBinaryArgs ParseExpr Name ExpectType) s := by
  unfold ParseMatchedBinaryArgs
  refine .after Tok_run ?_
  split
  · exact .after (Error_run _ _) (.after (ConsumeRParen_run ‹_›) (.pure (consume_le h)))
  · cases ExpectType with
    | some type =>
      refine .bind (hE.within hm h) fun LHS s₁ h₁ => .after Tok_run ?_
      split
      · exact .after (Error_run _ _) (.after (ConsumeRParen_run ‹_›) (.pure (consume_le h₁)))
      · refine .bind (hE.within hm h₁) fun RHS _ h₂ => ?_
        exact .bind (ExpectRParen_within h₂) fun _ _ h₃ => .pure h₃
    | none =>
      refine .bind (ParseNumberOrExpr_within hE hm h) fun LHS s₁ h₁ => .after Tok_run ?_
      split
      · exact .after (Error_run _ _) (.after (ConsumeRParen_run ‹_›) (.pure (consume_le h₁)))
      · refine .bind (parseSecondArg_within hE hm LHS h₁) fun args _ h₂ => ?_
        exact .bind (ExpectRParen_within h₂) fun _ _ h₃ => .pure h₃

theorem ParseBinaryParenExpr_within {Kind : PairKind} {IsFixed : Bool}
    (h : s.remaining ≤ m) :
    Within Builder constArrayOpt m (ParseBinaryParenExpr Builder ParseExpr Name Kind IsFixed ResTy) s := by
  refine .bind (ParseMatchedBinaryArgs_within hE hm h) fun args s₁ h₁ => ?_
  obtain ⟨LHS, RHS⟩ := args
  cases LHS with
  | none => exact constant_within h₁
  | some LHS =>
    cases RHS with
    | none => exact constant_within h₁
    | some RHS =>
      dsimp only
      split
      · exact .after (Error_run _ _) (constant_within h₁)
      · exact build_within h₁

theorem ParseSelectParenExpr_within (h : s.remaining ≤ m) :
    Within Builder constArrayOpt m (ParseSelectParenExpr Builder ParseExpr Name ResTy) s := by
  unfold ParseSelectParenExpr
  refine .after Tok_run ?_
  split
  · exact .after (Error_run _ _) (.after (ConsumeRParen_run ‹_›) (constant_within (consume_le h)))
  · refine .bind (hE.within hm h) fun Cond _ h₁ => ?_
    refine .bind (ParseMatchedBinaryArgs_within hE hm h₁) fun args _ h₂ => ?_
    split
    · exact build_within h₂
    · exact constant_within h₂

theorem parseKids_recovers {k Width : Nat} {Kids : List Expr} (hk : s.remaining < k) (h : s.remaining ≤ m) :
    Recovers (ParserStep.Ok Builder constArrayOpt) (parseKids ParseExpr k Kids Width) s fun r s' =>
      s'.remaining ≤ m ∧ (r ≠ none → s'.Tok.kind = .rParen) := by
  induction k generalizing s Width Kids with
  | zero => omega
  | succ k ih =>
    unfold parseKids
    refine .after Tok_run ?_
    split
    · rename_i hparen
      exact .pure ⟨h, fun _ => hparen⟩
    · refine .bind (hE none s (h.trans_lt hm)) fun r s₁ h₁ => ?_
      cases r with
      | none => exact .bind (skipToLevel_within (h₁.1.trans h)) fun _ _ h₂ => .pure ⟨h₂, fun hne => absurd rfl hne⟩
      | some E =>
        have hlt : s₁.remaining < s.remaining := h₁.2.1 fun hend => nomatch h₁.2.2 hend
        exact ih (by omega) (by omega)

theorem ParseConcatParenExpr_within (h : s.remaining ≤ m) :
    Within Builder constArrayOpt m (ParseConcatParenExpr ParseExpr ResTy) s := by
  unfold ParseConcatParenExpr
  refine .after rfl (.bind (parseKids_recovers hE hm (Nat.lt_succ_self _) h) fun r s₁ h₁ => ?_)
  cases r with
  | none => exact constant_within h₁.1
  | some r =>
    refine .after (ConsumeRParen_run (h₁.2 nofun)) ?_
    split
    · exact .after Tok_run (.after (Error_run _ _) (constant_within (consume_le h₁.1)))
    · exact .call Iff.rfl fun _ _ => consume_le h₁.1

theorem ParseExtractParenExpr_within (h : s.remaining ≤ m) :
    Within Builder constArrayOpt m (ParseExtractParenExpr Builder ParseExpr Name ResTy) s := by
  unfold ParseExtractParenExpr
  refine .bind (ParseIntegerConstant_within h) fun Offset _ h₁ => ?_
  refine .bind (hE.within hm h₁) fun Child _ h₂ => ?_
  refine .bind (ExpectRParen_within h₂) fun _ _ h₃ => ?_
  cases Child with
  | none => exact constant_within h₃
  | some Child =>
    dsimp only
    split
    · exact .after (Error_run _ _) (constant_within h₃)
    · exact build_within h₃

omit hE hm in
theorem offsetIndex_within {Index : Expr} {i : Nat} (h : s.remaining ≤ m) :
    Within Builder constArrayOpt m (offsetIndex constArrayOpt Index i) s := by
  unfold offsetIndex
  split
  · exact .pure h
  · exact .bind (constant_within h) fun _ _ h₁ => .call Iff.rfl fun _ _ => h₁

omit hE hm in
theorem readBytes_within {Array : VersionHandle} {Index : Expr} {k i : Nat} (h : s.remaining ≤ m) :
    Within Builder constArrayOpt m (readBytes Builder constArrayOpt Array Index k i) s := by
  induction k generalizing s i with
  | zero => exact .pure h
  | succ k ih =>
    refine .bind (offsetIndex_within h) fun _ _ h₁ => .bind (build_within h₁) fun _ _ h₂ => ?_
    exact .bind (ih h₂) fun _ _ h₃ => .pure h₃

omit hE hm in
theorem buildReads_within {Kind : ReadKind} {Array : VersionHandle} {Index : Expr}
    (h : s.remaining ≤ m) :
    Within Builder constArrayOpt m (buildReads Builder constArrayOpt Name Kind ResTy Array Index) s := by
  unfold buildReads
  split
  · exact build_within h
  · split
    · exact .after (Error_run _ _) (constant_within h)
    · exact .bind (readBytes_within h) fun _ _ h₁ => .call Iff.rfl fun _ _ => h₁

omit hE hm in
theorem coerce_recovers {type : Nat} (operand : NumberOrExprResult) (h : s.remaining ≤ m) :
    Recovers (ParserStep.Ok Builder constArrayOpt) (coerce type operand) s fun r s' =>
      s'.remaining ≤ m ∧ ∀ tok, operand = .number tok → ∀ e, r = some e → e.width = type := by
  cases operand with
  | number tok =>
    refine .bind parseNumberToken_recovers ?_
    rintro c s₁ ⟨htokens, hw⟩
    refine .pure ⟨(congrArg List.length htokens).trans_le h, ?_⟩
    rintro _ _ _ ⟨⟩
    exact hw
  | expr Res => exact .pure ⟨h, nofun⟩

include hV in
theorem ParseAnyReadParenExpr_within {Kind : ReadKind} (h : s.remaining ≤ m) :
    Within Builder constArrayOpt m
      (ParseAnyReadParenExpr Builder constArrayOpt ParseExpr ParseVersionSpecifier Name Kind ResTy) s := by
  unfold ParseAnyReadParenExpr
  refine .bind (ParseNumberOrExpr_within hE hm h) fun Index _ h₁ => ?_
  refine .bind (hV.within hm h₁) fun Array _ h₂ => ?_
  refine .bind (ExpectRParen_within h₂) fun _ _ h₃ => ?_
  cases Array with
  | none => exact constant_within h₃
  | some Array =>
    refine .bind (coerce_recovers Index h₃) fun IndexExpr _ h₄ => ?_
    cases IndexExpr with
    | none => exact constant_within h₄.1
    | some IndexExpr =>
      dsimp only
      split
      · exact .after Tok_run (.after (Error_run _ _) (constant_within h₄.1))
      · exact buildReads_within h₄.1

include hV in
theorem parseKind_within {info : ParenKind × Bool} (h : s.remaining ≤ m) :
    Within Builder constArrayOpt m
      (parseKind Builder constArrayOpt ParseExpr ParseVersionSpecifier Name ResTy info) s := by
  unfold parseKind
  split
  · exact ParseUnaryParenExpr_within hE hm h
  · exact ParseBinaryParenExpr_within hE hm h
  · exact ParseSelectParenExpr_within hE hm h
  · exact ParseConcatParenExpr_within hE hm h
  · exact ParseExtractParenExpr_within hE hm h
  · exact ParseAnyReadParenExpr_within hE hV hm h

omit hE hm in
theorem parseCoercion_within (h : s.remaining ≤ m) : Within Builder constArrayOpt m parseCoercion s := by
  unfold parseCoercion
  refine .bind (ParseTypeSpecifier_within h) fun type s₁ h₁ => .after Tok_run ?_
  split
  · exact .after (Error_run _ _) (.bind (skipToLevel_within h₁) fun _ _ h₂ => .pure h₂)
  · refine .bind (ParseNumber_within (s₁.remaining_next_le.trans h₁)) fun _ _ h₂ => ?_
    exact .bind (ExpectRParen_within h₂) fun _ _ h₃ => .pure h₃

omit hE hm in
theorem parseResultType_within (h : s.remaining ≤ m) : Within Builder constArrayOpt m parseResultType s := by
  unfold parseResultType
  refine .after Tok_run ?_
  split
  · exact ParseTypeSpecifier_within h
  · exact .pure h

include hV in
theorem ParseParenExpr_within (h : s.next.remaining ≤ m) :
    Within Builder constArrayOpt m (ParseParenExpr Builder constArrayOpt ParseExpr ParseVersionSpecifier) s := by
  have hconsume : s.consume.remaining ≤ m := s.remaining_consume.trans_le h
  unfold ParseParenExpr
  refine .after Tok_run ?_
  split
  · refine .after (Error_run _ _) (.after ConsumeAnyToken_run (.pure ?_))
    rw [ParserState.remaining_consume]
    exact h
  · rename_i hparen
    refine .after (ConsumeLParen_run (not_not.mp hparen)) (.after Tok_run ?_)
    split
    · exact parseCoercion_within hconsume
    · split
      · exact .after (Error_run _ _) (.bind (skipToLevel_within hconsume) fun _ _ h₁ => .pure h₁)
      · rename_i hname
        have hident := not_not.mp hname
        refine .after (ConsumeToken_run (by rw [hident]; rfl)) ?_
        refine .bind (parseResultType_within (consume_le hconsume)) fun ResTy s₁ h₁ => ?_
        refine .after (run_bind (assert_run hident)) ?_
        split
        · exact .after (Error_run _ _) (.bind (skipToLevel_within h₁) fun _ _ h₂ => .pure h₂)
        · exact .bind (parseKind_within hE hV hm h₁) fun _ _ h₂ => .pure h₂

include hV

theorem parseLabelled_within {Label : Option (List Char)} (h : s.next.remaining ≤ m) :
    Within Builder constArrayOpt m
      (parseLabelled Builder constArrayOpt ParseExpr ParseVersionSpecifier type Label) s := by
  unfold parseLabelled
  refine .after Tok_run (.bind (ParseParenExpr_within hE hV hm h) fun Res s₁ h₁ => ?_)
  cases Res with
  | none =>
    cases type with
    | none => exact .pure h₁
    | some type =>
      cases Label with
      | none => exact .pure h₁
      | some Label => exact .bind (constant_within h₁) fun _ _ h₂ => .after rfl (.pure h₂)
  | some Res =>
    dsimp only
    split
    · exact .after (Error_run _ _) (.pure h₁)
    · cases Label with
      | none => exact .pure h₁
      | some Label => exact .after rfl (.pure h₁)

theorem parseLabel_within {LTok : Token} {Label : List Char} (h : s.remaining ≤ m) :
    Within Builder constArrayOpt m
      (parseLabel Builder constArrayOpt ParseExpr ParseVersionSpecifier type LTok Label) s := by
  unfold parseLabel
  refine .after rfl ?_
  split
  · split
    · exact .after (Error_run _ _) (.pure h)
    · exact .pure h
  · rename_i hcolon
    refine .after (ConsumeToken_run (by rw [not_not.mp hcolon]; rfl)) ?_
    have hnext : s.consume.next.remaining ≤ m := s.consume.remaining_next_le.trans (consume_le h)
    split
    · exact .after (Error_run _ _) (parseLabelled_within hE hV hm hnext)
    · exact parseLabelled_within hE hV hm hnext

theorem parseExprBody_within (hend : s.Tok.kind ≠ .endOfFile) (h : s.next.remaining ≤ m) :
    Within Builder constArrayOpt m
      (parseExprBody Builder constArrayOpt ParseExpr ParseVersionSpecifier type) s := by
  have hconsume : s.consume.remaining ≤ m := s.remaining_consume.trans_le h
  unfold parseExprBody
  refine .after Tok_run ?_
  rw [if_neg hend]
  split
  · rename_i hvalue
    refine .after (ConsumeToken_run ?_) (.bind (constant_within hconsume) fun _ _ h₁ => .pure h₁)
    rcases hvalue with hvalue | hvalue <;> rw [hvalue] <;> rfl
  · split
    · rename_i hnumber
      cases type with
      | none =>
        refine .after (Error_run _ _) (.after (ConsumeToken_run (show s.Tok.kind.isBracket = false by rw [hnumber]; rfl)) (.pure ?_))
        rw [ParserState.remaining_consume]
        exact h
      | some type => exact .bind (ParseNumber_within h) fun _ _ h₁ => .pure h₁
    · split
      · rename_i hident
        refine .after (GetOrCreateIdentifier_run hident) (.after (ConsumeToken_run (by rw [hident]; rfl)) ?_)
        exact parseLabel_within hE hV hm hconsume
      · exact parseLabelled_within hE hV hm h

omit hm in
theorem parseExprBody_recovers :
    ExprRecovers Builder constArrayOpt (n + 1)
      (parseExprBody Builder constArrayOpt ParseExpr ParseVersionSpecifier) := by
  intro type s hs
  by_cases hend : s.Tok.kind = .endOfFile
  · unfold parseExprBody
    refine .after Tok_run ?_
    rw [if_pos hend]
    exact .after (Error_run _ _) (.pure ⟨le_rfl, fun hne => absurd hend hne, fun _ => rfl⟩)
  · have hlt := s.remaining_next_lt hend
    refine (parseExprBody_within hE hV (by omega) hend le_rfl).mono fun _ s' h' => ?_
    exact ⟨by omega, fun _ => by omega, fun h => absurd h hend⟩

omit hV in
theorem parseWrites_within {k : Nat} {Writes : List WriteInfo} (hk : s.remaining < k) (h : s.remaining ≤ m) :
    Within Builder constArrayOpt m (parseWrites ParseExpr k Writes) s := by
  induction k generalizing s Writes m with
  | zero => omega
  | succ k ih =>
    unfold parseWrites
    refine .after Tok_run (.bind (ParseNumberOrExpr_within hE (m := s.remaining) (by omega) le_rfl) fun LHS s₁ h₁ => ?_)
    refine .after Tok_run ?_
    split
    · exact .after (Error_run _ _) (.pure (h₁.trans h))
    · rename_i hequals
      have hkind := not_not.mp hequals
      have hlt := s₁.remaining_consume_lt (by rw [hkind]; nofun)
      refine .after (ConsumeToken_run (by rw [hkind]; rfl)) (.after Tok_run ?_)
      refine .bind (ParseNumberOrExpr_within hE (m := s₁.consume.remaining) (by omega) le_rfl) fun RHS s₂ h₂ => ?_
      refine .after Tok_run ?_
      split
      · rename_i hcomma
        have hle := s₂.remaining_consume_le
        exact .after (ConsumeToken_run (by rw [hcomma]; rfl)) (ih hm (by omega) (by omega))
      · exact .pure (by omega)

omit hE hV hm in
theorem coerceWrite_recovers {type : Nat} {Message : String} {At : Token} (htype : type < 2 ^ 32)
    (operand : NumberOrExprResult) (h : s.remaining ≤ m) :
    Recovers (ParserStep.Ok Builder constArrayOpt) (coerceWrite type Message At operand) s fun r s' =>
      s'.remaining ≤ m ∧ ∀ e, r = some e → getWidth e = type := by
  unfold coerceWrite
  refine .bind (coerce_recovers operand h) fun r s₁ h₁ => ?_
  cases operand with
  | number tok =>
    refine .pure ⟨h₁.1, fun e he => ?_⟩
    unfold getWidth
    rw [h₁.2 tok rfl e he, Nat.mod_eq_of_lt htype]
  | expr Res =>
    cases r with
    | none => exact .pure ⟨h₁.1, nofun⟩
    | some e =>
      dsimp only
      split
      · exact .after (Error_run _ _) (.pure ⟨h₁.1, nofun⟩)
      · rename_i hwidth
        refine .pure ⟨h₁.1, ?_⟩
        rintro _ ⟨⟩
        exact not_not.mp hwidth

omit hE hV hm in
theorem VersionHandle.extend_eq (u : VersionHandle) {index value : Expr} (hindex : getWidth index = 32)
    (hvalue : getWidth value = 8) : u.extend index value = some ⟨u.root, .cons index value u.head⟩ :=
  if_pos ⟨u.root.2.1.trans hindex.symm, u.root.2.2.trans hvalue.symm⟩

omit hE hV hm in
theorem extendAll_within (Writes : List WriteInfo) {Base : VersionHandle} (h : s.remaining ≤ m) :
    Within Builder constArrayOpt m (extendAll Writes Base) s := by
  induction Writes generalizing s Base with
  | nil => exact .pure h
  | cons WI Writes ih =>
    refine .bind (coerceWrite_recovers (by decide) WI.LHS h) fun LHS s₁ h₁ => ?_
    refine .bind (coerceWrite_recovers (by decide) WI.RHS h₁.1) fun RHS s₂ h₂ => ?_
    cases LHS with
    | none => exact ih h₂.1
    | some LHS =>
      cases RHS with
      | none => exact ih h₂.1
      | some RHS =>
        dsimp only
        rw [Base.extend_eq (h₁.2 LHS rfl) (h₂.2 RHS rfl)]
        exact .after rfl (ih h₂.1)

omit hm in
theorem ParseVersion_within (hm : m < n + 1) (h : s.remaining ≤ m) :
    Within Builder constArrayOpt m (ParseVersion ParseExpr ParseVersionSpecifier) s := by
  unfold ParseVersion
  refine .after Tok_run ?_
  split
  · exact .pure h
  · rename_i hsquare
    have hkind := not_not.mp hsquare
    have hlt := s.remaining_consume_lt (by rw [hkind]; nofun)
    -- behind the bracket there is one token less
    suffices Within Builder constArrayOpt (m - 1) _ s from this.mono fun _ _ h₁ => by omega
    have hm' : m - 1 < n := by omega
    have hconsume : s.consume.remaining ≤ m - 1 := by omega
    refine .after (ConsumeLSquare_run hkind) (.after rfl ?_)
    refine .bind (parseWrites_within hE hm' (Nat.lt_succ_self _) hconsume) fun Writes s₁ h₁ => ?_
    refine .bind (expectClose_within h₁) fun _ s₂ h₂ => .after Tok_run ?_
    split
    · exact .after (Error_run _ _) (.pure h₂)
    · rename_i hat
      refine .after (ConsumeExpectedToken_run (not_not.mp hat) rfl) ?_
      refine .bind (hV.within hm' (consume_le h₂)) fun Base s₃ h₃ => ?_
      cases Base with
      | none => exact .pure h₃
      | some Base => exact .bind (extendAll_within _ h₃) fun _ _ h₄ => .pure h₄

omit hE hV hm in
theorem createArray_isSome {arrays : List (List Char × ParsedArray)} {name : List Char} {size : Nat}
    {values : List APInt} : (createArray arrays name size values).isSome = true ↔
      values = [] ∨ values.length = size % 2 ^ 32 ∧ ∀ v ∈ values, v.width = 8 := by
  unfold createArray
  dsimp only
  split
  · rename_i hvalues
    refine iff_of_true ?_ (.inl hvalues)
    split <;> rfl
  · rename_i hvalues
    rw [or_iff_right hvalues]
    split
    · exact iff_of_true rfl ‹_›
    · exact iff_of_false nofun ‹_›

omit hE hV hm in
theorem CreateArray_within {name : List Char} {size : Nat} {values : List APInt} (h : s.remaining ≤ m) :
    Within Builder constArrayOpt m (CreateArray name size values) s :=
  .after rfl (.bind (.call createArray_isSome fun _ _ => h) fun _ _ h₁ => .after rfl (.pure h₁))

omit hm in
theorem parseLabelledVersion_within {Label : Option (List Char)} (hm : m < n + 1) (h : s.remaining ≤ m) :
    Within Builder constArrayOpt m (parseLabelledVersion ParseExpr ParseVersionSpecifier Label) s := by
  have hdefine : ∀ {Res : VersionHandle} {s' : ParserState}, s'.remaining ≤ m →
      Within Builder constArrayOpt m (parseLabelledVersion.define Label Res) s' := by
    intro Res s' h'
    cases Label with
    | none => exact .pure h'
    | some Label => exact .after rfl (.pure h')
  unfold parseLabelledVersion
  refine .bind (ParseVersion_within hE hV hm h) fun Res s₁ h₁ => ?_
  cases Res with
  | none => exact .bind (CreateArray_within h₁) fun _ _ h₂ => hdefine h₂
  | some Res => exact hdefine h₁

omit hm in
theorem parseVersionSpecifierBody_recovers :
    VersionRecovers Builder constArrayOpt (n + 1) (parseVersionSpecifierBody ParseExpr ParseVersionSpecifier) := by
  intro s hs
  have hconsume := s.remaining_consume_le
  unfold parseVersionSpecifierBody
  refine .after Tok_run ?_
  split
  · rename_i hident
    refine .after (GetOrCreateIdentifier_run hident) (.after (ConsumeToken_run (by rw [hident]; rfl)) (.after rfl ?_))
    split
    · split
      · exact .after (Error_run _ _) (.pure hconsume)
      · exact .pure hconsume
    · rename_i hcolon
      refine .after (ConsumeToken_run (by rw [not_not.mp hcolon]; rfl)) ?_
      split
      · exact .after (Error_run _ _) (parseLabelledVersion_within hE hV hs (consume_le hconsume))
      · exact parseLabelledVersion_within hE hV hs (consume_le hconsume)
  · exact parseLabelledVersion_within hE hV hs le_rfl

end Productions

theorem bounded_recovers (n : Nat) : ExprRecovers Builder constArrayOpt n (parseExprBounded Builder constArrayOpt n) ∧
    VersionRecovers Builder constArrayOpt n (parseVersionBounded Builder constArrayOpt n) := by
  induction n with
  | zero => exact ⟨fun _ _ h => absurd h (Nat.not_lt_zero _), fun _ h => absurd h (Nat.not_lt_zero _)⟩
  | succ n ih => exact ⟨parseExprBody_recovers ih.1 ih.2, parseVersionSpecifierBody_recovers ih.1 ih.2⟩

theorem ParseExpr_recovers : ExprRecovers Builder constArrayOpt n (ParseExpr Builder constArrayOpt) := by
  intro type s _
  exact .after rfl ((bounded_recovers _).1 type s (Nat.lt_succ_self _))

theorem declareArray_within {DomainType RangeType : Option Nat}
    (hname : Name.kind = .identifier) (h : s.remaining ≤ m) :
    Within Builder constArrayOpt m (declareArray Name Size DomainType RangeType Values) s :=
  .after (GetOrCreateIdentifier_run hname) (.bind (CreateArray_within h) fun _ _ h₁ => .after rfl (.pure h₁))

theorem parseValues_recovers {k : Nat} (hk : s.remaining < k) (h : s.remaining ≤ m) :
    Recovers (ParserStep.Ok Builder constArrayOpt) (parseValues type k Values) s fun r s' =>
      s'.remaining ≤ m ∧ (r.1 = true → s'.Tok.kind = .rSquare) := by
  induction k generalizing s Values with
  | zero => omega
  | succ k ih =>
    unfold parseValues
    refine .after Tok_run ?_
    split
    · rename_i hsquare
      exact .pure ⟨h, fun _ => hsquare⟩
    · split
      · exact .after (Error_run _ _) (.pure ⟨h, nofun⟩)
      · rename_i hend
        have hlt := s.remaining_next_lt hend
        exact .bind (ParseNumber_within le_rfl) fun Res s₁ h₁ => ih (by omega) (by omega)

theorem inferSize_within (Size : Option Nat) (h : s.remaining ≤ m) :
    Within Builder constArrayOpt m (inferSize Size Values) s := by
  cases Size with
  | some Size => exact .pure h
  | none =>
    unfold inferSize
    dsimp only
    split
    · exact .after Tok_run (.after (Error_run _ _) (.pure h))
    · exact .pure h

theorem checkValues_within {passes : Bool} {Message : String} (h : s.remaining ≤ m) :
    Within Builder constArrayOpt m (checkValues passes Message Values) s := by
  unfold checkValues
  split
  · exact .pure h
  · exact .after Tok_run (.after (Error_run _ _) (.pure h))

theorem checkArrayDecl_within {DomainType RangeType : Nat}
    (hname : Name.kind = .identifier) (h : s.remaining ≤ m) :
    Within Builder constArrayOpt m (checkArrayDecl Name Size DomainType RangeType Values) s := by
  unfold checkArrayDecl
  refine .bind (inferSize_within Size h) fun _ _ h₁ => .bind (checkValues_within h₁) fun _ _ h₂ => ?_
  refine .bind (checkValues_within h₂) fun _ _ h₃ => .bind (checkValues_within h₃) fun _ _ h₄ => ?_
  exact declareArray_within hname h₄

theorem parseInitializer_within {DomainType RangeType : Nat}
    (hname : Name.kind = .identifier) (h : s.remaining ≤ m) :
    Within Builder constArrayOpt m (parseInitializer Name Size DomainType RangeType) s := by
  unfold parseInitializer
  refine .after Tok_run ?_
  split
  · exact .after (ConsumeExpectedToken_run ‹_› rfl) (checkArrayDecl_within hname (consume_le h))
  · split
    · refine .after (ConsumeLSquare_run ‹_›) (.after rfl ?_)
      refine .bind (parseValues_recovers (Nat.lt_succ_self _) (consume_le h)) fun r s₁ h₁ => ?_
      obtain ⟨closed, Values⟩ := r
      cases closed with
      | true => exact .after (ConsumeRSquare_run (h₁.2 rfl)) (checkArrayDecl_within hname (consume_le h₁.1))
      | false => exact declareArray_within hname h₁.1
    · exact .after (Error_run _ _) (declareArray_within hname h)

theorem parseSize_within (h : s.remaining ≤ m) : Within Builder constArrayOpt m parseSize s := by
  unfold parseSize
  refine .after Tok_run ?_
  split
  · exact .pure h
  · exact .bind (ParseIntegerConstant_within h) fun _ _ h₁ => .pure h₁

theorem parseArrayTypes_within (hname : Name.kind = .identifier)
    (h : s.remaining ≤ m) : Within Builder constArrayOpt m (parseArrayTypes Name Size) s := by
  unfold parseArrayTypes
  refine .bind (ParseTypeSpecifier_within h) fun DomainType s₁ h₁ => .after Tok_run ?_
  split
  · exact .after (Error_run _ _) (declareArray_within hname h₁)
  · rename_i harrow
    refine .after (ConsumeExpectedToken_run (not_not.mp harrow) rfl) ?_
    refine .bind (ParseTypeSpecifier_within (consume_le h₁)) fun RangeType s₂ h₂ => .after Tok_run ?_
    split
    · exact .after (Error_run _ _) (declareArray_within hname h₂)
    · rename_i hequals
      exact .after (ConsumeExpectedToken_run (not_not.mp hequals) rfl) (parseInitializer_within hname (consume_le h₂))

theorem parseArraySize_within (hname : Name.kind = .identifier) (h : s.remaining ≤ m) :
    Within Builder constArrayOpt m (parseArraySize Name) s := by
  unfold parseArraySize
  refine .after Tok_run ?_
  split
  · exact .after (Error_run _ _) (declareArray_within hname h)
  · rename_i hopen
    refine .after (ConsumeLSquare_run (not_not.mp hopen)) ?_
    refine .bind (parseSize_within (consume_le h)) fun Size s₁ h₁ => .after Tok_run ?_
    split
    · exact .after (Error_run _ _) (declareArray_within hname h₁)
    · rename_i hclose
      refine .after (ConsumeRSquare_run (not_not.mp hclose)) (.after Tok_run ?_)
      split
      · exact .after (Error_run _ _) (declareArray_within hname (consume_le h₁))
      · rename_i hcolon
        refine .after (ConsumeExpectedToken_run (not_not.mp hcolon) rfl) ?_
        exact parseArrayTypes_within hname (consume_le (consume_le h₁))

theorem ParseArrayDecl_within (harray : s.Tok.kind = .kwArray) (h : s.consume.remaining ≤ m) :
    Within Builder constArrayOpt m ParseArrayDecl s := by
  unfold ParseArrayDecl
  refine .after (ConsumeExpectedToken_run harray rfl) (.after Tok_run ?_)
  split
  · exact .after (Error_run _ _) (.pure h)
  · rename_i hident
    have hname := not_not.mp hident
    exact .after (ConsumeToken_run (by rw [hname]; rfl)) (parseArraySize_within hname (consume_le h))

section Query

variable {ClearArrayAfterQuery : Bool}

theorem parseExprs_recovers {type : Option Nat} {k : Nat} {Exprs : List Expr} (hk : s.remaining < k)
    (h : s.remaining ≤ m) :
    Recovers (ParserStep.Ok Builder constArrayOpt) (parseExprs Builder constArrayOpt type k Exprs) s fun r s' =>
      s'.remaining ≤ m ∧ (r.1 = true → s'.Tok.kind = .rSquare) := by
  induction k generalizing s Exprs with
  | zero => omega
  | succ k ih =>
    unfold parseExprs
    refine .after Tok_run ?_
    split
    · rename_i hsquare
      exact .pure ⟨h, fun _ => hsquare⟩
    · split
      · exact .after (Error_run _ _) (.pure ⟨h, nofun⟩)
      · rename_i hend
        refine .bind (ParseExpr_recovers type s (Nat.lt_succ_self _)) fun Res s₁ h₁ => ?_
        have hlt := h₁.2.1 hend
        exact ih (by omega) (by omega)

theorem parseObjects_recovers {k : Nat} {Objects : List ParsedArray} (hk : s.remaining < k) (h : s.remaining ≤ m) :
    Recovers (ParserStep.Ok Builder constArrayOpt) (parseObjects k Objects) s fun r s' =>
      s'.remaining ≤ m ∧ (r.1 = true → s'.Tok.kind = .rSquare) := by
  induction k generalizing s Objects with
  | zero => omega
  | succ k ih =>
    unfold parseObjects
    refine .after rfl ?_
    split
    · rename_i hsquare
      exact .pure ⟨h, fun _ => hsquare⟩
    · split
      · exact .after (Error_run _ _) (.pure ⟨h, nofun⟩)
      · rename_i hend
        have hlt := s.remaining_consume_lt hend
        split
        · refine .after (Error_run _ _) ?_
          refine .bind (Q := fun _ s' => s' = { s with errors := s.errors ++ [("unexpected token.", s.Tok)] } ∧
            s.Tok.kind.isBracket = false) (.check Iff.rfl fun hskip => ⟨rfl, hskip⟩) ?_
          rintro _ _ ⟨rfl, hskip⟩
          refine .after (ConsumeToken_run hskip) (ih ?_ ?_)
          · rw [ParserState.remaining_consume] at hlt ⊢
            exact (show s.next.remaining < k by omega)
          · rw [ParserState.remaining_consume] at hlt ⊢
            exact (show s.next.remaining ≤ m by omega)
        · rename_i hident
          have hkind := not_not.mp hident
          refine .after (GetOrCreateIdentifier_run hkind) (.after (ConsumeToken_run (by rw [hkind]; rfl)) ?_)
          split
          · exact .after (Error_run _ _) (ih (show s.consume.remaining < k by omega) (show s.consume.remaining ≤ m by omega))
          · exact ih (by omega) (by omega)

variable {Constraints : List Expr}

theorem finishQuery_within {Values : List Expr} {Res : Expr} {Objects : List ParsedArray}
    (h : s.remaining ≤ m) :
    Within Builder constArrayOpt m (finishQuery ClearArrayAfterQuery Constraints Res Values Objects) s := by
  have hclear : ∀ {s' : ParserState}, s'.remaining ≤ m →
      Within Builder constArrayOpt m (finishQuery.clear ClearArrayAfterQuery Constraints Res Values Objects) s' := by
    intro s' h'
    refine .after rfl (.pure ?_)
    split
    · exact h'
    · exact h'
  unfold finishQuery
  refine .after Tok_run ?_
  split
  · exact hclear h
  · exact .bind (ExpectRParen_within h) fun _ _ h₁ => hclear h₁

theorem malformedQuery_within {Message : String} {tok : Token} (h : s.remaining ≤ m) :
    Within Builder constArrayOpt m (malformedQuery Message tok) s :=
  .after (Error_run _ _) (.bind (skipToLevel_within h) fun _ _ h₁ => .pure h₁)

theorem parseQueryObjects_within {Values : List Expr} {Res : Expr} (h : s.remaining ≤ m) :
    Within Builder constArrayOpt m (parseQueryObjects ClearArrayAfterQuery Constraints Res Values) s := by
  unfold parseQueryObjects
  refine .after Tok_run ?_
  split
  · exact finishQuery_within h
  · split
    · exact malformedQuery_within h
    · rename_i hopen
      refine .after (ConsumeLSquare_run (not_not.mp hopen)) (.after rfl ?_)
      refine .bind (parseObjects_recovers (Nat.lt_succ_self _) (consume_le h)) fun r s₁ h₁ => ?_
      obtain ⟨closed, Objects⟩ := r
      cases closed with
      | true => exact .after (ConsumeRSquare_run (h₁.2 rfl)) (finishQuery_within (consume_le h₁.1))
      | false => exact finishQuery_within h₁.1

theorem parseQueryValues_within {Res : Expr} (h : s.remaining ≤ m) :
    Within Builder constArrayOpt m (parseQueryValues Builder constArrayOpt ClearArrayAfterQuery Constraints Res) s := by
  unfold parseQueryValues
  refine .after Tok_run ?_
  split
  · exact finishQuery_within h
  · split
    · exact malformedQuery_within h
    · rename_i hopen
      refine .after (ConsumeLSquare_run (not_not.mp hopen)) (.after rfl ?_)
      refine .bind (parseExprs_recovers (Nat.lt_succ_self _) (consume_le h)) fun r s₁ h₁ => ?_
      obtain ⟨closed, Values⟩ := r
      cases closed with
      | true => exact .after (ConsumeRSquare_run (h₁.2 rfl)) (parseQueryObjects_within (consume_le h₁.1))
      | false => exact finishQuery_within h₁.1

theorem ParseQueryCommand_within (hquery : s.Tok.kind = .kwQuery) (h : s.remaining ≤ m) :
    Within Builder constArrayOpt m (ParseQueryCommand Builder constArrayOpt ClearArrayAfterQuery) s := by
  unfold ParseQueryCommand
  refine .after rfl (.after (ConsumeExpectedToken_run hquery rfl) (.after Tok_run ?_))
  split
  · exact malformedQuery_within (consume_le h)
  · rename_i hopen
    refine .after (ConsumeLSquare_run (not_not.mp hopen)) (.after rfl ?_)
    refine .bind (parseExprs_recovers (Nat.lt_succ_self _) (consume_le (consume_le h))) fun r s₁ h₁ => ?_
    obtain ⟨closed, Constraints⟩ := r
    cases closed with
    | true =>
      refine .after (ConsumeRSquare_run (h₁.2 rfl)) ?_
      refine .bind (ParseExpr_recovers.within (Nat.lt_succ_self m) (consume_le h₁.1)) fun Res s₂ h₂ => ?_
      exact .bind (argumentOrZero_within Res h₂) fun _ _ h₃ => parseQueryValues_within h₃
    | false => exact .bind (constant_within h₁.1) fun _ _ h₂ => finishQuery_within h₂

theorem ParseCommandDecl_within (hparen : s.Tok.kind = .lParen) (h : s.consume.remaining ≤ m) :
    Within Builder constArrayOpt m (ParseCommandDecl Builder constArrayOpt ClearArrayAfterQuery) s := by
  unfold ParseCommandDecl
  refine .after (ConsumeLParen_run hparen) (.after Tok_run ?_)
  split
  · exact malformedQuery_within h
  · split
    · exact ParseQueryCommand_within ‹_› h
    · exact malformedQuery_within h

/-- What a call of `ParseTopLevelDecl` does: it comes to the end, or consumes a token for the declaration. -/
def Advances (s : ParserState) (d : Option Decl) (s' : ParserState) : Prop :=
  (s.Tok.kind ≠ .endOfFile → s'.remaining < s.remaining) ∧ s'.remaining ≤ s.remaining ∧
    (d = none → s'.Tok.kind = .endOfFile) ∧ (s.Tok.kind = .endOfFile → d = none)

theorem Advances.of_lt {s₁ s' : ParserState} {d : Option Decl} (h : Advances s₁ d s') (hend : s.Tok.kind ≠ .endOfFile)
    (hlt : s₁.remaining < s.remaining) : Advances s d s' :=
  ⟨fun _ => h.2.1.trans_lt hlt, (h.2.1.trans_lt hlt).le, h.2.2.1, fun h => absurd h hend⟩

theorem parseDecl_recovers {k : Nat} (hk : s.remaining < k) :
    Recovers (ParserStep.Ok Builder constArrayOpt) (parseDecl Builder constArrayOpt ClearArrayAfterQuery k) s
      (Advances s) := by
  induction k generalizing s with
  | zero => omega
  | succ k ih =>
    unfold parseDecl
    refine .after Tok_run ?_
    split
    · rename_i hend
      exact .pure ⟨fun h => absurd hend h, le_rfl, fun _ => hend, fun _ => rfl⟩
    · rename_i hend
      have hlt := s.remaining_consume_lt hend
      have hfound : ∀ {d : Decl} {s₁ : ParserState}, s₁.remaining ≤ s.consume.remaining → Advances s (some d) s₁ :=
        fun h₁ => ⟨fun _ => by omega, by omega, nofun, fun h => absurd h hend⟩
      have hagain : ∀ {s₁ : ParserState}, s₁.remaining ≤ s.consume.remaining →
          Recovers (ParserStep.Ok Builder constArrayOpt) (parseDecl Builder constArrayOpt ClearArrayAfterQuery k) s₁
            (Advances s) :=
        fun h₁ => (ih (by omega)).mono fun _ _ h => h.of_lt hend (by omega)
      split
      · refine .bind (ParseArrayDecl_within ‹_› le_rfl) fun d s₁ h₁ => ?_
        cases d with
        | some d => exact .pure (hfound h₁)
        | none => exact hagain h₁
      · split
        · refine .bind (ParseCommandDecl_within ‹_› le_rfl) fun d s₁ h₁ => ?_
          cases d with
          | some d => exact .pure (hfound h₁)
          | none => exact hagain h₁
        · refine .after (Error_run _ _) (.after ConsumeAnyToken_run (hagain ?_))
          rw [ParserState.remaining_consume, ParserState.remaining_consume]
          exact le_rfl

theorem ParseTopLevelDecl_recovers :
    Recovers (ParserStep.Ok Builder constArrayOpt) (ParseTopLevelDecl Builder constArrayOpt ClearArrayAfterQuery) s
      (Advances s) :=
  .after rfl (parseDecl_recovers (Nat.lt_succ_self _))

theorem parseDecls_recovers {k : Nat} (hk : s.remaining < k) :
    Recovers (ParserStep.Ok Builder constArrayOpt) (parseDecls Builder constArrayOpt ClearArrayAfterQuery k) s
      fun _ s' => s'.Tok.kind = .endOfFile := by
  induction k generalizing s with
  | zero => omega
  | succ k ih =>
    unfold parseDecls
    refine .bind ParseTopLevelDecl_recovers fun d s₁ h₁ => ?_
    cases d with
    | none => exact .pure (h₁.2.2.1 rfl)
    | some d =>
      have hlt := h₁.1 fun hend => nomatch h₁.2.2.2 hend
      exact .bind (ih (by omega)) fun _ _ h₂ => .pure h₂

end Query

end Recovery

end ParserImpl

end CgsKlee
