import LogRules.Proofs.Levels
import LogRules.Proofs.Turns

/-!
Every parser of the grammar leaves the end of the tokens where it is. An expression, a statement and
a stage are found only behind a token; a declaration, found or not, always consumes one.
-/
namespace LogRules.Grammar

open Parse

section Expressions

/-- Parsers of one level deeper that eat something. -/
structure Deeper.Eats (d : Deeper Parse) : Prop where
  expression : Parse.Eats d.expression
  negated : Parse.Eats d.negated
  signed : Parse.Eats d.signed

variable {env : Env} {d : Deeper Parse}

theorem proceeds_accept (checked : Checked) : Proceeds (accept checked) :=
  (proceeds_reportAll _).bind fun _ => proceeds_pure _

theorem proceeds_checkDepth (e : Expr) : Proceeds (checkDepth e) := by
  rw [checkDepth]
  split
  · exact (eats_failAt _ _).proceeds
  · exact proceeds_pure e

section Chains

variable {operand : Parse Expr} {operator? : Lexeme → Option BinaryOp}
  {join : BinaryOp → Expr → Expr → Position → Checked} (heof : operator? .eof = none)

include heof

theorem advance_chainTurn (h : Proceeds operand) :
    TurnsAdvance (chainTurn operand operator? join) := by
  refine fun left => advances_here fun p => advances_peek fun l _ => ?_
  cases hop : operator? l with
  | none => exact advances_pure _ (LoopTurn.not_goesOn_stop left)
  | some op =>
    have hne : ∀ l', l' = l → l' ≠ .eof := by
      rintro _ rfl rfl
      cases heof.symm.trans hop
    exact advances_step hne (h.bind fun right => (proceeds_accept _).bind fun joined =>
      (proceeds_checkDepth joined).bind fun next => proceeds_pure _)

theorem eats_chain (h : Eats operand) : Eats (chain operand operator? join) := by
  refine h.bind fun first => advances_remaining fun fuel => ?_
  rw [chainLoop_eq]
  exact proceeds_turns (advance_chainTurn heof h.proceeds) proceeds_pure fuel first

end Chains

variable (hd : d.Eats)

include hd

theorem proceeds_argument : Proceeds (argument d) := by
  have hnamed (name : Option String) :
      Proceeds (do return ⟨name, ← d.expression⟩ : Parse Typing.RawArg) :=
    hd.expression.proceeds.bind fun _ => proceeds_pure _
  refine advances_peekSecond fun second => ?_
  split
  · refine advances_peek fun l _ => Proceeds.anywhere ?_
    split
    · exact proceeds_advance.bind fun _ => proceeds_advance.bind fun _ => hnamed _
    · exact proceeds_advance.bind fun _ => proceeds_advance.bind fun _ => hnamed _
    · exact hnamed none
  · exact hnamed none

theorem eats_call (name : String) : Eats (call env d name) := by
  refine advances_here fun p => proceeds_advance.after (by simp) fun _ => ?_
  exact (eats_expect _ _).bind fun _ => (proceeds_separated (proceeds_argument hd) _ _).bind
    fun args => proceeds_accept _

theorem eats_entry : Eats (entry d) := by
  have hvalue (key : String) : Eats (do
      Parse.advance
      Parse.expect .colon "':'"
      return (key, ← d.expression)) :=
    proceeds_advance.after (by simp) fun _ => (eats_expect _ _).bind fun _ =>
      hd.expression.proceeds.bind fun _ => proceeds_pure _
  refine advances_peek fun l _ => Advances.mono ?_ (fun _ _ => trivial) fun _ h => h
  split
  · exact hvalue _
  · exact hvalue _
  · exact hvalue _
  · exact eats_unexpected _

theorem eats_named (name : String) : Advances (· = .name name) (named env d name) (·.isSome) := by
  have hfirst : ∀ l, l = Lexeme.name name → l ≠ .eof := by
    rintro _ rfl
    simp
  refine advances_here fun p => ?_
  split
  · exact advances_step hfirst (proceeds_pure _)
  split
  · exact advances_step hfirst (proceeds_pure _)
  refine advances_peekSecond fun second => ?_
  split
  · exact (eats_call hd name).mono (fun _ _ => trivial) fun _ h => h
  split
  · exact (eats_unexpected _).mono (fun _ _ => trivial) fun _ h => h
  · exact advances_step hfirst (proceeds_accept _)

theorem eats_primary : Eats (primary env d) := by
  refine advances_here fun p => advances_peek fun l _ => ?_
  have hstep {f : Unit → Parse Expr} (hne : l ≠ .eof) (hf : Proceeds (f ())) :
      Advances (· = l) (Parse.advance >>= f) (·.isSome) :=
    advances_step (fun l' hl => hl ▸ hne) hf
  have hunexpected : Advances (· = l) (unexpected "expression" : Parse Expr) (·.isSome) :=
    (eats_unexpected _).mono (fun _ _ => trivial) fun _ h => h
  cases l with
  | integer n => exact hstep (by simp) (proceeds_pure _)
  | float x => exact hstep (by simp) (proceeds_pure _)
  | string text => exact hstep (by simp) (proceeds_pure _)
  | name name => exact eats_named hd name
  | quotedName name => exact hunexpected
  | eof => exact hunexpected
  | symbol s =>
    cases s with
    | leftParen =>
      exact hstep (by simp) (hd.expression.proceeds.bind fun inner =>
        (eats_expect _ _).proceeds.bind fun _ => proceeds_pure _)
    | leftBracket =>
      exact hstep (by simp) ((proceeds_separated hd.expression.proceeds _ _).bind
        fun items => proceeds_pure _)
    | leftBrace =>
      exact hstep (by simp) ((proceeds_separated (eats_entry hd).proceeds _ _).bind
        fun entries => proceeds_pure _)
    | dollar =>
      refine hstep (by simp) (advances_peek fun l _ => Proceeds.anywhere ?_)
      split
      · exact proceeds_advance.bind fun _ => (eats_expect _ _).proceeds.bind fun _ =>
          (eats_expectName _).proceeds.bind fun name => proceeds_pure _
      · exact (eats_unexpected _).proceeds
    | _ => exact hunexpected

theorem advance_postfixTurn : TurnsAdvance (postfixTurn d) := by
  refine fun object => advances_here fun p => ?_
  have hnext (found : Checked) : Proceeds (do
      let found ← accept found
      return (.goOn (← checkDepth found) id : LoopTurn Expr Expr)) :=
    (proceeds_accept found).bind fun e => (proceeds_checkDepth e).bind fun _ => proceeds_pure _
  refine advances_eatIf rfl ((eats_expectName _).proceeds.bind fun name => hnext _) ?_
  refine advances_eatIf rfl (hd.expression.proceeds.bind fun key =>
    (eats_expect _ _).proceeds.bind fun _ => hnext _) ?_
  exact advances_pure _ (LoopTurn.not_goesOn_stop object)

theorem proceeds_postfixTail (object : Expr) : Proceeds (postfixTail d object) := by
  refine advances_remaining fun fuel => ?_
  rw [postfixLoop_eq]
  exact proceeds_turns (advance_postfixTurn hd) proceeds_pure fuel object

theorem eats_signLevel : Eats (signLevel env d) := by
  refine advances_here fun p => advances_peek fun l _ => ?_
  cases hop : signOperator? l with
  | none =>
    refine Advances.mono (F := fun _ => True) ?_ (fun _ _ => trivial) fun _ h => h
    exact (eats_primary hd).bind fun object => proceeds_postfixTail hd object
  | some op =>
    have hne : l ≠ .eof := by
      rintro rfl
      cases hop
    refine advances_step (fun l' hl => hl ▸ hne) (advances_peek fun l _ => Proceeds.anywhere ?_)
    split
    · exact proceeds_advance.bind fun _ => proceeds_postfixTail hd _
    · exact hd.signed.proceeds.bind fun e => proceeds_accept _

theorem eats_productLevel : Eats (productLevel env d) := eats_chain rfl (eats_signLevel hd)

theorem eats_sumLevel : Eats (sumLevel env d) := eats_chain rfl (eats_productLevel hd)

theorem eats_orderLevel : Eats (orderLevel env d) := eats_chain rfl (eats_sumLevel hd)

theorem eats_equalityLevel : Eats (equalityLevel env d) := eats_chain rfl (eats_orderLevel hd)

theorem eats_notLevel : Eats (notLevel env d) := by
  refine advances_here fun p => advances_eatIf rfl ?_ ?_
  · exact hd.negated.proceeds.bind fun e => proceeds_accept _
  · refine Advances.mono (F := fun _ => True) ?_ (fun _ _ => trivial) fun _ h => h
    exact eats_equalityLevel hd

theorem eats_andLevel : Eats (andLevel env d) := eats_chain rfl (eats_notLevel hd)

theorem eats_orLevel : Eats (orLevel env d) := eats_chain rfl (eats_andLevel hd)

end Expressions

theorem eats_nested (env : Env) (room : Nat) : (nested env room).Eats := by
  induction room with
  | zero =>
    have hstop : Eats (do tooDeep (← Parse.here) : Parse Expr) :=
      advances_here fun p => eats_failAt p _
    exact ⟨hstop, hstop, hstop⟩
  | succ room ih =>
    have hchecked {p : Parse Expr} (hp : Eats p) : Eats (do checkDepth (← p)) :=
      hp.bind fun e => proceeds_checkDepth e
    exact ⟨hchecked (eats_orLevel ih), hchecked (eats_notLevel ih), hchecked (eats_signLevel ih)⟩

theorem eats_expression (env : Env) : Eats (expression env) := (eats_nested env _).expression

/-- Whatever operators a level reads, it reads an operand first. -/
theorem eats_level (env : Env) (room k : Nat) : Eats (level env (nested env room) k) := by
  have hd := eats_nested env room
  rw [level.eq_def]
  split
  · exact eats_orLevel hd
  · exact eats_orLevel hd
  · exact eats_andLevel hd
  · exact eats_notLevel hd
  · exact eats_equalityLevel hd
  · exact eats_orderLevel hd
  · exact eats_sumLevel hd
  · exact eats_productLevel hd
  · exact eats_signLevel hd
  · exact (eats_primary hd).bind fun object => proceeds_postfixTail hd object

section Skipping

/-- Skipping stops: before the end of the tokens, at a place that it looks for, or right behind a
lexeme that closes what is skipped. -/
def StopsAt (place : List Token → Prop) (closing : Lexeme → Prop)
    (f : List Token → List Token) : Prop :=
  ∀ tokens, Ended tokens → ∃ skipped, tokens = skipped ++ f tokens ∧ f tokens ≠ [] ∧
    (tokenAt 0 (f tokens) = .eof ∨ place (f tokens) ∨
      ∃ last ∈ skipped.getLast?, closing last.lexeme)

theorem StopsAt.remains {place : List Token → Prop} {closing : Lexeme → Prop}
    {f : List Token → List Token} (h : StopsAt place closing f) {tokens : List Token}
    (hended : Ended tokens) : Remains (f tokens) tokens := by
  obtain ⟨skipped, htokens, hne, -⟩ := h tokens hended
  exact ⟨⟨skipped, htokens.symm⟩, hne⟩

variable {place : List Token → Prop} {closing : Lexeme → Prop} {f : List Token → List Token}

/-- It is enough to look at one token at a time. -/
theorem stopsAt_of_step (h : ∀ t rest,
      (f (t :: rest) = t :: rest ∧ (t.lexeme = .eof ∨ place (t :: rest))) ∨
      t.lexeme ≠ .eof ∧ (f (t :: rest) = rest ∧ closing t.lexeme ∨ f (t :: rest) = f rest)) :
    StopsAt place closing f := by
  intro tokens hended
  induction tokens with
  | nil => exact absurd rfl hended.ne_nil
  | cons t rest ih =>
    obtain ⟨hstays, hplace⟩ | ⟨ht, ⟨hbehind, hclosing⟩ | hgoes⟩ := h t rest
    · rw [hstays]
      exact ⟨[], rfl, by simp, hplace.imp_right .inl⟩
    · rw [hbehind]
      exact ⟨[t], rfl, (hended.tail ht).2, .inr (.inr ⟨t, rfl, hclosing⟩)⟩
    · obtain ⟨skipped, hrest, hne, hplace⟩ := ih (hended.of_remains (hended.tail ht))
      rw [hgoes]
      refine ⟨t :: skipped, congrArg (t :: ·) hrest, hne, hplace.imp_right (.imp_right ?_)⟩
      rintro ⟨last, hlast, hclosing⟩
      exact ⟨last, List.mem_getLast?_cons hlast, hclosing⟩

theorem stopsAt_skipToDeclaration : StopsAt (fun tokens => startsDeclaration tokens = true)
    (fun l => l.isKeyword "end" = true) skipToDeclaration := by
  refine stopsAt_of_step fun t rest => ?_
  rw [skipToDeclaration]
  split
  · next h => exact .inl ⟨rfl, h⟩
  · next h =>
    refine .inr ⟨fun ht => h (.inl ht), ?_⟩
    split
    · next hend => exact .inl ⟨rfl, hend⟩
    · exact .inr rfl

theorem stopsAt_skipStatement : StopsAt
    (fun tokens => (tokenAt 0 tokens).isKeyword "end" = true ∨ startsDeclaration tokens = true)
    (fun l => l = .symbol .semicolon) skipStatement := by
  refine stopsAt_of_step fun t rest => ?_
  rw [skipStatement]
  split
  · next h => exact .inl ⟨rfl, h⟩
  · next h =>
    refine .inr ⟨fun ht => h (.inl ht), ?_⟩
    split
    · next hend => exact .inl ⟨rfl, hend⟩
    · exact .inr rfl

theorem stopsAt_skipCondition : StopsAt
    (fun tokens => (tokenAt 0 tokens).isKeyword "then" = true ∨
      (tokenAt 0 tokens).isKeyword "end" = true) (fun _ => False) skipCondition := by
  refine stopsAt_of_step fun t rest => ?_
  rw [skipCondition]
  split
  · next h => exact .inl ⟨rfl, h⟩
  · next h => exact .inr ⟨fun ht => h (.inl ht), .inr rfl⟩

end Skipping

section Pipelines

theorem advance_refTurn : TurnsAdvance refTurn := by
  refine fun _ => advances_eatIf rfl ?_ (advances_pure _ (LoopTurn.not_goesOn_stop []))
  exact (eats_expectString _).proceeds.bind fun name => (proceeds_eatIf _).bind fun _ =>
    proceeds_pure _

theorem proceeds_matchPolicy : Proceeds matchPolicy := by
  refine advances_eatIf rfl (proceeds_pure _) (Proceeds.anywhere ?_)
  refine advances_eatIf rfl (proceeds_pure _) (Proceeds.anywhere ?_)
  refine advances_eatIf rfl (proceeds_pure _) (Proceeds.anywhere ?_)
  exact advances_eatIf rfl (proceeds_pure _) (eats_unexpected _).proceeds.anywhere

theorem proceeds_stageNumber (position : Position) : Proceeds (stageNumber position) := by
  have hrange (number : Int) : Proceeds (do
      if leastStage ≤ number ∧ number ≤ greatestStage then return number
      else
        report position (.syntactic s!"stage number {number} out of range")
        return 0) := by
    split
    · exact proceeds_pure _
    · exact (proceeds_reportAll _).bind fun _ => proceeds_pure _
  refine (proceeds_eatIf _).bind fun negative => advances_peek fun l _ => Proceeds.anywhere ?_
  split
  · exact proceeds_advance.bind fun _ => by
      split
      · exact hrange _
      · exact hrange _
  · exact (eats_unexpected _).proceeds

/-- A stage, complete or not, consumes the word that it begins with. -/
theorem advances_stage : Advances (·.isKeyword "stage" = true) stage fun _ => True := by
  refine advances_here fun p => (advances_expectKeyword "stage").always fun _ => ?_
  refine (proceeds_stageNumber p).bind fun number => ?_
  refine (eats_expectKeyword "match").proceeds.bind fun _ => proceeds_matchPolicy.bind
    fun policy => advances_remaining fun fuel => ?_
  rw [stageRefs_eq]
  exact (proceeds_turns advance_refTurn (fun _ => proceeds_pure _) fuel ()).bind
    fun refs => proceeds_pure _

theorem advance_stageTurn : TurnsAdvance stageTurn := by
  refine fun _ => advances_atKeyword fun found => ?_
  cases found with
  | true =>
    exact (advances_stage.mono (fun _ h => h.2) fun _ h => h).always fun first => proceeds_pure _
  | false => exact advances_pure _ (LoopTurn.not_goesOn_stop [])

/-- A pipeline, complete or not, consumes the word that it begins with. -/
theorem advances_pipeline :
    Advances (·.isKeyword "pipeline" = true) pipeline fun _ => True := by
  refine advances_here fun p => (advances_expectKeyword "pipeline").always fun _ => ?_
  refine (eats_expectString _).proceeds.bind fun name => advances_remaining fun fuel => ?_
  rw [stages_eq]
  refine (proceeds_turns advance_stageTurn (fun _ => proceeds_pure _) fuel ()).bind
    fun found => (eats_expectKeyword "end").proceeds.bind fun _ => ?_
  have hrest : Proceeds (do
      Parse.reportAll (stageErrors name (sortBy Stage.number found))
      return (⟨name, sortBy Stage.number found, p⟩ : Pipeline)) :=
    (proceeds_reportAll _).bind fun _ => proceeds_pure _
  cases found.isEmpty with
  | true => exact (proceeds_reportAll _).bind fun _ => hrest
  | false => exact hrest

end Pipelines

section Rules

variable (registry : Registry)

theorem proceeds_condition (position : Position) : Proceeds (condition registry position) := by
  refine Proceeds.bind (eats_expression _).proceeds.attempt fun found => ?_
  split
  · exact (proceeds_reportAll _).bind fun _ => proceeds_pure _
  · exact (proceeds_skip fun _ => stopsAt_skipCondition.remains).bind fun _ => proceeds_pure _

theorem eats_statementBody (scope : Typing.Scope) : Eats (statementBody registry scope) := by
  refine advances_here fun p => advances_eatIf rfl ?_ ?_
  · refine advances_here fun q => (eats_expectName _).proceeds.bind fun name => ?_
    have hvalue : Proceeds (do
        Parse.expect .assign "'='"
        let value ← expression ⟨registry, scope, false⟩
        return (Statement.bind name value.type value p, scope.insert name value.type)) :=
      (eats_expect _ _).proceeds.bind fun _ => (eats_expression _).proceeds.bind fun value =>
        proceeds_pure _
    split
    · exact (proceeds_reportAll _).bind fun _ => hvalue
    · exact hvalue
  · refine Advances.mono (F := fun _ => True) ?_ (fun _ _ => trivial) fun _ h => h
    refine (eats_expression _).bind fun e => ?_
    split
    · exact (proceeds_reportAll _).bind fun _ => proceeds_pure _
    · exact proceeds_pure _

theorem proceeds_statementEnd : Proceeds statementEnd := by
  refine advances_eatIf rfl (proceeds_pure ()) (advances_atKeyword fun found => ?_)
  split
  · exact (proceeds_pure ()).anywhere
  · exact (eats_unexpected _).proceeds.anywhere

theorem proceeds_statementTail (statement : Statement) (scope : Typing.Scope) :
    Proceeds (statementTail statement scope) := by
  refine Proceeds.bind proceeds_statementEnd.attempt fun found => ?_
  split
  · exact (proceeds_skip fun _ => stopsAt_skipStatement.remains).bind fun _ => proceeds_pure _
  · exact proceeds_pure _

theorem goesOn_statementTail (statement : Statement) (scope : Typing.Scope)
    (tokens : List Token) : LoopTurn.GoesOn (statementTail statement scope tokens).result := by
  rcases hend : statementEnd tokens with ⟨errors, rest, found⟩
  rw [statementTail, bind_found (attempt_eq hend)]
  cases found with
  | none => exact ⟨scope, id, rfl⟩
  | some _ => exact ⟨scope, (statement :: ·), rfl⟩

/-- Where the statements of a rule end. -/
def EndsStatements (tokens : List Token) : Prop :=
  tokenAt 0 tokens = .eof ∨ (tokenAt 0 tokens).isKeyword "end" = true ∨
    startsDeclaration tokens = true

variable {registry} {scope : Typing.Scope} {tokens : List Token}

theorem skipStatement_shorter (hended : Ended tokens) (h : ¬ EndsStatements tokens) :
    (skipStatement tokens).length < tokens.length := by
  cases tokens with
  | nil => exact absurd rfl hended.ne_nil
  | cons t rest =>
    have hgoes : ¬ (t.lexeme = .eof ∨ t.lexeme.isKeyword "end" = true ∨
      startsDeclaration (t :: rest) = true) := h
    have ht : t.lexeme ≠ .eof := fun ht => h (.inl ht)
    rw [skipStatement, if_neg hgoes]
    split
    · exact Nat.lt_succ_self _
    · have hrest := hended.of_remains (hended.tail ht)
      exact Nat.lt_succ_of_le (stopsAt_skipStatement.remains hrest).length_le

theorem atDeclaration_eq (tokens : List Token) :
    atDeclaration tokens = ⟨[], tokens, some (startsDeclaration tokens)⟩ := rfl

theorem statementTurn_stop (h : EndsStatements tokens) :
    statementTurn registry scope tokens = ⟨[], tokens, some (.stop [])⟩ := by
  rw [statementTurn, bind_eq (peek_eq tokens)]
  split
  · rfl
  · next heof =>
    rw [bind_eq (atKeyword_eq "end" tokens)]
    split
    · rfl
    · next hend =>
      rw [bind_eq (atDeclaration_eq tokens), (h.resolve_left heof).resolve_left hend]
      rfl

/-- Where a rule goes on, a turn consumes something: a statement that is broken at once is skipped,
and the skipping does not stop where it starts. -/
theorem shortens_statementTurn (hended : Ended tokens) (h : ¬ EndsStatements tokens) :
    Shortens (statementTurn registry scope) tokens := by
  have hskip (left : List Token) : Remains left tokens → Remains (skipStatement left) left :=
    fun hleft => stopsAt_skipStatement.remains (hended.of_remains hleft)
  obtain ⟨hrest, hless⟩ := eats_statementBody registry scope tokens hended trivial
  rw [Shortens, statementTurn, bind_eq (peek_eq tokens), if_neg fun heof => h (.inl heof),
    bind_eq (atKeyword_eq "end" tokens), if_neg fun hend => h (.inr (.inl hend)),
    bind_eq (atDeclaration_eq tokens), if_neg fun hstart => h (.inr (.inr hstart))]
  rcases hbody : statementBody registry scope tokens with ⟨errors, rest, _ | ⟨statement, scope'⟩⟩
  · simp only [hbody] at hrest hless
    rw [bind_found (attempt_eq hbody)]
    refine ⟨⟨scope, id, rfl⟩, (hskip rest hrest).trans hrest, ?_⟩
    show (skipStatement rest).length < tokens.length
    obtain heq | hfewer := Nat.eq_or_lt_of_le hrest.length_le
    · rw [hrest.1.eq_of_length heq]
      exact skipStatement_shorter hended h
    · exact Nat.lt_of_le_of_lt (hskip rest hrest).length_le hfewer
  · simp only [hbody] at hrest hless
    obtain ⟨htail, -⟩ := proceeds_statementTail statement scope' rest
      (hended.of_remains hrest) trivial
    rw [bind_found (attempt_eq hbody)]
    exact ⟨goesOn_statementTail statement scope' rest, htail.trans hrest,
      Nat.lt_of_le_of_lt htail.length_le (hless rfl)⟩

theorem advance_statementTurn : TurnsAdvance (statementTurn registry) := by
  intro scope tokens hended _
  by_cases h : EndsStatements tokens
  · rw [statementTurn_stop h]
    exact ⟨hended.remains, fun hgoes => absurd hgoes (LoopTurn.not_goesOn_stop [])⟩
  · exact (shortens_statementTurn hended h).2.imp_right fun hless _ => hless

variable (registry)

theorem proceeds_statements (fuel : Nat) (scope : Typing.Scope) :
    Proceeds (statements registry fuel scope) := by
  rw [statements_eq]
  exact proceeds_turns advance_statementTurn (fun _ => proceeds_pure _) fuel scope

/-- A rule, complete or not, consumes the word that it begins with. -/
theorem advances_rule : Advances (·.isKeyword "rule" = true) (rule registry) fun _ => True := by
  refine advances_here fun p => (advances_expectKeyword "rule").always fun _ => ?_
  exact (eats_expectString _).proceeds.bind fun name =>
    (eats_expectKeyword "when").proceeds.bind fun _ => (proceeds_condition registry p).bind
      fun condition => (eats_expectKeyword "then").proceeds.bind fun _ =>
        advances_remaining fun fuel => (proceeds_statements registry fuel []).bind
          fun statements => (eats_expectKeyword "end").proceeds.bind fun _ => proceeds_pure _

end Rules

section Declarations

variable (registry : Registry)

/-- Whatever stands there, and whatever becomes of it, at least one token of it is consumed. -/
theorem advances_declaration : Advances (· ≠ .eof) (declaration registry) fun _ => True := by
  refine advances_atKeyword fun found => ?_
  cases found with
  | true =>
    exact ((advances_rule registry).mono (fun _ h => h.2) fun _ h => h).always fun r =>
      proceeds_pure _
  | false =>
    refine advances_atKeyword fun found => ?_
    cases found with
    | true =>
      exact (advances_pipeline.mono (fun _ h => h.2) fun _ h => h).always fun p =>
        proceeds_pure _
    | false =>
      refine advances_peek fun l hl => advances_here fun p => ?_
      intro tokens hended hfirst
      have hne : tokenAt 0 tokens ≠ .eof := by
        rw [show tokenAt 0 tokens = l from hfirst]
        exact hl.1.1
      exact advances_advance tokens hended hne

variable {registry} {tokens : List Token}

theorem declarationTurn_stop (h : tokenAt 0 tokens = .eof) :
    declarationTurn registry () tokens = ⟨[], tokens, some (.stop [])⟩ := by
  rw [declarationTurn, bind_eq (peek_eq tokens), if_pos h]
  rfl

theorem shortens_declarationTurn (hended : Ended tokens) (h : tokenAt 0 tokens ≠ .eof) :
    Shortens (declarationTurn registry ()) tokens := by
  obtain ⟨hrest, hless⟩ := advances_declaration registry tokens hended h
  rw [Shortens, declarationTurn, bind_eq (peek_eq tokens), if_neg h]
  rcases hreply : declaration registry tokens with ⟨errors, rest, _ | found⟩
  · simp only [hreply] at hrest hless
    have hskip := stopsAt_skipToDeclaration.remains (hended.of_remains hrest)
    rw [bind_found (attempt_eq hreply)]
    exact ⟨⟨(), id, rfl⟩, hskip.trans hrest, Nat.lt_of_le_of_lt hskip.length_le (hless trivial)⟩
  · simp only [hreply] at hrest hless
    rw [bind_found (attempt_eq hreply)]
    exact ⟨⟨(), (found :: ·), rfl⟩, hrest, hless trivial⟩

theorem advance_declarationTurn : TurnsAdvance (declarationTurn registry) := by
  intro _ tokens hended _
  by_cases h : tokenAt 0 tokens = .eof
  · rw [declarationTurn_stop h]
    exact ⟨hended.remains, fun hgoes => absurd hgoes (LoopTurn.not_goesOn_stop [])⟩
  · exact (shortens_declarationTurn hended h).2.imp_right fun hless _ => hless

end Declarations

end LogRules.Grammar
