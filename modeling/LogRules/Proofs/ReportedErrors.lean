import LogRules.Proofs.Reports

/-!
What the grammar reports: every error of parsing stands at the place of one of the tokens, and none
is about a declaration repeated.
-/
namespace LogRules

/-- Where a declaration starts. -/
def Declaration.position : Declaration → Position
  | rule r => r.position
  | pipeline p => p.position

namespace Grammar

open Parse

variable {S : Position → Prop}

/-- Parsers of one level deeper whose errors and expressions stand at places in `S`. -/
structure Deeper.Reports (S : Position → Prop) (d : Deeper Parse) : Prop where
  expression : Parse.Reports S d.expression fun e => S e.position
  negated : Parse.Reports S d.negated fun e => S e.position
  signed : Parse.Reports S d.signed fun e => S e.position

section Levels

variable {env : Env} {deeper : Deeper Parse}

theorem reports_accept {checked : Checked} (h : checked.Arises S) :
    Parse.Reports S (accept checked) fun e => S e.position :=
  (reports_reportAll h.errors).bind fun _ _ => reports_pure h.place

theorem reports_checkDepth {e : Expr} (h : S e.position) :
    Parse.Reports S (checkDepth e) fun e => S e.position := by
  rw [checkDepth]
  split
  exacts [reports_failAt h rfl, reports_pure h]

theorem reports_checked {p : Parse Expr} (h : p.Reports S fun e => S e.position) :
    Parse.Reports S (do checkDepth (← p)) fun e => S e.position :=
  h.bind fun _ he => reports_checkDepth he

theorem reports_chain {operand : Parse Expr} (h : operand.Reports S fun e => S e.position)
    (operator? : Lexeme → Option BinaryOp) {join : BinaryOp → Expr → Expr → Position → Checked}
    (hjoin : ∀ op left right p, S p → S left.position → S right.position →
      (join op left right p).Arises S) :
    Parse.Reports S (chain operand operator? join) fun e => S e.position := by
  have hloop (fuel : Nat) {left : Expr} (hleft : S left.position) :
      Parse.Reports S (chainLoop operand operator? join fuel left) fun e => S e.position := by
    induction fuel generalizing left with
    | zero => exact reports_pure hleft
    | succ fuel ih =>
      refine reports_here.bind fun p hp => (reports_peek 0).bind fun l _ => ?_
      split
      · exact reports_pure hleft
      · exact reports_advance.bind fun _ _ => h.bind fun right hright =>
          (reports_accept (hjoin _ left right p hp hleft hright)).bind fun joined hjoined =>
            (reports_checkDepth hjoined).bind fun next hnext => ih hnext
  exact h.bind fun first hfirst => reports_remaining.bind fun fuel _ => hloop fuel hfirst

theorem reports_argument (h : deeper.Reports S) :
    Parse.Reports S (argument deeper) fun arg => S arg.value.position := by
  have hvalue (name : Option String) : Parse.Reports S
      (do return ⟨name, ← deeper.expression⟩ : Parse Typing.RawArg)
      fun arg => S arg.value.position :=
    h.expression.map fun _ he => he
  refine (reports_peek 1).bind fun second _ => ?_
  split
  · refine (reports_peek 0).bind fun l _ => ?_
    split
    · exact reports_advance.bind fun _ _ => reports_advance.bind fun _ _ => hvalue _
    · exact reports_advance.bind fun _ _ => reports_advance.bind fun _ _ => hvalue _
    · exact hvalue none
  · exact hvalue none

theorem reports_call (h : deeper.Reports S) (name : String) :
    Parse.Reports S (call env deeper name) fun e => S e.position :=
  reports_here.bind fun _ hp => reports_advance.bind fun _ _ => (reports_expect _ _).bind fun _ _ =>
    (reports_separated (reports_argument h) _ _).bind fun _ hargs =>
      reports_accept (arises_call _ _ name hp hargs)

theorem reports_entry (h : deeper.Reports S) :
    Parse.Reports S (entry deeper) fun _ => True := by
  have hvalue (key : String) : Parse.Reports S
      (do return (key, ← deeper.expression) : Parse (String × Expr)) fun _ => True :=
    h.expression.map fun _ _ => trivial
  refine (reports_peek 0).bind fun l _ => ?_
  split
  · exact reports_advance.bind fun _ _ => (reports_expect _ _).bind fun _ _ => hvalue _
  · exact reports_advance.bind fun _ _ => (reports_expect _ _).bind fun _ _ => hvalue _
  · exact reports_advance.bind fun _ _ => (reports_expect _ _).bind fun _ _ => hvalue _
  · exact reports_unexpected _

theorem reports_messageField {p : Position} (hp : S p) :
    Parse.Reports S (messageField p) fun e => S e.position := by
  refine (reports_peek 0).bind fun l _ => ?_
  split
  · exact reports_advance.bind fun _ _ => (reports_expect _ _).bind fun _ _ =>
      (reports_expectName _).map fun _ _ => hp
  · exact reports_unexpected _

theorem reports_named (h : deeper.Reports S) (name : String) :
    Parse.Reports S (named env deeper name) fun e => S e.position := by
  refine reports_here.bind fun p hp => ?_
  split
  · exact reports_advance.map fun _ _ => hp
  split
  · exact reports_advance.map fun _ _ => hp
  refine (reports_peek 1).bind fun second _ => ?_
  split
  · exact reports_call h name
  split
  · exact reports_unexpected _
  · exact reports_advance.bind fun _ _ => reports_accept (arises_variableIn _ name hp)

theorem position_moveTo (p : Position) (e : Expr) : (e.moveTo p).position = p := by
  cases e <;> rfl

theorem reports_primary (h : deeper.Reports S) :
    Parse.Reports S (primary env deeper) fun e => S e.position := by
  refine reports_here.bind fun p hp => (reports_peek 0).bind fun l _ => ?_
  cases l with
  | name name => exact reports_named h name
  | integer n => exact reports_advance.map fun _ _ => hp
  | float x => exact reports_advance.map fun _ _ => hp
  | string text => exact reports_advance.map fun _ _ => hp
  | symbol s =>
    cases s with
    | leftParen =>
      refine reports_advance.bind fun _ _ => h.expression.bind fun inner _ =>
        (reports_expect _ _).bind fun _ _ => reports_pure ?_
      rw [position_moveTo]
      exact hp
    | leftBracket =>
      exact reports_advance.bind fun _ _ =>
        (reports_separated h.expression _ _).map fun _ _ => hp
    | leftBrace =>
      exact reports_advance.bind fun _ _ =>
        (reports_separated (reports_entry h) _ _).map fun _ _ => hp
    | dollar => exact reports_advance.bind fun _ _ => reports_messageField hp
    | _ => exact reports_unexpected _
  | _ => exact reports_unexpected _

theorem reports_postfixTail (h : deeper.Reports S) {object : Expr} (hobject : S object.position) :
    Parse.Reports S (postfixTail deeper object) fun e => S e.position := by
  refine reports_remaining.bind fun fuel _ => ?_
  induction fuel generalizing object with
  | zero => exact reports_pure hobject
  | succ fuel ih =>
    refine reports_here.bind fun p hp => (reports_eatIf _).bind fun dot _ => ?_
    split
    · exact (reports_expectName _).bind fun name _ =>
        (reports_accept (arises_access name hp hobject)).bind fun found hfound =>
          (reports_checkDepth hfound).bind fun next hnext => ih hnext
    · refine (reports_eatIf _).bind fun bracket _ => ?_
      split
      · exact h.expression.bind fun key hkey => (reports_expect _ _).bind fun _ _ =>
          (reports_accept (arises_index hp hobject hkey)).bind fun found hfound =>
            (reports_checkDepth hfound).bind fun next hnext => ih hnext
      · exact reports_pure hobject

theorem reports_signLevel (h : deeper.Reports S) :
    Parse.Reports S (signLevel env deeper) fun e => S e.position := by
  refine reports_here.bind fun p hp => (reports_peek 0).bind fun first _ => ?_
  split
  · exact (reports_primary h).bind fun object hobject => reports_postfixTail h hobject
  · refine reports_advance.bind fun _ _ => (reports_peek 0).bind fun l _ => ?_
    split
    · exact reports_advance.bind fun _ _ => reports_postfixTail h hp
    · exact h.signed.bind fun operand _ => reports_accept (arises_signed _ hp)

theorem reports_notLevel (h : deeper.Reports S) :
    Parse.Reports S (notLevel env deeper) fun e => S e.position := by
  refine reports_here.bind fun p hp => (reports_eatIf _).bind fun found _ => ?_
  split
  · exact h.negated.bind fun operand hoperand => reports_accept (arises_negation hp hoperand)
  · have harithmetic (op : BinaryOp) (left right : Expr) (p : Position) (hp : S p)
        (hl : S left.position) (_ : S right.position) :
        (Typing.arithmetic op left right p).Arises S := arises_arithmetic op hp hl
    have hcomparison (op : BinaryOp) (left right : Expr) (p : Position) (hp : S p)
        (hl : S left.position) (_ : S right.position) :
        (Typing.comparison op left right p).Arises S := arises_comparison op hp hl
    exact reports_chain (reports_chain (reports_chain (reports_chain (reports_signLevel h)
      _ harithmetic) _ harithmetic) _ hcomparison) _ hcomparison

theorem reports_orLevel (h : deeper.Reports S) :
    Parse.Reports S (orLevel env deeper) fun e => S e.position := by
  have hlogical (op : BinaryOp) (left right : Expr) (p : Position) (_ : S p)
      (hl : S left.position) (hr : S right.position) : (Typing.logical op left right).Arises S :=
    arises_logical op hl hr
  refine reports_chain ?_ orOperator? hlogical
  exact reports_chain (reports_notLevel h) andOperator? hlogical

end Levels

theorem reports_nested (env : Env) (room : Nat) : (nested env room).Reports S := by
  induction room with
  | zero =>
    have hstop : Parse.Reports S (do tooDeep (← Parse.here) : Parse Expr) fun e => S e.position :=
      reports_here.bind fun _ hp => reports_failAt hp rfl
    exact ⟨hstop, hstop, hstop⟩
  | succ room ih =>
    exact ⟨reports_checked (reports_orLevel ih), reports_checked (reports_notLevel ih),
      reports_checked (reports_signLevel ih)⟩

theorem reports_expression (env : Env) :
    Parse.Reports S (expression env) fun e => S e.position :=
  (reports_nested env maxNesting).expression

section Declarations

variable (registry : Registry)

theorem standing_skipCondition {tokens : List Token} (h : Standing S tokens) :
    Standing S (skipCondition tokens) := by
  induction tokens with
  | nil => exact h
  | cons t rest ih =>
    rw [skipCondition]
    split
    · exact h
    · next hstop => exact ih (h.tail fun heof => hstop (.inl heof))

theorem standing_skipStatement {tokens : List Token} (h : Standing S tokens) :
    Standing S (skipStatement tokens) := by
  induction tokens with
  | nil => exact h
  | cons t rest ih =>
    rw [skipStatement]
    split
    · exact h
    next hstop =>
    have htail := h.tail fun heof => hstop (.inl heof)
    split
    exacts [htail, ih htail]

theorem standing_skipToDeclaration {tokens : List Token} (h : Standing S tokens) :
    Standing S (skipToDeclaration tokens) := by
  induction tokens with
  | nil => exact h
  | cons t rest ih =>
    rw [skipToDeclaration]
    split
    · exact h
    next hstop =>
    have htail := h.tail fun heof => hstop (.inl heof)
    split
    exacts [htail, ih htail]

theorem reports_condition {position : Position} (hp : S position) :
    Parse.Reports S (condition registry position) fun e => S e.position := by
  refine (reports_expression _).attempt.bind fun found hfound => ?_
  cases found with
  | none => exact (reports_skip fun _ => standing_skipCondition).map fun _ _ => hp
  | some e =>
    have he := hfound e rfl
    exact (reports_reportAll (arises_checkBoolean he)).map fun _ _ => he

theorem reports_report {position : Position} {problem : Problem} (hp : S position)
    (h : problem.isRepeat = false) : Parse.Reports S (report position problem) fun _ => True :=
  reports_reportAll (arises_fault hp h)

theorem reports_statementBody (scope : Typing.Scope) :
    Parse.Reports S (statementBody registry scope) fun _ => True := by
  refine reports_here.bind fun p hp => (reports_eatIf _).bind fun binds _ => ?_
  split
  · refine reports_here.bind fun q hq => (reports_expectName _).bind fun name _ => ?_
    have hvalue : Parse.Reports S (do
        Parse.expect .assign "'='"
        let value ← expression ⟨registry, scope, false⟩
        return (.bind name value.type value p, scope.insert name value.type) :
          Parse (Statement × Typing.Scope)) fun _ => True :=
      (reports_expect _ _).bind fun _ _ => (reports_expression _).map fun _ _ => trivial
    split
    · exact (reports_report hq rfl).bind fun _ _ => hvalue
    · exact hvalue
  · refine (reports_expression _).bind fun e he => ?_
    split
    · exact (reports_report he rfl).map fun _ _ => trivial
    · exact reports_pure trivial

theorem reports_statementEnd : Parse.Reports S statementEnd fun _ => True := by
  refine (reports_eatIf _).bind fun closed _ => ?_
  split
  · exact reports_pure trivial
  refine (reports_atKeyword _).bind fun ending _ => ?_
  split
  exacts [reports_pure trivial, reports_unexpected _]

theorem reports_statements (fuel : Nat) (scope : Typing.Scope) :
    Parse.Reports S (statements registry fuel scope) fun _ => True := by
  induction fuel generalizing scope with
  | zero => exact reports_pure trivial
  | succ fuel ih =>
    have hskip (scope : Typing.Scope) : Parse.Reports S
        (do skip skipStatement; statements registry fuel scope) fun _ => True :=
      (reports_skip fun _ => standing_skipStatement).bind fun _ _ => ih scope
    refine (reports_peek 0).bind fun next _ => ?_
    split
    · exact reports_pure trivial
    refine (reports_atKeyword _).bind fun ending _ => ?_
    split
    · exact reports_pure trivial
    refine (reports_look fun _ _ => trivial : Parse.Reports S atDeclaration fun _ => True).bind
      fun another _ => ?_
    split
    · exact reports_pure trivial
    refine (reports_statementBody registry scope).attempt.bind fun found _ => ?_
    split
    · exact hskip _
    refine reports_statementEnd.attempt.bind fun ended _ => ?_
    split
    · exact hskip _
    · exact (ih _).map fun _ _ => trivial

theorem reports_rule : Parse.Reports S (rule registry) fun r => S r.position :=
  reports_here.bind fun _ hp => (reports_expectKeyword _).bind fun _ _ =>
    (reports_expectString _).bind fun _ _ => (reports_expectKeyword _).bind fun _ _ =>
      (reports_condition registry hp).bind fun _ _ => (reports_expectKeyword _).bind fun _ _ =>
        reports_remaining.bind fun fuel _ => (reports_statements registry fuel []).bind fun _ _ =>
          (reports_expectKeyword _).map fun _ _ => hp

theorem reports_stageRefs (fuel : Nat) : Parse.Reports S (stageRefs fuel) fun _ => True := by
  induction fuel with
  | zero => exact reports_pure trivial
  | succ fuel ih =>
    refine (reports_eatIf _).bind fun found _ => ?_
    split
    · exact (reports_expectString _).bind fun _ _ => (reports_eatIf _).bind fun _ _ =>
        ih.map fun _ _ => trivial
    · exact reports_pure trivial

theorem reports_matchPolicy : Parse.Reports S matchPolicy fun _ => True := by
  have hword (word : String) (policy : MatchPolicy) {others : Parse MatchPolicy}
      (h : Parse.Reports S others fun _ => True) : Parse.Reports S
        (do if ← Parse.eatKeyword word then return policy else others) fun _ => True := by
    refine (reports_eatIf _).bind fun found _ => ?_
    split
    exacts [reports_pure trivial, h]
  exact hword _ _ (hword _ _ (hword _ _ (hword _ _ (reports_unexpected _))))

theorem reports_stageNumber {position : Position} (hp : S position) :
    Parse.Reports S (stageNumber position) fun _ => True := by
  have hrange (number : Int) : Parse.Reports S (do
      if leastStage ≤ number ∧ number ≤ greatestStage then return number
      else
        report position (.syntactic s!"stage number {number} out of range")
        return 0) fun _ => True := by
    split
    · exact reports_pure trivial
    · exact (reports_report hp rfl).map fun _ _ => trivial
  refine (reports_eatIf _).bind fun negative _ => (reports_peek 0).bind fun l _ => ?_
  split
  · refine reports_advance.bind fun _ _ => ?_
    split
    exacts [hrange _, hrange _]
  · exact reports_unexpected _

theorem reports_stage : Parse.Reports S stage fun s => S s.position :=
  reports_here.bind fun _ hp => (reports_expectKeyword _).bind fun _ _ =>
    (reports_stageNumber hp).bind fun _ _ => (reports_expectKeyword _).bind fun _ _ =>
      reports_matchPolicy.bind fun _ _ => reports_remaining.bind fun fuel _ =>
        (reports_stageRefs fuel).map fun _ _ => hp

theorem reports_stages (fuel : Nat) :
    Parse.Reports S (stages fuel) fun found => ∀ s ∈ found, S s.position := by
  induction fuel with
  | zero => exact reports_pure (by simp)
  | succ fuel ih =>
    refine (reports_atKeyword _).bind fun found _ => ?_
    split
    · exact reports_stage.bind fun s hs => ih.map fun more hmore => by simpa using ⟨hs, hmore⟩
    · exact reports_pure (by simp)

theorem arises_stageErrors (name : String) {found : List Stage} (h : ∀ s ∈ found, S s.position) :
    ∀ d ∈ stageErrors name found, d.Arises S := by
  induction found with
  | nil => exact arises_nil
  | cons a rest ih =>
    cases rest with
    | nil => exact arises_nil
    | cons b more =>
      have hb := h b (by simp)
      refine arises_append ?_ (ih fun s hs => h s (List.mem_cons_of_mem a hs))
      split_ifs
      exacts [arises_fault hb rfl, arises_fault hb rfl, arises_nil]

theorem reports_pipeline : Parse.Reports S pipeline fun p => S p.position := by
  refine reports_here.bind fun p hp => (reports_expectKeyword _).bind fun _ _ =>
    (reports_expectString _).bind fun name _ => reports_remaining.bind fun fuel _ =>
      (reports_stages fuel).bind fun found hfound => (reports_expectKeyword _).bind fun _ _ => ?_
  have hsorted : ∀ s ∈ sortBy Stage.number found, S s.position :=
    fun s hs => hfound s ((sortBy_perm Stage.number found).mem_iff.mp hs)
  have hrest : Parse.Reports S (do
      Parse.reportAll (stageErrors name (sortBy Stage.number found))
      return ⟨name, sortBy Stage.number found, p⟩ : Parse Pipeline) fun p => S p.position :=
    (reports_reportAll (arises_stageErrors name hsorted)).map fun _ _ => hp
  split
  · exact (reports_report hp rfl).bind fun _ _ => hrest
  · exact hrest

theorem reports_declaration :
    Parse.Reports S (declaration registry) fun d => S d.position := by
  refine (reports_atKeyword _).bind fun atRule _ => ?_
  split
  · exact (reports_rule registry).map fun _ hp => hp
  refine (reports_atKeyword _).bind fun atPipeline _ => ?_
  split
  · exact reports_pipeline.map fun _ hp => hp
  · refine (reports_peek 0).bind fun found _ => reports_here.bind fun p hp =>
      (reports_report hp rfl).bind fun _ _ => reports_advance.bind fun _ _ => ?_
    exact fun tokens hstanding =>
      ⟨hstanding, fun _ hd => absurd hd List.not_mem_nil, fun _ ha => by cases ha⟩

theorem reports_declarations (fuel : Nat) :
    Parse.Reports S (declarations registry fuel) fun found => ∀ d ∈ found, S d.position := by
  induction fuel with
  | zero => exact reports_pure (by simp)
  | succ fuel ih =>
    refine (reports_peek 0).bind fun next _ => ?_
    split
    · exact reports_pure (by simp)
    refine (reports_declaration registry).attempt.bind fun found hfound => ?_
    cases found with
    | none =>
      exact (reports_skip fun _ => standing_skipToDeclaration).bind fun _ _ => ih
    | some d => exact ih.map fun more hmore => by simpa using ⟨hfound d rfl, hmore⟩

end Declarations

end Grammar

end LogRules
