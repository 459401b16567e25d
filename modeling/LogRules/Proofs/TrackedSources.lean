import LogRules.Proofs.TrackedExpressions

/-!
Rules and pipelines are parsed alike at every place, also where parsing goes on behind an error. A
declaration without errors does not depend on what stands behind it.
-/
namespace LogRules

namespace Grammar

open Parse

section Skipping

variable {tokens : List Token} {last : Token}

theorem startsDeclaration_append_end (hlast : last.lexeme = .eof) :
    startsDeclaration (tokens ++ [last]) = startsDeclaration tokens := by
  simp only [startsDeclaration, tokenAt_append_end _ hlast]

theorem startsDeclaration_relocate (move : Position → Position) (tokens : List Token) :
    startsDeclaration (tokens.map (Token.relocate move)) = startsDeclaration tokens := by
  simp only [startsDeclaration, tokenAt_relocate]

/-- How a function leaves tokens out: up to one where it stops, or behind one that ends what is
left out. -/
structure Skips (s : List Token → List Token) (stops : List Token → Bool) (ends : Lexeme → Bool) :
    Prop where
  step : ∀ t rest, s (t :: rest) =
    if stops (t :: rest) then t :: rest else if ends t.lexeme then rest else s rest
  eof : ∀ t, t.lexeme = .eof → stops [t]
  relocate : ∀ move tokens, stops (tokens.map (Token.relocate move)) = stops tokens

theorem skips_toDeclaration :
    Skips skipToDeclaration (fun tokens => tokenAt 0 tokens == .eof || startsDeclaration tokens)
      (·.isKeyword "end") where
  step t rest := by simp [skipToDeclaration]
  eof t h := by simp [h]
  relocate move tokens := by simp only [tokenAt_relocate, startsDeclaration_relocate]

theorem skips_statement :
    Skips skipStatement
      (fun tokens => tokenAt 0 tokens == .eof || (tokenAt 0 tokens).isKeyword "end" ||
        startsDeclaration tokens)
      (· == .symbol .semicolon) where
  step t rest := by simp [skipStatement, or_assoc]
  eof t h := by simp [h]
  relocate move tokens := by simp only [tokenAt_relocate, startsDeclaration_relocate]

theorem skips_condition :
    Skips skipCondition (fun tokens => tokenAt 0 tokens == .eof ||
      (tokenAt 0 tokens).isKeyword "then" || (tokenAt 0 tokens).isKeyword "end")
      (fun _ => false) where
  step t rest := by simp [skipCondition, or_assoc]
  eof t h := by simp [h]
  relocate move tokens := by simp only [tokenAt_relocate]

variable {s : List Token → List Token} {stops : List Token → Bool} {ends : Lexeme → Bool}

/-- Tokens left over stand before the same end, at every place; they are fewer if the first has not
been a reason to stop. -/
theorem Skips.left (h : Skips s stops ends) (move : Position → Position) (tokens : List Token)
    (hlast : last.lexeme = .eof) : ∃ left, left <:+ tokens ∧ s (tokens ++ [last]) = left ++ [last] ∧
      s ((tokens ++ [last]).map (Token.relocate move)) =
        (left ++ [last]).map (Token.relocate move) ∧
      (stops (tokens ++ [last]) = false → left.length < tokens.length) := by
  induction tokens with
  | nil =>
    have hstops : stops [last] = true := h.eof last hlast
    have hstops' : stops [last.relocate move] = true := h.eof (last.relocate move) hlast
    refine ⟨[], List.suffix_refl _, ?_, ?_, fun hgoes => ?_⟩
    · simp [h.step, hstops]
    · simp [h.step, hstops']
    · simp [hstops] at hgoes
  | cons t rest ih =>
    have hsame : stops (t.relocate move :: (rest ++ [last]).map (Token.relocate move)) =
        stops (t :: (rest ++ [last])) := h.relocate move (t :: (rest ++ [last]))
    simp only [List.cons_append, List.map_cons, h.step, hsame]
    by_cases hstops : stops (t :: (rest ++ [last])) = true
    · refine ⟨t :: rest, List.suffix_refl _, ?_, ?_, fun hgoes => ?_⟩
      · rw [if_pos hstops, List.cons_append]
      · rw [if_pos hstops, List.cons_append, List.map_cons]
      · simp [hstops] at hgoes
    · rw [if_neg hstops, if_neg hstops]
      by_cases hends : ends t.lexeme = true
      · have hends' : ends (t.relocate move).lexeme = true := hends
        refine ⟨rest, List.suffix_cons t rest, if_pos hends, if_pos hends', fun _ => ?_⟩
        exact Nat.lt_succ_self _
      · have hends' : ¬ends (t.relocate move).lexeme = true := hends
        obtain ⟨left, hleft, heq, heq', -⟩ := ih
        refine ⟨left, hleft.trans (List.suffix_cons t rest), ?_, ?_, fun _ => ?_⟩
        · rw [if_neg hends, heq]
        · rw [if_neg hends', heq']
        · exact Nat.lt_succ_of_le hleft.length_le

end Skipping

variable {β β' : Type} {move : Position → Position} {g : β → β'} {sure : List Token → Prop}
  {eats : Prop} {tokens : List Token}

theorem tracks_skip {s : List Token → List Token} {stops : List Token → Bool}
    {ends : Lexeme → Bool} {f : Unit → Parse β} {f' : Unit → Parse β'} (h : Skips s stops ends)
    (hf : ∀ left last, left <:+ tokens → last.lexeme = .eof →
      (stops (tokens ++ [last]) = false → left.length < tokens.length) →
      Tracks move g (fun _ => False) False (f ()) (f' ()) left) :
    Tracks move g (fun _ => False) False (skip s >>= f) (skip s >>= f') tokens := by
  intro last behind hinner hlast hbehind
  obtain ⟨left, hleft, heq, heq', hfewer⟩ := h.left move tokens hlast
  obtain ⟨errors, left', result, hfeq, hleft', hresult, -, hq⟩ :=
    hf left last hleft hlast hfewer last behind (hinner.suffix hleft) hlast hbehind
  have hfirst : Grammar.skip s (tokens ++ [last]) = ⟨[], left ++ [last], some ()⟩ := by
    rw [Grammar.skip, heq]
  refine ⟨errors, left', result, ?_, hleft'.trans hleft, hresult, fun _ h => h.elim, ?_⟩
  · rw [bind_eq hfirst, hfeq]
  · rintro (rfl | ⟨-, hfalse⟩)
    · have hsecond : Grammar.skip s (tokens.map (Token.relocate move) ++ [last.relocate move]) =
          ⟨[], left.map (Token.relocate move) ++ [last.relocate move], some ()⟩ := by
        rw [Grammar.skip, map_append_end, map_append_end, heq']
      rw [bind_eq hsecond, hq (.inl rfl)]
    · exact hfalse.elim

/-- Tokens that the rest of a `rule` up to its `when` may follow. -/
def CutOff (tokens : List Token) : Prop :=
  (tokenAt 0 tokens).isKeyword "rule" ∧
    (tokens.length = 1 ∨ tokens.length = 2 ∧ ∃ text, tokenAt 1 tokens = .string text)

theorem CutOff.startsDeclaration (h : CutOff tokens) : startsDeclaration tokens = false := by
  obtain ⟨hrule, hlength⟩ := h
  have hpipeline : (tokenAt 0 tokens).isKeyword "pipeline" = false :=
    Lexeme.isKeyword_ne hrule (by decide)
  have hthird : tokenAt 2 tokens = .eof := by
    rw [tokenAt, List.getElem?_eq_none (by omega)]
  rw [Grammar.startsDeclaration, hpipeline, hthird]
  simp [Lexeme.isKeyword]

theorem startsDeclaration_append (hne : tokens ≠ []) (hcut : ¬CutOff tokens)
    (behind : List Token) :
    startsDeclaration (tokens.map (Token.relocate move) ++ behind) = startsDeclaration tokens := by
  have hpos := List.length_pos_iff.mpr hne
  rw [startsDeclaration, startsDeclaration, tokenAt_append hpos]
  by_cases hrule : (tokenAt 0 tokens).isKeyword "rule" = true
  · have hsecond : 1 < tokens.length := by
      by_contra h
      exact hcut ⟨hrule, .inl (by omega)⟩
    rw [tokenAt_append hsecond]
    split
    · next text htext =>
      have hthird : 2 < tokens.length := by
        by_contra h
        exact hcut ⟨hrule, .inr ⟨by omega, text, htext⟩⟩
      rw [tokenAt_append hthird]
    · simp
  · simp [hrule]

theorem Tracks.of_reports {p : Parse β} {q : Parse β'}
    (h : Tracks move g (fun _ => False) eats p q tokens)
    (hreports : ∀ last, Inner tokens → last.lexeme = .eof →
      (p (tokens ++ [last])).errors ≠ []) :
    Tracks move g sure eats p q tokens := by
  intro last behind hinner hlast hbehind
  obtain ⟨errors, left, result, hp, hleft, hsome, heaten, hq⟩ := h last behind hinner hlast hbehind
  refine ⟨errors, left, result, hp, hleft, hsome, heaten, fun hcase => hq (.inl ?_)⟩
  refine hcase.resolve_right fun h => hreports last hinner hlast ?_
  rw [hp, h.1]

/-- Whether a declaration starts may depend on what follows. Where it does, parsing that goes on has
something to report. -/
theorem tracks_atDeclaration {f : Bool → Parse β} {f' : Bool → Parse β'} (hne : tokens ≠ [])
    (hcut : CutOff tokens → ∀ last, Inner tokens → last.lexeme = .eof →
      (f false (tokens ++ [last])).errors ≠ [])
    (hf : ∀ found, found = startsDeclaration tokens →
      Tracks move g OneMore False (f found) (f' found) tokens) :
    Tracks move g OneMore False (atDeclaration >>= f) (atDeclaration >>= f') tokens := by
  have hp (last : Token) (hlast : last.lexeme = .eof) : atDeclaration (tokens ++ [last]) =
      ⟨[], tokens ++ [last], some (startsDeclaration tokens)⟩ := by
    rw [atDeclaration, startsDeclaration_append_end hlast]
  have hf' : Tracks move g OneMore False (f (startsDeclaration tokens))
    (f' (startsDeclaration tokens)) tokens := hf _ rfl
  by_cases h : CutOff tokens
  · have hfalse := h.startsDeclaration
    refine Tracks.of_reports (.look (h := id) False hp (fun last behind hlast hcase => ?_)
      (fun _ _ _ h => h) fun _ => hf'.mono (fun _ h => h.elim) id) fun last hinner hlast => ?_
    · obtain rfl : behind = [last.relocate move] := by simpa using hcase
      rw [atDeclaration, map_append_end, startsDeclaration_relocate,
        startsDeclaration_append_end hlast]
      rfl
    · rw [bind_eq (hp last hlast), hfalse]
      exact hcut h last hinner hlast
  · refine .look (h := id) True hp (fun last behind hlast _ => ?_)
      (fun _ _ _ _ => trivial) fun _ => hf'
    rw [atDeclaration, startsDeclaration_append hne h]
    rfl

section Rules

variable {registry : Registry}

theorem tracks_condition (p : Position) :
    Tracks move (Expr.relocate move) OneMore False (condition registry p)
      (condition registry (move p)) tokens := by
  refine (tracks_expression _ tokens).attempt (fun e left _ _ => ?_) fun left last _ _ _ _ => ?_
  · exact .reportAll (Typing.checkBoolean_relocate move e) fun _ _ => tracks_pure rfl
  · exact tracks_skip skips_condition fun _ _ _ _ _ => tracks_pure (Expr.relocate_ofValue move p _)

/-- A statement and the scope behind it, at another place. -/
def relocateFound (move : Position → Position) (found : Statement × Typing.Scope) :
    Statement × Typing.Scope :=
  (found.1.relocate move, found.2)

theorem tracks_statementBody (scope : Typing.Scope) :
    Tracks move (relocateFound move) OneMore True (statementBody registry scope)
      (statementBody registry scope) tokens := by
  refine .here oneMore_nil fun p => .eatIf rfl oneMore_nil (fun left _ _ => ?_) ?_
  · refine .here oneMore_nil fun q => (tracks_expectName _).bind fun name left _ _ => ?_
    have hvalue (left : List Token) : Tracks move (relocateFound move) OneMore False
        (do
          expect .assign "'='"
          let value ← expression ⟨registry, scope, false⟩
          return (.bind name value.type value p, scope.insert name value.type))
        (do
          expect .assign "'='"
          let value ← expression ⟨registry, scope, false⟩
          return (.bind name value.type value (move p), scope.insert name value.type)) left := by
      refine (tracks_expect _ _).bind fun _ left _ _ => ?_
      refine (tracks_expression _ left).after fun value _ _ _ => tracks_pure ?_
      rw [relocateFound, Statement.relocate, Expr.type_relocate]
    simp only [id_eq]
    split
    · exact .reportAll rfl fun left _ => hvalue left
    · exact hvalue left
  · refine (tracks_expression _ tokens).bind fun e left _ _ => ?_
    rw [Expr.isCall_relocate]
    split
    · refine .reportAll ?_ fun _ _ => tracks_pure rfl
      rw [Expr.position_relocate]
      rfl
    · exact tracks_pure rfl

theorem tracks_statementEnd : Tracks move id OneMore False statementEnd statementEnd tokens := by
  refine .eatIf (by simp) oneMore_nil (fun _ _ _ => tracks_pure rfl) ?_
  refine .atKeyword oneMore_nil fun found _ => ?_
  split
  · exact tracks_pure rfl
  · exact tracks_unexpected _

theorem statementEnd_reports (hsemicolon : tokenAt 0 tokens ≠ .symbol .semicolon)
    (hend : (tokenAt 0 tokens).isKeyword "end" = false) : (statementEnd tokens).errors ≠ [] := by
  have heat : eat .semicolon tokens = ⟨[], tokens, some false⟩ := by
    rw [eat, eatIf_eq, if_neg (by simpa using hsemicolon)]
  have hword : atKeyword "end" tokens = ⟨[], tokens, some false⟩ := by
    have hpeek : atKeyword "end" tokens =
      ⟨[], tokens, some ((tokenAt 0 tokens).isKeyword "end")⟩ := rfl
    rw [hpeek, hend]
  have hunexpected : statementEnd tokens = unexpected "';'" tokens := by
    rw [statementEnd, bind_eq heat]
    exact bind_eq hword
  rw [hunexpected]
  intro h
  cases h

/-- Where a declaration may be cut off, nothing that starts there is a statement. -/
theorem statement_reports {f : Option (Statement × Typing.Scope) → Parse β} {last : Token}
    {more : Option Unit → Statement × Typing.Scope → Parse β} {scope : Typing.Scope}
    (hmore : ∀ found, f (some found) = (attempt statementEnd >>= fun ended => more ended found))
    (hcut : CutOff tokens) (hinner : Inner tokens) (hlast : last.lexeme = .eof) :
    ((attempt (statementBody registry scope) >>= f) (tokens ++ [last])).errors ≠ [] := by
  intro hclean
  have htracks : Tracks id (relocateFound id) OneMore True (statementBody registry scope)
    (statementBody registry scope) tokens := tracks_statementBody scope
  obtain ⟨errors, left, result, hbody, hleft, hsome, heaten, -⟩ :=
    htracks last [last] hinner hlast (by simp)
  obtain ⟨hnil, hrest⟩ := errors_bind hclean
  have hattempt : attempt (statementBody registry scope) (tokens ++ [last]) =
      ⟨errors, left ++ [last], some result⟩ := by
    rw [attempt, hbody]
  rw [hattempt] at hnil hrest
  obtain ⟨found, rfl⟩ := Option.isSome_iff_exists.mp (hsome hnil)
  have hended := hrest _ rfl
  rw [hmore found] at hended
  have hfewer : left.length < tokens.length := heaten rfl trivial
  have hfirst : tokenAt 0 left = .eof ∨ ∃ text, tokenAt 0 left = .string text := by
    obtain ⟨-, hlength | ⟨hlength, text, htext⟩⟩ := hcut
    · obtain rfl : left = [] := List.length_eq_zero_iff.mp (by omega)
      exact .inl rfl
    · cases left with
      | nil => exact .inl rfl
      | cons t more =>
        obtain ⟨eaten, rfl⟩ := hleft
        rw [List.length_append, List.length_cons] at hlength hfewer
        obtain ⟨t', rfl⟩ := List.length_eq_one_iff.mp (show eaten.length = 1 by omega)
        exact .inr ⟨text, htext⟩
  refine statementEnd_reports ?_ ?_ (errors_bind hended).1
  · rw [tokenAt_append_end _ hlast]
    obtain h | ⟨text, h⟩ := hfirst <;> simp [h]
  · rw [tokenAt_append_end _ hlast]
    obtain h | ⟨text, h⟩ := hfirst <;> simp [h, Lexeme.isKeyword]

theorem tracks_statements {fuel fuel' : Nat} (scope : Typing.Scope) (hfuel : tokens.length < fuel)
    (hfuel' : tokens.length < fuel') :
    Tracks move (List.map (Statement.relocate move)) OneMore False (statements registry fuel scope)
      (statements registry fuel' scope) tokens := by
  induction fuel generalizing fuel' tokens scope with
  | zero => omega
  | succ fuel ih =>
    obtain ⟨fuel', rfl⟩ : ∃ n, fuel' = n + 1 := ⟨fuel' - 1, by omega⟩
    refine .peek oneMore_nil fun l hl => ?_
    split
    · exact tracks_pure rfl
    next heof =>
    refine .atKeyword oneMore_nil fun atEnd hend => ?_
    split
    · exact tracks_pure rfl
    next hgoes =>
    refine tracks_atDeclaration (ne_nil_of_tokenAt hl heof) (fun hcut last hinner hlast => ?_)
      fun found hfound => ?_
    · exact statement_reports (fun _ => rfl) hcut hinner hlast
    split
    · exact tracks_pure rfl
    next hstatement =>
    -- Skipping eats the first token where the statement has not: nothing stops there.
    have hskip (scope : Typing.Scope) {left : List Token} (hleft : left <:+ tokens) :
        Tracks move (List.map (Statement.relocate move)) (fun _ => False) False
          (do
            skip skipStatement
            statements registry fuel scope)
          (do
            skip skipStatement
            statements registry fuel' scope) left := by
      refine tracks_skip skips_statement fun left' last hleft' hlast hfewer => ?_
      have hlength := hleft.length_le
      have hlength' := hleft'.length_le
      have hless : left'.length < tokens.length := by
        by_cases hsame : left.length = tokens.length
        · rw [← hsame]
          obtain rfl := hleft.eq_of_length hsame
          refine hfewer ?_
          rw [tokenAt_append_end 0 hlast, startsDeclaration_append_end hlast, ← hl, ← hfound]
          simp_all
        · omega
      exact (ih scope (by omega) (by omega)).mono (fun _ h => h.elim) id
    refine (tracks_statementBody scope).attempt (fun found left hleft hfewer => ?_)
      fun left _ hleft _ _ _ => hskip scope hleft
    obtain ⟨statement, scope'⟩ := found
    have hfewer := hfewer trivial
    refine tracks_statementEnd.attempt (fun _ left' hleft' _ => ?_)
      fun left' _ hleft' _ _ _ => hskip scope' (hleft'.trans hleft)
    have hlength := hleft'.length_le
    exact (ih scope' (by omega) (by omega)).bind fun rest _ _ _ => tracks_pure rfl

/-- A rule behind its keyword; the keyword stands at `position`. -/
def ruleBody (registry : Registry) (position : Position) : Parse Rule := do
  let name ← expectString "rule name string"
  expectKeyword "when"
  let condition ← condition registry position
  expectKeyword "then"
  let statements ← statements registry (← remaining) []
  expectKeyword "end"
  return ⟨name, condition, statements, position⟩

theorem rule_eq : rule registry = (do
    let position ← here
    expectKeyword "rule"
    ruleBody registry position) :=
  rfl

theorem tracks_ruleBody (p : Position) :
    Tracks move (Rule.relocate move) sure True (ruleBody registry p) (ruleBody registry (move p))
      tokens := by
  refine (tracks_expectString _).before fun name _ _ => ?_
  refine (tracks_expectKeyword _).before fun _ _ _ => ?_
  refine (tracks_condition p).before fun condition _ _ => ?_
  refine (tracks_expectKeyword _).before fun _ _ _ => ?_
  refine .remaining fun _ _ hfuel hfuel' => ?_
  refine (tracks_statements [] hfuel hfuel').before fun statements _ _ => ?_
  exact (tracks_expectKeyword _).bind_sure fun _ _ _ => tracks_pure rfl

theorem tracks_rule :
    Tracks move (Rule.relocate move) sure True (rule registry) (rule registry) tokens :=
  .here (fun _ => trivial) fun p => (tracks_expectKeyword _).before fun _ _ _ => tracks_ruleBody p

end Rules

section Pipelines

theorem tracks_stageRefs {fuel fuel' : Nat} (hfuel : tokens.length < fuel)
    (hfuel' : tokens.length < fuel') :
    Tracks move id OneMore False (stageRefs fuel) (stageRefs fuel') tokens := by
  induction fuel generalizing fuel' tokens with
  | zero => omega
  | succ fuel ih =>
    obtain ⟨fuel', rfl⟩ : ∃ n, fuel' = n + 1 := ⟨fuel' - 1, by omega⟩
    refine .eatIf rfl oneMore_nil (fun left _ hlength => ?_) (tracks_pure rfl)
    refine (tracks_expectString _).bind fun name left' hleft' _ => ?_
    have hlength' := hleft'.length_le
    refine (tracks_eatIf (by simp)).bind fun _ left'' hleft'' _ => ?_
    have hlength'' := hleft''.length_le
    exact (ih (by omega) (by omega)).bind fun rest _ _ _ => tracks_pure rfl

theorem tracks_matchPolicy : Tracks move id OneMore False matchPolicy matchPolicy tokens := by
  have hnext {policy : MatchPolicy} {other : Parse MatchPolicy} {word : String}
      (h : Tracks move id OneMore False other other tokens) :
      Tracks move id OneMore False
        (do
          if ← eatKeyword word then return policy
          else other)
        (do
          if ← eatKeyword word then return policy
          else other) tokens :=
    .eatIf rfl oneMore_nil (fun _ _ _ => tracks_pure rfl) h
  exact hnext (hnext (hnext (hnext (tracks_unexpected _))))

theorem tracks_stageNumber (p : Position) :
    Tracks move id OneMore False (stageNumber p) (stageNumber (move p)) tokens := by
  have hrange (number : Int) {left : List Token} : Tracks move id OneMore False
      (do
        if leastStage ≤ number ∧ number ≤ greatestStage then return number
        else
          report p (.syntactic s!"stage number {number} out of range")
          return 0)
      (do
        if leastStage ≤ number ∧ number ≤ greatestStage then return number
        else
          report (move p) (.syntactic s!"stage number {number} out of range")
          return 0) left := by
    split
    · exact tracks_pure rfl
    · exact .reportAll rfl fun _ _ => tracks_pure rfl
  refine (tracks_eatIf (by simp)).bind fun negative left _ _ => .peek oneMore_nil fun l hl => ?_
  split
  · refine .advance (ne_nil_of_tokenAt hl (by simp)) fun _ _ _ => ?_
    simp only [id_eq]
    split
    · exact hrange _
    · exact hrange _
  · exact tracks_unexpected _

theorem tracks_stage : Tracks move (Stage.relocate move) OneMore True stage stage tokens := by
  refine .here oneMore_nil fun p => (tracks_expectKeyword _).bind fun _ _ _ _ => ?_
  refine (tracks_stageNumber p).bind fun number _ _ _ => ?_
  refine (tracks_expectKeyword _).bind fun _ _ _ _ => tracks_matchPolicy.bind fun policy _ _ _ => ?_
  refine .remaining fun _ _ hfuel hfuel' => ?_
  exact (tracks_stageRefs hfuel hfuel').bind fun refs _ _ _ => tracks_pure rfl

theorem tracks_stages {fuel fuel' : Nat} (hfuel : tokens.length < fuel)
    (hfuel' : tokens.length < fuel') :
    Tracks move (List.map (Stage.relocate move)) OneMore False (stages fuel) (stages fuel')
      tokens := by
  induction fuel generalizing fuel' tokens with
  | zero => omega
  | succ fuel ih =>
    obtain ⟨fuel', rfl⟩ : ∃ n, fuel' = n + 1 := ⟨fuel' - 1, by omega⟩
    refine .atKeyword oneMore_nil fun found _ => ?_
    split
    · refine tracks_stage.after fun first left _ hlength => ?_
      exact (ih (by omega) (by omega)).bind fun rest _ _ _ => tracks_pure rfl
    · exact tracks_pure rfl

theorem stageErrors_relocate (name : String) (found : List Stage) :
    stageErrors name (found.map (Stage.relocate move)) =
      (stageErrors name found).map (Diagnostic.relocate move) := by
  induction found with
  | nil => rfl
  | cons a rest ih =>
    cases rest with
    | nil => rfl
    | cons b rest =>
      simp only [List.map_cons] at ih
      simp only [List.map_cons, stageErrors, List.map_append, ih, Stage.number_relocate,
        Stage.position_relocate]
      congr 1
      split_ifs <;> rfl

/-- A pipeline behind its keyword; the keyword stands at `position`. -/
def pipelineBody (position : Position) : Parse Pipeline := do
  let name ← expectString "pipeline name string"
  let found ← stages (← remaining)
  expectKeyword "end"
  if found.isEmpty then report position (.emptyPipeline name)
  let sorted := sortBy Stage.number found
  reportAll (stageErrors name sorted)
  return ⟨name, sorted, position⟩

theorem pipeline_eq : pipeline = (do
    let position ← here
    expectKeyword "pipeline"
    pipelineBody position) :=
  rfl

theorem tracks_pipelineBody (p : Position) :
    Tracks move (Pipeline.relocate move) sure True (pipelineBody p) (pipelineBody (move p))
      tokens := by
  refine (tracks_expectString _).before fun name _ _ => ?_
  refine .remaining fun _ _ hfuel hfuel' => (tracks_stages hfuel hfuel').before fun found _ _ => ?_
  refine (tracks_expectKeyword _).bind_sure fun _ left _ => ?_
  have hsorted : sortBy Stage.number (found.map (Stage.relocate move)) =
      (sortBy Stage.number found).map (Stage.relocate move) :=
    sortBy_map (fun _ _ => Iff.rfl) found
  have htail (left : List Token) : Tracks move (Pipeline.relocate move) sure False
      (do
        reportAll (stageErrors name (sortBy Stage.number found))
        return (⟨name, sortBy Stage.number found, p⟩ : Pipeline))
      (do
        reportAll (stageErrors name (sortBy Stage.number (found.map (Stage.relocate move))))
        return (⟨name, sortBy Stage.number (found.map (Stage.relocate move)), move p⟩ :
          Pipeline)) left := by
    rw [hsorted]
    exact .reportAll (stageErrors_relocate name _) fun _ _ => tracks_pure rfl
  simp only [List.isEmpty_map, id_eq]
  split
  · exact .reportAll rfl fun left _ => htail left
  · exact htail left

theorem tracks_pipeline :
    Tracks move (Pipeline.relocate move) sure True pipeline pipeline tokens :=
  .here (fun _ => trivial) fun p => (tracks_expectKeyword _).before fun _ _ _ =>
    tracks_pipelineBody p

end Pipelines

section Declarations

variable {registry : Registry} {t last : Token} {rest : List Token}

theorem advance_cons (ht : t.lexeme ≠ .eof) (rest : List Token) :
    advance (t :: rest) = ⟨[], rest, some ()⟩ := by
  rw [advance, behind, if_neg ht]

theorem expectKeyword_cons {word : String} (ht : t.lexeme ≠ .eof)
    (hword : t.lexeme.isKeyword word = true) (rest : List Token) :
    expectKeyword word (t :: rest) = ⟨[], rest, some ()⟩ := by
  have heat : eatKeyword word (t :: rest) = ⟨[], rest, some true⟩ := by
    rw [eatKeyword, eatIf_eq, tokenAt_zero_cons, if_pos hword, behind, if_neg ht]
  exact bind_eq heat

/-- What is done where no declaration starts. -/
def noDeclaration : Parse Declaration := do
  let found ← peek 0
  report (← here) (.syntactic s!"expected 'rule' or 'pipeline', found {found.text}")
  advance
  abandon

theorem noDeclaration_cons (ht : t.lexeme ≠ .eof) (rest : List Token) :
    noDeclaration (t :: rest) = ⟨[⟨t.position, .syntactic
      s!"expected 'rule' or 'pipeline', found {t.lexeme.text}"⟩], rest, none⟩ := by
  have hpeek : peek 0 (t :: rest) = ⟨[], t :: rest, some t.lexeme⟩ := rfl
  have hhere : here (t :: rest) = ⟨[], t :: rest, some t.position⟩ := rfl
  rw [noDeclaration, bind_eq hpeek, bind_eq hhere]
  simp only [bind, Parse.bind, report, reportAll, advance_cons ht, abandon, List.append_nil]

theorem tracks_noDeclaration {g : Declaration → Declaration} (hne : tokens ≠ []) :
    Tracks move g sure eats noDeclaration noDeclaration tokens := by
  obtain ⟨t, rest, rfl⟩ := List.exists_cons_of_ne_nil hne
  intro last behind hinner hlast hbehind
  have ht : t.lexeme ≠ .eof := hinner t (by simp)
  refine ⟨_, rest, none, noDeclaration_cons ht _, List.suffix_cons t rest, by simp, by simp, ?_⟩
  intro _
  exact noDeclaration_cons (t := t.relocate move) ht _

theorem tracks_declaration (hne : tokens ≠ []) :
    Tracks move (Declaration.relocate move) sure True (declaration registry) (declaration registry)
      tokens := by
  refine .atKeyword (fun _ => trivial) fun atRule _ => ?_
  split
  · exact tracks_rule.bind_sure fun _ _ _ => tracks_pure rfl
  refine .atKeyword (fun _ => trivial) fun atPipeline _ => ?_
  split
  · exact tracks_pipeline.bind_sure fun _ _ _ => tracks_pure rfl
  · exact tracks_noDeclaration hne

/-- The first token decides what is read from the others. -/
theorem declaration_cons (ht : t.lexeme ≠ .eof) (rest : List Token) :
    declaration registry (t :: rest) =
      if t.lexeme.isKeyword "rule" then
        (do return .rule (← ruleBody registry t.position) : Parse Declaration) rest
      else if t.lexeme.isKeyword "pipeline" then
        (do return .pipeline (← pipelineBody t.position) : Parse Declaration) rest
      else noDeclaration (t :: rest) := by
  have hword (word : String) : atKeyword word (t :: rest) =
    ⟨[], t :: rest, some (t.lexeme.isKeyword word)⟩ := rfl
  have hhere : here (t :: rest) = ⟨[], t :: rest, some t.position⟩ := rfl
  rw [declaration, declarationWith, bind_lift (hword "rule")]
  by_cases hrule : t.lexeme.isKeyword "rule" = true
  · have hbody : rule registry (t :: rest) = ruleBody registry t.position rest := by
      rw [rule_eq, bind_eq hhere, bind_eq (expectKeyword_cons ht hrule _)]
    rw [if_pos hrule, if_pos hrule, bind_congr_left hbody]
  rw [if_neg hrule, if_neg hrule, bind_lift (hword "pipeline")]
  by_cases hpipeline : t.lexeme.isKeyword "pipeline" = true
  · have hbody : pipeline (t :: rest) = pipelineBody t.position rest := by
      rw [pipeline_eq, bind_eq hhere, bind_eq (expectKeyword_cons ht hpipeline _)]
    rw [if_pos hpipeline, if_pos hpipeline]
    exact bind_congr_left hbody _
  · rw [if_neg hpipeline, if_neg hpipeline]
    rfl

theorem declarations_of_eof (registry : Registry) {tokens : List Token}
    (h : tokenAt 0 tokens = .eof) (fuel : Nat) :
    declarations registry fuel tokens = ⟨[], tokens, some []⟩ := by
  cases fuel with
  | zero => rfl
  | succ fuel =>
    have hpeek : peek 0 tokens = ⟨[], tokens, some (tokenAt 0 tokens)⟩ := rfl
    rw [declarations, declarationsWith, bind_lift hpeek, if_pos h]
    rfl

/-- Before the end a declaration is tried, and parsing goes on behind it, found or not. -/
theorem declarations_succ (registry : Registry) {tokens : List Token} (h : tokenAt 0 tokens ≠ .eof)
    (fuel : Nat) : declarations registry (fuel + 1) tokens =
      (attempt (declaration registry) >>= fun found => match found with
        | some d => do return d :: (← declarations registry fuel)
        | none => do
          skip skipToDeclaration
          declarations registry fuel) tokens := by
  have hpeek : peek 0 tokens = ⟨[], tokens, some (tokenAt 0 tokens)⟩ := rfl
  rw [declarations, declarationsWith, bind_lift hpeek, if_neg h]
  rfl

/-- A declaration that fails has eaten something, too. -/
theorem declaration_fewer {left : List Token} (hne : tokens ≠ []) (hinner : Inner tokens)
    (hlast : last.lexeme = .eof)
    (h : (declaration registry (tokens ++ [last])).rest = left ++ [last]) :
    left.length < tokens.length := by
  obtain ⟨t, rest, rfl⟩ := List.exists_cons_of_ne_nil hne
  have ht : t.lexeme ≠ .eof := hinner t (by simp)
  have hinner' : Inner rest := hinner.suffix (List.suffix_cons t rest)
  have hbehind : ∃ left', left ++ [last] = left' ++ [last] ∧ left' <:+ rest := by
    rw [← h, List.cons_append, declaration_cons ht]
    split_ifs
    · have htracks : Tracks id (Declaration.relocate id) (fun _ => True) True
          (do return .rule (← ruleBody registry t.position))
          (do return .rule (← ruleBody registry t.position)) rest :=
        (tracks_ruleBody t.position).bind_sure fun _ _ _ => tracks_pure rfl
      exact htracks.rest hinner' hlast
    · have htracks : Tracks id (Declaration.relocate id) (fun _ => True) True
          (do return .pipeline (← pipelineBody t.position))
          (do return .pipeline (← pipelineBody t.position)) rest :=
        (tracks_pipelineBody t.position).bind_sure fun _ _ _ => tracks_pure rfl
      exact htracks.rest hinner' hlast
    · rw [noDeclaration_cons ht]
      exact ⟨rest, rfl, List.suffix_refl _⟩
  obtain ⟨left', hsame, hleft'⟩ := hbehind
  rw [List.append_cancel_right hsame]
  exact Nat.lt_succ_of_le hleft'.length_le

theorem tracks_declarations {fuel fuel' : Nat} (hfuel : tokens.length < fuel)
    (hfuel' : tokens.length < fuel') :
    Tracks move (List.map (Declaration.relocate move)) OneMore False (declarations registry fuel)
      (declarations registry fuel') tokens := by
  induction fuel generalizing fuel' tokens with
  | zero => omega
  | succ fuel ih =>
    obtain ⟨fuel', rfl⟩ : ∃ n, fuel' = n + 1 := ⟨fuel' - 1, by omega⟩
    refine .peek oneMore_nil fun l hl => ?_
    split
    · exact tracks_pure rfl
    next heof =>
    have hne := ne_nil_of_tokenAt hl heof
    refine (tracks_declaration hne).attempt (fun found left _ hfewer => ?_)
      fun left last hleft hinner hlast hrest => ?_
    · have hfewer := hfewer trivial
      exact (ih (by omega) (by omega)).bind fun more _ _ _ => tracks_pure rfl
    · have hfewer := declaration_fewer hne hinner hlast hrest
      refine tracks_skip skips_toDeclaration fun left' _ hleft' _ _ => ?_
      have hlength := hleft'.length_le
      exact (ih (by omega) (by omega)).mono (fun _ h => h.elim) id

/-- Whatever stands in a source, what can be built of it is given back. -/
theorem declarations_total (registry : Registry) (fuel : Nat) (tokens : List Token) :
    ∃ found, (declarations registry fuel tokens).result = some found := by
  induction fuel generalizing tokens with
  | zero => exact ⟨[], rfl⟩
  | succ fuel ih =>
    by_cases hend : tokenAt 0 tokens = .eof
    · exact ⟨[], by rw [declarations_of_eof registry hend]⟩
    · rw [declarations_succ registry hend]
      have hattempt : (attempt (declaration registry) tokens).result =
          some (declaration registry tokens).result :=
        rfl
      rw [result_bind hattempt]
      cases (declaration registry tokens).result with
      | none =>
        rw [result_bind (show (skip skipToDeclaration _).result = some () from rfl)]
        exact ih _
      | some d =>
        obtain ⟨more, hmore⟩ := ih (attempt (declaration registry) tokens).rest
        refine ⟨d :: more, ?_⟩
        simp only [bind_pure_eq, hmore, Option.map_some]

/-- Declarations without errors are parsed in the same way before other tokens, and parsing goes on
with these tokens as if nothing stood before them. -/
theorem declarations_append {behind : List Token} {fuel fuel' : Nat} (hinner : Inner tokens)
    (hlast : last.lexeme = .eof) (hbehind : behind ≠ []) (hfuel : tokens.length < fuel)
    (hfuel' : tokens.length + behind.length ≤ fuel')
    (hclean : (declarations registry fuel (tokens ++ [last])).errors = []) :
    ∃ found fuel'', behind.length ≤ fuel'' ∧
      (declarations registry fuel (tokens ++ [last])).result = some found ∧
      declarations registry fuel' (tokens ++ behind) =
        ⟨(declarations registry fuel'' behind).errors, (declarations registry fuel'' behind).rest,
          (declarations registry fuel'' behind).result.map (found ++ ·)⟩ := by
  induction fuel generalizing fuel' tokens with
  | zero => omega
  | succ fuel ih =>
    cases tokens with
    | nil =>
      have hend : declarations registry (fuel + 1) [last] = ⟨[], [last], some []⟩ :=
        declarations_of_eof registry (show tokenAt 0 [last] = .eof from hlast) (fuel + 1)
      refine ⟨[], fuel', by simpa using hfuel', by rw [List.nil_append, hend], ?_⟩
      simp
    | cons t rest =>
      obtain ⟨fuel', rfl⟩ : ∃ n, fuel' = n + 1 := ⟨fuel' - 1, by simp at hfuel'; omega⟩
      have ht : t.lexeme ≠ .eof := hinner t (by simp)
      have hstep (more : List Token) (fuel : Nat) :=
        declarations_succ registry (show tokenAt 0 (t :: rest ++ more) ≠ .eof from ht) fuel
      rw [hstep] at hclean
      rw [hstep, hstep]
      have htracks : Tracks id (Declaration.relocate id) (fun _ => True) True
        (declaration registry) (declaration registry) (t :: rest) := tracks_declaration (by simp)
      obtain ⟨errors, left, result, hfirst, hleft, hsome, hfewer, hsecond⟩ :=
        htracks last behind hinner hlast hbehind
      have hattempt : attempt (declaration registry) (t :: rest ++ [last]) =
          ⟨errors, left ++ [last], some result⟩ := by
        rw [attempt, hfirst]
      obtain ⟨hnil, hclean⟩ := errors_bind hclean
      rw [hattempt] at hnil hclean
      replace hnil : errors = [] := hnil
      subst hnil
      obtain ⟨d, rfl⟩ := Option.isSome_iff_exists.mp (hsome rfl)
      have hfewer := hfewer rfl trivial
      have hattempt' : attempt (declaration registry) (t :: rest ++ behind) =
          ⟨[], left ++ behind, some (some d)⟩ := by
        have hsame (tokens : List Token) : tokens.map (Token.relocate id) = tokens :=
          List.map_id'' Token.relocate_id tokens
        have heq := hsecond (.inr ⟨rfl, trivial⟩)
        rw [hsame, hsame] at heq
        rw [attempt, heq, Option.map_some, Declaration.relocate_id]
        rfl
      obtain ⟨hclean, -⟩ := errors_bind (hclean _ rfl)
      simp only [List.length_cons] at hfuel hfuel' hfewer
      have hmoreFuel : left.length + behind.length ≤ fuel' := by omega
      obtain ⟨found, fuel'', hfuel'', hresult, hmore⟩ :=
        ih (hinner.suffix hleft) (by omega) hmoreFuel hclean
      refine ⟨d :: found, fuel'', hfuel'', ?_, ?_⟩
      · rw [bind_eq hattempt]
        simp only [bind_pure_eq, hresult, Option.map_some]
      · rw [bind_eq hattempt']
        simp only [bind_pure_eq, hmore, Option.map_map]
        rfl

end Declarations

end Grammar

end LogRules
