import LogRules.Proofs.Barriers
import LogRules.Proofs.Composition

/-!
Where parsing goes on behind broken rules. A broken statement and a broken declaration are left out
up to the next declaration at most. A broken condition is left out up to the next `then` or `end`,
whatever stands before that word, so a rule is found behind broken ones if each broken condition of
these comes to such a word of its own.
-/
namespace LogRules

/-- Tokens that begin with a rule up to its `when`. -/
structure StartsRule (tokens : List Token) : Prop where
  keyword : (Parse.tokenAt 0 tokens).isKeyword "rule" = true
  name : ∃ text, Parse.tokenAt 1 tokens = .string text
  condition : (Parse.tokenAt 2 tokens).isKeyword "when" = true

namespace StartsRule

variable {tokens : List Token}

theorem relocate (h : StartsRule tokens) (move : Position → Position) :
    StartsRule (tokens.map (Token.relocate move)) := by
  constructor <;> simp only [Parse.tokenAt_relocate]
  exacts [h.keyword, h.name, h.condition]

theorem isKeyword_ne (h : StartsRule tokens) {word : String}
    (hword : Lexeme.sameWord "rule" word = false) :
    (Parse.tokenAt 0 tokens).isKeyword word = false :=
  Lexeme.isKeyword_ne h.keyword hword

theorem isBarrier (h : StartsRule tokens) : (Parse.tokenAt 0 tokens).isBarrier = true := by
  rw [Lexeme.isBarrier, h.keyword, Bool.true_or, Bool.true_or]

theorem barrier (h : StartsRule tokens) : Barrier tokens := by
  obtain ⟨text, htext⟩ := h.name
  exact ⟨h.isBarrier, by simp [htext], by simp [htext]⟩

theorem startsDeclaration (h : StartsRule tokens) : Grammar.startsDeclaration tokens = true := by
  obtain ⟨text, htext⟩ := h.name
  rw [Grammar.startsDeclaration, h.keyword, htext, h.condition, Bool.true_and, Bool.true_and,
    Bool.or_true]

theorem ne_nil (h : StartsRule tokens) : tokens ≠ [] := by
  rintro rfl
  exact absurd h.keyword Bool.false_ne_true

end StartsRule

/-- Whether a condition that starts here comes to its end, however broken it is: there is a `then`
or an `end` that is not read as a name. The first token may be that word if `free`. -/
def endsCondition : Bool → List Token → Bool
  | _, [] => false
  | free, t :: rest =>
    (free && (t.lexeme.isKeyword "then" || t.lexeme.isKeyword "end") &&
      Parse.tokenAt 0 rest != .symbol .colon && Parse.tokenAt 0 rest != .symbol .leftParen) ||
    endsCondition (!t.lexeme.takesName) rest

/-- A condition starts here that is an expression, with other tokens behind these, or one that
comes to its end among these. -/
def Delimited (registry : Registry) (behind tokens : List Token) : Prop :=
  (Grammar.expression ⟨registry, [], true⟩ (tokens ++ behind)).result.isSome ∨
    endsCondition true tokens = true

instance (registry : Registry) (behind tokens : List Token) :
    Decidable (Delimited registry behind tokens) :=
  inferInstanceAs (Decidable (_ ∨ _))

/-- Tokens from which parsing comes to a rule behind them, whatever else is wrong with them. -/
structure Recoverable (registry : Registry) (behind tokens : List Token) : Prop where
  ready : Ready tokens
  noPipeline : ∀ t ∈ tokens, t.lexeme.isKeyword "pipeline" = false
  conditions : ∀ left ∈ tokens.tails, Grammar.startsDeclaration left = true →
    Delimited registry behind (left.drop 3)

theorem Recoverable.suffix {registry : Registry} {behind tokens left : List Token}
    (h : Recoverable registry behind tokens) (hleft : left <:+ tokens) :
    Recoverable registry behind left where
  ready := h.ready.suffix hleft
  noPipeline t ht := h.noPipeline t (hleft.mem ht)
  conditions left' hleft' := by
    have hsuffix := (List.mem_tails left' left).mp hleft'
    exact h.conditions left' ((List.mem_tails left' tokens).mpr (hsuffix.trans hleft))

/-- The word that ends a condition parts the tokens in two. -/
theorem exists_split_of_endsCondition {free : Bool} {tokens : List Token} (hinner : Inner tokens)
    (h : endsCondition free tokens = true) :
    ∃ before t after, tokens = before ++ t :: after ∧ Ready before ∧ (before = [] → free = true) ∧
      (t.lexeme.isKeyword "then" || t.lexeme.isKeyword "end") = true ∧
      Parse.tokenAt 0 after ≠ .symbol .colon ∧ Parse.tokenAt 0 after ≠ .symbol .leftParen := by
  induction tokens generalizing free with
  | nil => cases h
  | cons t rest ih =>
    rw [endsCondition, Bool.or_eq_true] at h
    obtain hhere | hlater := h
    · simp only [Bool.and_eq_true, bne_iff_ne] at hhere
      obtain ⟨⟨⟨hfree, hword⟩, hcolon⟩, hparen⟩ := hhere
      have hready : Ready [] := ⟨by simp [Inner], by simp⟩
      exact ⟨[], t, rest, rfl, hready, fun _ => hfree, hword, hcolon, hparen⟩
    · obtain ⟨before, u, after, rfl, hready, hfree, hword⟩ :=
        ih (hinner.suffix (List.suffix_cons t rest)) hlater
      have hready' : Ready (t :: before) := by
        refine ⟨fun u hu => hinner u (by simp at hu ⊢; tauto), fun u hu => ?_⟩
        cases before with
        | nil =>
          obtain rfl : t = u := by simpa using hu
          simpa using hfree rfl
        | cons v before => exact hready.last u (by simpa using hu)
      exact ⟨t :: before, u, after, rfl, hready', fun h => absurd h (List.cons_ne_nil t before),
        hword⟩

namespace Grammar

open Parse

variable {behind tokens : List Token}

theorem expectString_cons {t : Token} {text : String} {expected : String}
    (ht : t.lexeme = .string text) (rest : List Token) :
    expectString expected (t :: rest) = ⟨[], rest, some text⟩ := by
  have hpeek : peek 0 (t :: rest) = ⟨[], t :: rest, some t.lexeme⟩ := rfl
  rw [expectString, bind_eq hpeek, ht]
  exact bind_eq (advance_cons (by simp [ht]) rest)

theorem expectString_of_ne {expected : String} (h : ∀ text, tokenAt 0 tokens ≠ .string text) :
    expectString expected tokens = unexpected expected tokens := by
  have hpeek : peek 0 tokens = ⟨[], tokens, some (tokenAt 0 tokens)⟩ := rfl
  rw [expectString, bind_eq hpeek]
  cases hl : tokenAt 0 tokens with
  | string text => exact absurd hl (h text)
  | _ => rfl

/-- What stops at a word among the tokens leaves what stands behind them alone. -/
theorem within_before {α : Type} {p : Parse α} {after : List Token}
    (h : Within (after ++ behind) p tokens) : Within behind p (tokens ++ after) := by
  obtain ⟨left, hleft, hrest⟩ := h
  refine ⟨left ++ after, ?_, ?_⟩
  · obtain ⟨eaten, rfl⟩ := hleft
    exact ⟨eaten, (List.append_assoc ..).symm⟩
  · rw [List.append_assoc, List.append_assoc, hrest]

theorem Skips.within {s : List Token → List Token} {stops : List Token → Bool}
    {ends : Lexeme → Bool} (h : Skips s stops ends) (hne : behind ≠ [])
    (hstops : stops behind = true) (tokens : List Token) : Within behind (skip s) tokens := by
  induction tokens with
  | nil =>
    obtain ⟨t, rest, rfl⟩ := List.exists_cons_of_ne_nil hne
    refine ⟨[], List.suffix_refl _, ?_⟩
    rw [skip, List.nil_append, h.step, if_pos hstops]
  | cons t rest ih =>
    obtain ⟨left, hleft, hrest⟩ := ih
    simp only [Within, skip, List.cons_append, h.step]
    split_ifs
    · exact ⟨t :: rest, List.suffix_refl _, rfl⟩
    · exact ⟨rest, List.suffix_cons t rest, rfl⟩
    · exact ⟨left, hleft.trans (List.suffix_cons t rest), hrest⟩

variable {registry : Registry} (hbehind : StartsRule behind)

include hbehind

theorem within_condition (position : Position) (hready : Ready tokens)
    (hcondition : Delimited registry behind tokens) :
    Within behind (condition registry position) tokens := by
  obtain hsome | hends := hcondition
  · have hexpression := bounded_expression hbehind.barrier ⟨registry, [], true⟩ tokens hready
    refine hexpression.attempt.bind_result fun found hfound left _ => ?_
    obtain rfl := Option.some.inj hfound
    obtain ⟨e, he⟩ := Option.isSome_iff_exists.mp hsome
    rw [he]
    exact .reportAll (stays_pure _).within
  obtain ⟨before, t, after, rfl, hbefore, -, hword, hcolon, hparen⟩ :=
    exists_split_of_endsCondition hready.inner hends
  have hnext : tokenAt 0 (after ++ behind) = tokenAt 0 after ∨
      tokenAt 0 (after ++ behind) = tokenAt 0 behind := by
    cases after with
    | nil => exact .inr rfl
    | cons u after => exact .inl rfl
  have hsymbol (s : Symbol) : tokenAt 0 behind ≠ .symbol s := by
    simpa using Lexeme.beq_symbol_of_isBarrier hbehind.isBarrier s
  have hbarrier : Barrier (t :: after ++ behind) := by
    refine ⟨?_, fun h => ?_, fun h => ?_⟩
    · have hends : t.lexeme.isBarrier = (t.lexeme.isKeyword "rule" ||
        (t.lexeme.isKeyword "then" || t.lexeme.isKeyword "end")) := Bool.or_assoc ..
      rw [List.cons_append, tokenAt_zero_cons, hends, hword, Bool.or_true]
    · exact hnext.elim (fun hat => hcolon (hat ▸ h)) fun hat => hsymbol .colon (hat ▸ h)
    · exact hnext.elim (fun hat => hparen (hat ▸ h)) fun hat => hsymbol .leftParen (hat ▸ h)
  refine within_before ?_
  refine (bounded_expression hbarrier _ before hbefore).attempt.bind fun found left _ => ?_
  split
  · exact .reportAll (stays_pure _).within
  · have hskip : Within (t :: after ++ behind) (skip skipCondition) left := by
      refine skips_condition.within (by simp) ?_ left
      simp [Bool.or_assoc, hword]
    exact hskip.bind fun _ _ _ => (stays_pure _).within

theorem within_statementBody (scope : Typing.Scope) (hready : Ready tokens) :
    Within behind (statementBody registry scope) tokens := by
  have hbarrier := hbehind.barrier
  refine .here fun position => .eatIf hready ?_ (fun t rest htokens ht hmore => ?_) ?_
  · exact hbehind.isKeyword_ne (by decide)
  · subst htokens
    have hne : rest ≠ [] := hready.ne_nil (by rw [Lexeme.takesName, ht]; rfl)
    refine .here fun namePosition => (within_expectName hmore hne _).bind fun name left hleft => ?_
    have hready := hmore.suffix hleft
    have hvalue : Within behind
        (do
          expect .assign "'='"
          let value ← expression ⟨registry, scope, false⟩
          return (Statement.bind name value.type value position, scope.insert name value.type))
        left :=
      .expect hbarrier hready fun _ rest _ _ hready =>
        (bounded_expression hbarrier _ rest hready).bind fun _ _ _ => (stays_pure _).within
    split
    · exact .reportAll hvalue
    · exact hvalue
  · refine (bounded_expression hbarrier _ tokens hready).bind fun e left _ => ?_
    split
    · exact .reportAll (stays_pure _).within
    · exact (stays_pure _).within

theorem within_statementEnd (hready : Ready tokens) : Within behind statementEnd tokens := by
  refine .eat hbehind.barrier hready (fun _ _ _ _ _ => (stays_pure _).within) ?_
  rw [if_neg Bool.false_ne_true]
  refine .atKeyword ?_
  split
  · exact (stays_pure _).within
  · exact (stays_unexpected _).within

theorem within_statements (fuel : Nat) (scope : Typing.Scope) (hready : Ready tokens) :
    Within behind (statements registry fuel scope) tokens := by
  induction fuel generalizing tokens scope with
  | zero => exact (stays_pure _).within
  | succ fuel ih =>
    have hskip (scope : Typing.Scope) {left : List Token} (hready : Ready left) : Within behind
        (do
          skip skipStatement
          statements registry fuel scope) left := by
      have hstops : Within behind (skip skipStatement) left :=
        skips_statement.within hbehind.ne_nil (by simp [hbehind.startsDeclaration]) left
      exact hstops.bind fun _ left' hleft' => ih scope (hready.suffix hleft')
    refine .peek ?_
    split
    · exact (stays_pure _).within
    refine .atKeyword ?_
    split
    · exact (stays_pure _).within
    refine .atDeclaration ?_
    split
    · exact (stays_pure _).within
    refine (within_statementBody hbehind scope hready).attempt.bind fun found left hleft => ?_
    have hready := hready.suffix hleft
    split
    · exact hskip scope hready
    · refine (within_statementEnd hbehind hready).attempt.bind fun ended left' hleft' => ?_
      have hready := hready.suffix hleft'
      split
      · exact hskip _ hready
      · exact (ih _ hready).bind fun _ _ _ => (stays_pure _).within

theorem within_expectString {β : Type} {expected : String} {f : String → Parse β}
    (hready : Ready tokens)
    (hf : ∀ t rest text, tokens = t :: rest → t.lexeme = .string text → Ready rest →
      Within behind (f text) rest) : Within behind (expectString expected >>= f) tokens := by
  by_cases h : ∃ text, tokenAt 0 (tokens ++ behind) = .string text
  · obtain ⟨text, htext⟩ := h
    cases tokens with
    | nil =>
      have hbarrier := hbehind.isBarrier
      rw [show tokenAt 0 behind = .string text from htext] at hbarrier
      cases hbarrier
    | cons t rest =>
      obtain ⟨left, hleft, hrest⟩ := hf t rest text rfl htext hready.tail
      refine ⟨left, hleft.trans (List.suffix_cons t rest), ?_⟩
      rw [List.cons_append, bind_eq (expectString_cons htext _), hrest]
  · have hfails : expectString expected (tokens ++ behind) =
        unexpected expected (tokens ++ behind) :=
      expectString_of_ne (not_exists.mp h)
    exact ⟨tokens, List.suffix_refl _, by rw [bind_congr_left hfails f]; rfl⟩

/-- A rule whose keyword has been read. -/
theorem within_ruleBody (position : Position) (hready : Ready tokens)
    (hcondition : ∀ t u rest text, tokens = t :: u :: rest → t.lexeme = .string text →
      u.lexeme.isKeyword "when" = true → Delimited registry behind rest) :
    Within behind (ruleBody registry position) tokens := by
  refine within_expectString hbehind hready fun t rest name htokens ht hready => ?_
  refine .expectKeyword hready (hbehind.isKeyword_ne (by decide)) fun u rest' hrest hu hready => ?_
  have hcondition := hcondition t u rest' name (by rw [htokens, hrest]) ht hu
  refine (within_condition hbehind position hready hcondition).bind fun condition left hleft => ?_
  have hready := hready.suffix hleft
  refine .expectKeyword hready (hbehind.isKeyword_ne (by decide)) fun _ rest _ _ hready => ?_
  refine .remaining fun fuel => ?_
  refine (within_statements hbehind fuel [] hready).bind fun statements left hleft => ?_
  exact .expectKeyword (hready.suffix hleft) (hbehind.isKeyword_ne (by decide)) fun _ _ _ _ _ =>
    (stays_pure _).within

/-- A declaration that starts among the tokens ends there. -/
theorem declaration_within {t : Token} {rest : List Token}
    (h : Recoverable registry behind (t :: rest)) :
    ∃ left, left <:+ rest ∧
      (declaration registry (t :: rest ++ behind)).rest = left ++ behind := by
  have ht : t.lexeme ≠ .eof := h.ready.inner t List.mem_cons_self
  rw [List.cons_append, declaration_cons ht, h.noPipeline t List.mem_cons_self,
    if_neg Bool.false_ne_true, noDeclaration_cons ht]
  split_ifs with hrule
  · have hbody : Within behind (ruleBody registry t.position) rest := by
      refine within_ruleBody hbehind t.position h.ready.tail ?_
      rintro u v rest text rfl hu hv
      refine h.conditions (t :: u :: v :: rest) ((List.mem_tails _ _).mpr (List.suffix_refl _)) ?_
      simp only [startsDeclaration, tokenAt, List.getElem?_cons_zero, List.getElem?_cons_succ,
        hrule, hu, hv, Bool.true_and, Bool.or_true]
    exact hbody.bind fun _ _ _ => (stays_pure _).within
  · exact ⟨rest, List.suffix_refl _, rfl⟩

/-- Parsing comes to the rule behind, and goes on as if nothing stood before it. -/
theorem declarations_recover {fuel : Nat} (h : Recoverable registry behind tokens)
    (hfuel : tokens.length + behind.length ≤ fuel) :
    ∃ found fuel', behind.length ≤ fuel' ∧ (declarations registry fuel (tokens ++ behind)).result =
      (declarations registry fuel' behind).result.map (found ++ ·) := by
  induction fuel generalizing tokens with
  | zero =>
    have hempty : behind = [] := List.length_eq_zero_iff.mp (by omega)
    exact absurd hempty hbehind.ne_nil
  | succ fuel ih =>
    cases tokens with
    | nil => exact ⟨[], fuel + 1, by simpa using hfuel, by simp⟩
    | cons t rest =>
      have ht : t.lexeme ≠ .eof := h.ready.inner t List.mem_cons_self
      obtain ⟨left, hleft, hrest⟩ : ∃ left, left <:+ rest ∧
          (declaration registry (t :: rest ++ behind)).rest = left ++ behind :=
        declaration_within hbehind h
      have hattempt : (attempt (declaration registry) (t :: rest ++ behind)).result =
        some (declaration registry (t :: rest ++ behind)).result := rfl
      have hattemptRest : (attempt (declaration registry) (t :: rest ++ behind)).rest =
        left ++ behind := hrest
      have hlength := hleft.length_le
      have hsuffix := hleft.trans (List.suffix_cons t rest)
      simp only [List.length_cons] at hfuel
      rw [declarations_succ registry (show tokenAt 0 (t :: rest ++ behind) ≠ .eof from ht),
        result_bind hattempt, hattemptRest]
      cases (declaration registry (t :: rest ++ behind)).result with
      | some d =>
        obtain ⟨found, fuel', hfuel', hmore⟩ := ih (h.suffix hsuffix) (by omega)
        refine ⟨d :: found, fuel', hfuel', ?_⟩
        simp only [bind_pure_eq, hmore, Option.map_map]
        rfl
      | none =>
        obtain ⟨left', hleft', hskip⟩ := skips_toDeclaration.within hbehind.ne_nil
          (by simp [hbehind.startsDeclaration]) left
        have hlength' := hleft'.length_le
        obtain ⟨found, fuel', hfuel', hmore⟩ := ih (h.suffix (hleft'.trans hsuffix)) (by omega)
        refine ⟨found, fuel', hfuel', ?_⟩
        rw [result_bind (show (skip skipToDeclaration _).result = some () from rfl), hskip, hmore]

omit hbehind

theorem exists_string_of_clean {expected : String}
    (h : (expectString expected tokens).errors = []) :
    ∃ t rest text, tokens = t :: rest ∧ t.lexeme = .string text := by
  by_cases hstring : ∃ text, tokenAt 0 tokens = .string text
  · obtain ⟨text, htext⟩ := hstring
    cases tokens with
    | nil => cases htext
    | cons t rest => exact ⟨t, rest, text, rfl, htext⟩
  · rw [expectString_of_ne (not_exists.mp hstring)] at h
    cases h

theorem isKeyword_of_clean {word : String} (h : (expectKeyword word tokens).errors = []) :
    (tokenAt 0 tokens).isKeyword word = true := by
  by_contra hword
  have heat : eatKeyword word tokens = ⟨[], tokens, some false⟩ := by
    rw [eatKeyword, eatIf_eq, if_neg hword]
  rw [expectKeyword, bind_eq heat] at h
  cases h

/-- What is parsed without errors, and is a rule first of all, begins with the tokens of one. -/
theorem startsRule_of_clean {last : Token} {fuel : Nat} {r : Rule} {more : List Declaration}
    (hinner : Inner tokens) (hlast : last.lexeme = .eof)
    (hclean : (declarations registry fuel (tokens ++ [last])).errors = [])
    (hresult : (declarations registry fuel (tokens ++ [last])).result = some (.rule r :: more)) :
    StartsRule (tokens ++ [last]) := by
  cases fuel with
  | zero => cases hresult
  | succ fuel =>
  cases tokens with
  | nil =>
    have hend := declarations_of_eof registry (show tokenAt 0 [last] = .eof from hlast) (fuel + 1)
    rw [List.nil_append, hend] at hresult
    cases hresult
  | cons t rest =>
  have ht : t.lexeme ≠ .eof := hinner t List.mem_cons_self
  have hstep :=
    declarations_succ registry (show tokenAt 0 (t :: (rest ++ [last])) ≠ .eof from ht) fuel
  rw [List.cons_append, hstep] at hclean hresult
  have hnil : (declaration registry (t :: (rest ++ [last]))).errors = [] := (errors_bind hclean).1
  have hfirst : (declaration registry (t :: (rest ++ [last]))).result = some (.rule r) := by
    have hattempt : (attempt (declaration registry) (t :: (rest ++ [last]))).result =
      some (declaration registry (t :: (rest ++ [last]))).result := rfl
    have htracks : Tracks id (Declaration.relocate id) (fun _ => True) True
      (declaration registry) (declaration registry) (t :: rest) := tracks_declaration (by simp)
    obtain ⟨errors, left, result, heq, -, hsome, -⟩ := htracks last [last] hinner hlast (by simp)
    rw [List.cons_append] at heq
    rw [heq] at hnil
    obtain ⟨d, rfl⟩ := Option.isSome_iff_exists.mp (hsome hnil)
    rw [result_bind hattempt, heq] at hresult
    simp only [bind_pure_eq, Option.map_eq_some_iff] at hresult
    obtain ⟨_, -, hd⟩ := hresult
    rw [heq, (List.cons.inj hd).1]
  rw [declaration_cons ht] at hnil hfirst
  split_ifs at hnil hfirst with hrule hpipeline
  · obtain ⟨hname, hnext⟩ := errors_bind (errors_bind hnil).1
    obtain ⟨u, rest', text, hu, htext⟩ := exists_string_of_clean hname
    rw [hu, expectString_cons htext] at hnext
    have hwhen := isKeyword_of_clean (errors_bind (hnext text rfl)).1
    rw [List.cons_append, hu]
    exact ⟨hrule, ⟨text, htext⟩, hwhen⟩
  · rw [bind_pure_eq] at hfirst
    obtain ⟨_, -, hp⟩ := Option.map_eq_some_iff.mp hfirst
    cases hp
  · rw [noDeclaration_cons ht] at hnil
    cases hnil

end Grammar

/-- A rule is found behind any broken source of which each broken condition comes to its end: the
last of the declarations is that rule, with its text. -/
theorem parseSource_recovers {upper lower : String} {registry : Registry} {r : Rule}
    (hscan : (tokenize upper).2 = [])
    (hupper : Recoverable registry
      ((tokenize lower).1.map (Token.relocate (.down (lineCount upper))))
      (tokenize upper).1.dropLast)
    (hclean : (parseSource lower registry).isClean)
    (hlower : (parseSource lower registry).declarations = [.rule r]) :
    ∃ found moved, (parseSource (upper ++ "\n" ++ lower) registry).declarations =
      found ++ [.rule moved] ∧ moved.text = r.text := by
  obtain ⟨inner, hinner, -⟩ := (Cursor.start upper).scan_ends
  obtain ⟨inner', hinner', hends'⟩ := (Cursor.start lower).scan_ends
  rw [← Cursor.tokenize_eq] at hinner hinner'
  rw [hinner, List.dropLast_concat] at hupper
  have hparse := (errors_of_isClean hclean).2
  obtain ⟨alone, halone⟩ :=
    Grammar.declarations_total registry (tokenize lower).1.length (tokenize lower).1
  have hsame : alone = [.rule r] := by
    rw [← hlower, parseSource]
    simp only [Parse.run, halone, Option.getD_some]
  rw [hsame] at halone
  have hstarts : StartsRule (tokenize lower).1 := by
    rw [hinner'] at hparse halone ⊢
    exact Grammar.startsRule_of_clean hends' rfl hparse halone
  have hbehind := hstarts.relocate (.down (lineCount upper))
  obtain ⟨found, fuel, hfuel, hfound⟩ :=
    @Grammar.declarations_recover _ _ registry hbehind _ hupper (List.length_append ..).ge
  rw [List.length_map] at hfuel
  obtain ⟨left, hmoved⟩ := Grammar.declarations_relocate registry
    (.down (lineCount upper)) hends' rfl (hinner' ▸ hfuel)
  rw [← hinner', halone] at hmoved
  refine ⟨found, r.relocate (.down (lineCount upper)), ?_, r.text_relocate _⟩
  simp only [parseSource, Parse.run, tokenize_append lower hinner hscan, hfound, hmoved]
  rfl

def brokenSource : String :=
  "rule \"broken\" when ) and then let = 1 . ; end\nstray ( end , rule 7\nrule \"open\" when true"

def soundSource : String := "rule \"sound\"\nwhen 1 < 2\nthen\n  let x = 1;\nend"

theorem parseSource_recovers_soundSource : ∃ found moved,
    (parseSource (brokenSource ++ "\n" ++ soundSource) (.ofList [])).declarations =
      found ++ [.rule moved] ∧ moved.text = soundSource := by
  have hbroken : Recoverable (.ofList [])
      ((tokenize soundSource).1.map (Token.relocate (.down (lineCount brokenSource))))
      (tokenize brokenSource).1.dropLast :=
    ⟨⟨by simp only [Inner]; decide +kernel, by decide +kernel⟩, by decide +kernel,
      by decide +kernel⟩
  have hsound : (parseSource soundSource (.ofList [])).declarations.map
      (fun d => d.rule?.map Rule.text) = [some soundSource] := by
    decide +kernel
  obtain ⟨d, hd, htext⟩ := List.map_eq_singleton_iff.1 hsound
  cases d with
  | rule r =>
    obtain ⟨found, moved, hfound, hmoved⟩ :=
      parseSource_recovers (by decide +kernel) hbroken (by decide +kernel) hd
    exact ⟨found, moved, hfound, hmoved.trans (Option.some.inj htext)⟩
  | pipeline p => cases htext

def unfinishedSource : String := "rule \"a\" when"

def hiddenSource : String := "rule \"b\" when true then end"

/-- A condition that does not come to its end takes the rule below it along. -/
theorem unfinished_condition_hides_rule : (tokenize unfinishedSource).2 = [] ∧
    (∀ t ∈ (tokenize unfinishedSource).1,
      t.lexeme.isKeyword "pipeline" = false ∧ t.lexeme.isKeyword "stage" = false) ∧
    (parseSource hiddenSource (.ofList [])).isClean = true ∧
    (parseSource hiddenSource (.ofList [])).declarations.map Declaration.text =
      ["rule \"b\"\nwhen true\nthen\nend"] ∧
    (parseSource (unfinishedSource ++ "\n" ++ hiddenSource) (.ofList [])).declarations.map
      Declaration.text = ["rule \"a\"\nwhen false\nthen\nend"] := by
  decide +kernel

end LogRules
