import LogRules.Proofs.Tracking

/-!
Words that no expression gets past. Whatever stands before a `rule`, `then` or `end`, however broken
it is, parsing it as an expression stops in front of the word at the latest, unless the word stands
where every word is read as a name.
-/
namespace LogRules

namespace Lexeme

/-- The words that end an expression wherever they are not read as a name. -/
def isBarrier (l : Lexeme) : Bool := l.isKeyword "rule" || l.isKeyword "then" || l.isKeyword "end"

/-- Whether the token behind this one may be read as a name, whatever word it is. -/
def takesName (l : Lexeme) : Bool :=
  l.isKeyword "let" || l == .symbol .dot || l == .symbol .leftBrace || l == .symbol .comma

theorem exists_word_of_isBarrier {l : Lexeme} (h : l.isBarrier = true) :
    ∃ name, l = .name name ∧ ∃ word ∈ ["rule", "then", "end"],
      name.toList.map Char.toLower = word.toList.map Char.toLower := by
  cases l with
  | name name =>
    refine ⟨name, rfl, ?_⟩
    simpa [isBarrier, isKeyword, sameWord, or_assoc] using h
  | _ => cases h

/-- A word that ends expressions is no other word. -/
theorem isKeyword_of_isBarrier {l : Lexeme} (h : l.isBarrier = true) {word : String}
    (hword : (name word).isBarrier = false) : l.isKeyword word = false := by
  obtain ⟨name, rfl, barrier, hbarrier, hsame⟩ := exists_word_of_isBarrier h
  rw [isKeyword, sameWord, hsame]
  simp only [isBarrier, isKeyword, sameWord, Bool.or_eq_false_iff, beq_eq_false_iff_ne] at hword ⊢
  simp only [List.mem_cons, List.not_mem_nil, or_false] at hbarrier
  obtain rfl | rfl | rfl := hbarrier
  · exact Ne.symm hword.1.1
  · exact Ne.symm hword.1.2
  · exact Ne.symm hword.2

theorem beq_symbol_of_isBarrier {l : Lexeme} (h : l.isBarrier = true) (s : Symbol) :
    (l == .symbol s) = false := by
  obtain ⟨name, rfl, -⟩ := exists_word_of_isBarrier h
  rfl

theorem isReserved_of_isBarrier {name : String} (h : (Lexeme.name name).isBarrier = true) :
    isReserved name = true := by
  simp only [isBarrier, isKeyword, Bool.or_eq_true] at h
  simp only [isReserved, reservedWords, List.any_cons, Bool.or_eq_true]
  tauto

end Lexeme

/-- Tokens before which expressions stop. -/
structure Barrier (behind : List Token) : Prop where
  word : (Parse.tokenAt 0 behind).isBarrier = true
  noArgument : Parse.tokenAt 1 behind ≠ .symbol .colon
  noCall : Parse.tokenAt 1 behind ≠ .symbol .leftParen

/-- Tokens behind which the next word is not read as a name. -/
structure Ready (tokens : List Token) : Prop where
  inner : Inner tokens
  last : ∀ t ∈ tokens.getLast?, t.lexeme.takesName = false

namespace Ready

variable {tokens left : List Token} {t : Token}

theorem suffix (h : Ready tokens) (hleft : left <:+ tokens) : Ready left where
  inner := h.inner.suffix hleft
  last := by
    intro t ht
    obtain ⟨eaten, rfl⟩ := hleft
    refine h.last t ?_
    rw [Option.mem_def] at ht ⊢
    rw [List.getLast?_append, ht, Option.some_or]

theorem tail (h : Ready (t :: left)) : Ready left := h.suffix (List.suffix_cons t left)

theorem ne_nil (h : Ready (t :: left)) (ht : t.lexeme.takesName = true) : left ≠ [] := by
  rintro rfl
  rw [h.last t rfl] at ht
  cases ht

end Ready

namespace Parse

variable {α β : Type} {behind tokens : List Token} {p : Parse α} {f : α → Parse β}

/-- The parser leaves what stands behind the tokens alone. -/
def Within (behind : List Token) (p : Parse α) (tokens : List Token) : Prop :=
  ∃ left, left <:+ tokens ∧ (p (tokens ++ behind)).rest = left ++ behind

/-- The parser eats nothing. -/
def Stays (p : Parse α) : Prop := ∀ tokens, (p tokens).rest = tokens

theorem Stays.within (h : Stays p) : Within behind p tokens :=
  ⟨tokens, List.suffix_refl _, h _⟩

theorem stays_pure (a : α) : Stays (pure a : Parse α) := fun _ => rfl

theorem stays_unexpected (expected : String) : Stays (unexpected expected : Parse α) := fun _ => rfl

theorem stays_failAt (position : Position) (problem : Problem) :
    Stays (failAt position problem : Parse α) := fun _ => rfl

theorem Within.bind_result (hp : Within behind p tokens)
    (hf : ∀ a ∈ (p (tokens ++ behind)).result, ∀ left, left <:+ tokens → Within behind (f a) left) :
    Within behind (p >>= f) tokens := by
  obtain ⟨left, hleft, hrest⟩ := hp
  have hbind : (p >>= f) (tokens ++ behind) = Parse.bind p f (tokens ++ behind) := rfl
  rw [Within, hbind, Parse.bind]
  cases ha : (p (tokens ++ behind)).result with
  | none => exact ⟨left, hleft, hrest⟩
  | some a =>
    obtain ⟨left', hleft', hrest'⟩ := hf a ha left hleft
    refine ⟨left', hleft'.trans hleft, ?_⟩
    rw [hrest]
    exact hrest'

theorem Within.bind (hp : Within behind p tokens)
    (hf : ∀ a left, left <:+ tokens → Within behind (f a) left) :
    Within behind (p >>= f) tokens :=
  hp.bind_result fun a _ => hf a

theorem Within.attempt (hp : Within behind p tokens) : Within behind (attempt p) tokens := hp

theorem Within.here {f : Position → Parse β} (hf : ∀ position, Within behind (f position) tokens) :
    Within behind (here >>= f) tokens := hf _

theorem Within.remaining {f : Nat → Parse β} (hf : ∀ fuel, Within behind (f fuel) tokens) :
    Within behind (remaining >>= f) tokens := hf _

theorem Within.reportAll {errors : List Diagnostic} {f : Unit → Parse β}
    (hf : Within behind (f ()) tokens) : Within behind (reportAll errors >>= f) tokens := hf

theorem Within.peek {n : Nat} {f : Lexeme → Parse β}
    (hf : Within behind (f (tokenAt n (tokens ++ behind))) tokens) :
    Within behind (peek n >>= f) tokens := hf

theorem Within.atKeyword {word : String} {f : Bool → Parse β}
    (hf : Within behind (f ((tokenAt 0 (tokens ++ behind)).isKeyword word)) tokens) :
    Within behind (atKeyword word >>= f) tokens := hf

theorem Within.atDeclaration {f : Bool → Parse β}
    (hf : Within behind (f (Grammar.startsDeclaration (tokens ++ behind))) tokens) :
    Within behind (Grammar.atDeclaration >>= f) tokens := hf

theorem Within.advance {t : Token} {rest : List Token} {f : Unit → Parse β}
    (hinner : Inner (t :: rest)) (hf : Within behind (f ()) rest) :
    Within behind (advance >>= f) (t :: rest) := by
  have ht : t.lexeme ≠ .eof := hinner t List.mem_cons_self
  have hadvance : Parse.advance (t :: rest ++ behind) = ⟨[], rest ++ behind, some ()⟩ := by
    rw [Parse.advance, List.cons_append, Parse.behind, if_neg ht]
  obtain ⟨left, hleft, hrest⟩ := hf
  exact ⟨left, hleft.trans (List.suffix_cons t rest), by rw [bind_eq hadvance, hrest]⟩

/-- What does not stand behind the tokens stands among them. -/
theorem exists_cons_of_test (test : Lexeme → Bool) (hbehind : test (tokenAt 0 behind) = false)
    (h : test (tokenAt 0 (tokens ++ behind)) = true) : ∃ t rest, tokens = t :: rest := by
  cases tokens with
  | nil =>
    rw [List.nil_append, hbehind] at h
    cases h
  | cons t rest => exact ⟨t, rest, rfl⟩

theorem Within.eatIf {test : Lexeme → Bool} {f : Bool → Parse β} (hready : Ready tokens)
    (hbehind : test (tokenAt 0 behind) = false)
    (htrue : ∀ t rest, tokens = t :: rest → test t.lexeme = true → Ready rest →
      Within behind (f true) rest)
    (hfalse : Within behind (f false) tokens) : Within behind (eatIf test >>= f) tokens := by
  rw [eatIf_bind]
  refine .peek ?_
  split
  · next h =>
    obtain ⟨t, rest, rfl⟩ := exists_cons_of_test test hbehind h
    exact .advance hready.inner (htrue t rest rfl h hready.tail)
  · exact hfalse

/-- A token that has to be there. -/
theorem Within.require {test : Lexeme → Bool} {expected : String} {f : Unit → Parse β}
    (hready : Ready tokens) (hbehind : test (tokenAt 0 behind) = false)
    (hf : ∀ t rest, tokens = t :: rest → test t.lexeme = true → Ready rest →
      Within behind (f ()) rest) :
    Within behind
      ((do if ← Parse.eatIf test then return () else unexpected expected) >>= f) tokens := by
  by_cases h : test (tokenAt 0 (tokens ++ behind)) = true
  · obtain ⟨t, rest, rfl⟩ := exists_cons_of_test test hbehind h
    have ht : t.lexeme ≠ .eof := hready.inner t List.mem_cons_self
    have heat : Parse.eatIf test (t :: rest ++ behind) = ⟨[], rest ++ behind, some true⟩ := by
      rw [eatIf_eq, if_pos h, List.cons_append, Parse.behind, if_neg ht]
    have hdone : (do if ← Parse.eatIf test then return () else unexpected expected : Parse Unit)
        (t :: rest ++ behind) = ⟨[], rest ++ behind, some ()⟩ := bind_eq heat
    obtain ⟨left, hleft, hrest⟩ := hf t rest rfl h hready.tail
    exact ⟨left, hleft.trans (List.suffix_cons t rest), by rw [bind_eq hdone, hrest]⟩
  · have heat : Parse.eatIf test (tokens ++ behind) = ⟨[], tokens ++ behind, some false⟩ := by
      rw [eatIf_eq, if_neg h]
    have hfails : (do if ← Parse.eatIf test then return () else unexpected expected : Parse Unit)
        (tokens ++ behind) = unexpected expected (tokens ++ behind) := bind_eq heat
    have hstays : (((do if ← Parse.eatIf test then return () else unexpected expected) >>= f) :
        Parse β) (tokens ++ behind) = (unexpected expected >>= f) (tokens ++ behind) :=
      bind_congr_left hfails f
    exact ⟨tokens, List.suffix_refl _, by rw [hstays]; rfl⟩

theorem Within.expectKeyword {word : String} {f : Unit → Parse β} (hready : Ready tokens)
    (hbehind : (tokenAt 0 behind).isKeyword word = false)
    (hf : ∀ t rest, tokens = t :: rest → t.lexeme.isKeyword word = true → Ready rest →
      Within behind (f ()) rest) : Within behind (expectKeyword word >>= f) tokens :=
  .require hready hbehind hf

theorem within_expectName (hready : Ready tokens) (hne : tokens ≠ []) (expected : String) :
    Within behind (expectName expected) tokens := by
  obtain ⟨t, rest, rfl⟩ := List.exists_cons_of_ne_nil hne
  refine .peek ?_
  split
  · exact .advance hready.inner (stays_pure _).within
  · exact .advance hready.inner (stays_pure _).within
  · exact (stays_unexpected _).within

section Barriers

variable (hbarrier : Barrier behind)

include hbarrier

/-- One of the tokens is eaten, because the next token is no barrier. -/
theorem Within.step {f : Unit → Parse β} (hready : Ready tokens)
    (h : (tokenAt 0 (tokens ++ behind)).isBarrier = false)
    (hf : ∀ t rest, tokens = t :: rest → t.lexeme = tokenAt 0 (tokens ++ behind) → Ready rest →
      Within behind (f ()) rest) : Within behind (Parse.advance >>= f) tokens := by
  have hword : (!(tokenAt 0 behind).isBarrier) = false := by simp [hbarrier.word]
  obtain ⟨t, rest, rfl⟩ := exists_cons_of_test (!·.isBarrier) hword (by simpa using h)
  exact .advance hready.inner (hf t rest rfl rfl hready.tail)

theorem Within.eat {symbol : Symbol} {f : Bool → Parse β} (hready : Ready tokens)
    (htrue : ∀ t rest, tokens = t :: rest → t.lexeme = .symbol symbol → Ready rest →
      Within behind (f true) rest)
    (hfalse : Within behind (f false) tokens) : Within behind (eat symbol >>= f) tokens :=
  .eatIf hready (Lexeme.beq_symbol_of_isBarrier hbarrier.word symbol)
    (fun t rest htokens ht hready => htrue t rest htokens (by simpa using ht) hready) hfalse

theorem Within.expect {symbol : Symbol} {expected : String} {f : Unit → Parse β}
    (hready : Ready tokens)
    (hf : ∀ t rest, tokens = t :: rest → t.lexeme = .symbol symbol → Ready rest →
      Within behind (f ()) rest) : Within behind (expect symbol expected >>= f) tokens :=
  .require hready (Lexeme.beq_symbol_of_isBarrier hbarrier.word symbol)
    fun t rest htokens ht hready => hf t rest htokens (by simpa using ht) hready

theorem within_expect (hready : Ready tokens) (symbol : Symbol) (expected : String) :
    Within behind (Parse.expect symbol expected) tokens :=
  .eat hbarrier hready (fun _ _ _ _ _ => (stays_pure _).within) (stays_unexpected _).within

/-- Items between commas. Behind a comma there is a token, whatever item begins with it. -/
theorem within_separatedLoop {item : Parse α}
    (hitem : ∀ tokens, tokens ≠ [] → Ready tokens → Within behind item tokens) (close : Symbol)
    (expected : String) (fuel : Nat) (hready : Ready tokens) (hfirst : Within behind item tokens) :
    Within behind (separatedLoop item close expected fuel) tokens := by
  induction fuel generalizing tokens with
  | zero => exact (stays_unexpected _).within
  | succ fuel ih =>
    refine hfirst.bind fun first left hleft => ?_
    have hready := hready.suffix hleft
    refine .eat hbarrier hready (fun _ _ _ _ _ => (stays_pure _).within) ?_
    refine .expect hbarrier hready fun t rest htokens ht hmore => ?_
    subst htokens
    have hne : rest ≠ [] := hready.ne_nil (by simp [ht, Lexeme.takesName])
    exact (ih hmore (hitem rest hne hmore)).bind fun _ _ _ => (stays_pure _).within

theorem within_separated {item : Parse α}
    (hitem : ∀ tokens, tokens ≠ [] → Ready tokens → Within behind item tokens) (close : Symbol)
    (expected : String) (hready : Ready tokens) (hfirst : Within behind item tokens) :
    Within behind (separated item close expected) tokens := by
  refine .eat hbarrier hready (fun _ _ _ _ _ => (stays_pure _).within) ?_
  exact .remaining fun fuel => within_separatedLoop hbarrier hitem close expected fuel hready hfirst

end Barriers

end Parse

namespace Grammar

open Parse

variable {behind tokens : List Token}

/-- Parsers of expressions that stop before a barrier. -/
def Bounded (behind : List Token) (p : Parse Expr) : Prop :=
  ∀ tokens, Ready tokens → Within behind p tokens

structure Deeper.Bounded (behind : List Token) (deeper : Deeper Parse) : Prop where
  expression : Grammar.Bounded behind deeper.expression
  negated : Grammar.Bounded behind deeper.negated
  signed : Grammar.Bounded behind deeper.signed

theorem within_accept (checked : Checked) : Within behind (accept checked) tokens :=
  .reportAll (stays_pure _).within

theorem within_checkDepth (e : Expr) : Within behind (checkDepth e) tokens := by
  rw [checkDepth]
  split
  · exact (stays_failAt _ _).within
  · exact (stays_pure _).within

variable (hbarrier : Barrier behind)

include hbarrier

theorem bounded_chain {operand : Parse Expr} {operator? : Lexeme → Option BinaryOp}
    {join : BinaryOp → Expr → Expr → Position → Checked} (hoperand : Bounded behind operand)
    (hoperator : ∀ l, l.isBarrier = true → operator? l = none) :
    Bounded behind (chain operand operator? join) := by
  have hloop (fuel : Nat) : ∀ (left : Expr) (tokens : List Token), Ready tokens →
      Within behind (chainLoop operand operator? join fuel left) tokens := by
    induction fuel with
    | zero => exact fun left tokens hready => (stays_pure _).within
    | succ fuel ih =>
      intro left tokens hready
      refine .here fun position => .peek ?_
      split
      · exact (stays_pure _).within
      next op hop =>
      have hfree : (tokenAt 0 (tokens ++ behind)).isBarrier = false := by
        by_contra hword
        rw [hoperator _ (by simpa using hword)] at hop
        cases hop
      refine .step hbarrier hready hfree fun t rest htokens ht hready => ?_
      refine (hoperand rest hready).bind fun right left' hleft' => ?_
      refine (within_accept _).bind fun joined left'' hleft'' => ?_
      refine (within_checkDepth joined).bind fun e left''' hleft''' => ?_
      exact ih e left''' (((hready.suffix hleft').suffix hleft'').suffix hleft''')
  intro tokens hready
  refine (hoperand tokens hready).bind fun first left hleft => ?_
  exact .remaining fun fuel => hloop fuel first left (hready.suffix hleft)

variable {env : Env} {deeper : Deeper Parse} (hdeeper : deeper.Bounded behind)

include hdeeper

theorem within_argument (hready : Ready tokens) : Within behind (argument deeper) tokens := by
  have hvalue (name : Option String) {left : List Token} (hready : Ready left) :
      Within behind (do return (⟨name, ← deeper.expression⟩ : Typing.RawArg)) left :=
    (hdeeper.expression left hready).bind fun _ _ _ => (stays_pure _).within
  refine .peek ?_
  split
  · next hcolon =>
    -- A colon behind the next token belongs to the tokens, and so does the token before it.
    obtain ⟨t, u, rest, rfl⟩ : ∃ t u rest, tokens = t :: u :: rest := by
      match tokens, hcolon with
      | [], hcolon => exact absurd hcolon hbarrier.noArgument
      | [t], hcolon =>
        have hword := hbarrier.word
        rw [show tokenAt 0 behind = .symbol .colon from hcolon] at hword
        cases hword
      | t :: u :: rest, _ => exact ⟨t, u, rest, rfl⟩
    refine .peek ?_
    split
    · exact .advance hready.inner (.advance hready.tail.inner (hvalue _ hready.tail.tail))
    · exact .advance hready.inner (.advance hready.tail.inner (hvalue _ hready.tail.tail))
    · exact hvalue none hready
  · exact hvalue none hready

theorem within_call {t : Token} {rest : List Token} (name : String) (hready : Ready (t :: rest)) :
    Within behind (call env deeper name) (t :: rest) := by
  refine .here fun position => .advance hready.inner ?_
  refine .expect hbarrier hready.tail fun t rest htokens ht hready => ?_
  have hargs := within_separated hbarrier
    (fun _ _ h => within_argument hbarrier hdeeper h) .rightParen "',' or ')'" hready
    (within_argument hbarrier hdeeper hready)
  exact hargs.bind fun _ _ _ => within_accept _

theorem within_entry (hready : Ready tokens) (hne : tokens ≠ []) :
    Within behind (entry deeper) tokens := by
  obtain ⟨t, rest, rfl⟩ := List.exists_cons_of_ne_nil hne
  have hvalue (key : String) : Within behind
      (do
        expect .colon "':'"
        return (key, ← deeper.expression)) rest :=
    .expect hbarrier hready.tail fun _ rest _ _ hready =>
      (hdeeper.expression rest hready).bind fun _ _ _ => (stays_pure _).within
  refine .peek ?_
  split
  · exact .advance hready.inner (hvalue _)
  · exact .advance hready.inner (hvalue _)
  · exact .advance hready.inner (hvalue _)
  · exact (stays_unexpected _).within

omit hdeeper in
theorem within_messageField (position : Position) (hready : Ready tokens) :
    Within behind (messageField position) tokens := by
  refine .peek ?_
  split
  · next hword =>
    have hfree : (tokenAt 0 (tokens ++ behind)).isBarrier = false := by
      by_contra hbar
      rw [Lexeme.isKeyword_of_isBarrier (by simpa using hbar) (by decide)] at hword
      cases hword
    refine .step hbarrier hready hfree fun t rest _ _ hready => ?_
    refine .expect hbarrier hready fun t rest htokens ht hmore => ?_
    subst htokens
    have hne : rest ≠ [] := hready.ne_nil (by simp [ht, Lexeme.takesName])
    exact (within_expectName hmore hne _).bind fun _ _ _ => (stays_pure _).within
  · exact (stays_unexpected _).within

theorem within_named {name : String} (hready : Ready tokens)
    (hname : tokenAt 0 (tokens ++ behind) = .name name) :
    Within behind (named env deeper name) tokens := by
  refine .here fun position => ?_
  cases tokens with
  | nil =>
    have hword : (Lexeme.name name).isBarrier = true := hname ▸ hbarrier.word
    have htrue : Lexeme.sameWord name "true" = false :=
      Lexeme.isKeyword_of_isBarrier hword (by decide)
    have hfalse : Lexeme.sameWord name "false" = false :=
      Lexeme.isKeyword_of_isBarrier hword (by decide)
    rw [htrue, hfalse, if_neg Bool.false_ne_true, if_neg Bool.false_ne_true]
    refine .peek ?_
    rw [List.nil_append, if_neg hbarrier.noCall, if_pos (Lexeme.isReserved_of_isBarrier hword)]
    exact (stays_unexpected _).within
  | cons t rest =>
    split
    · exact .advance hready.inner (stays_pure _).within
    split
    · exact .advance hready.inner (stays_pure _).within
    refine .peek ?_
    split
    · exact within_call hbarrier hdeeper name hready
    split
    · exact (stays_unexpected _).within
    · exact .advance hready.inner (within_accept _)

theorem bounded_primary : Bounded behind (primary env deeper) := by
  intro tokens hready
  have hstep {f : Unit → Parse Expr} (h : (tokenAt 0 (tokens ++ behind)).isBarrier = false)
      (hf : ∀ t rest, tokens = t :: rest → t.lexeme = tokenAt 0 (tokens ++ behind) → Ready rest →
        Within behind (f ()) rest) : Within behind (advance >>= f) tokens :=
    .step hbarrier hready h hf
  refine .here fun position => .peek ?_
  cases h : tokenAt 0 (tokens ++ behind) with
  | integer | float | string =>
    exact hstep (by rw [h]; rfl) fun _ _ _ _ _ => (stays_pure _).within
  | name name => exact within_named hbarrier hdeeper hready h
  | symbol s =>
    cases s with
    | leftParen =>
      refine hstep (by rw [h]; rfl) fun t rest _ _ hready => ?_
      refine (hdeeper.expression rest hready).bind fun inner left hleft => ?_
      exact (within_expect hbarrier (hready.suffix hleft) _ _).bind fun _ _ _ =>
        (stays_pure _).within
    | leftBracket =>
      refine hstep (by rw [h]; rfl) fun t rest _ _ hready => ?_
      have hitems := within_separated hbarrier (fun tokens _ h => hdeeper.expression tokens h)
        .rightBracket "',' or ']'" hready (hdeeper.expression rest hready)
      exact hitems.bind fun _ _ _ => (stays_pure _).within
    | leftBrace =>
      refine hstep (by rw [h]; rfl) fun t rest htokens ht hmore => ?_
      subst htokens
      have hne : rest ≠ [] := hready.ne_nil (by rw [ht, h]; rfl)
      have hentries := within_separated hbarrier
        (fun _ hne h => within_entry hbarrier hdeeper h hne) .rightBrace "',' or '\x7d'" hmore
        (within_entry hbarrier hdeeper hmore hne)
      exact hentries.bind fun _ _ _ => (stays_pure _).within
    | dollar =>
      refine hstep (by rw [h]; rfl) fun t rest _ _ hready => ?_
      exact within_messageField hbarrier position hready
    | _ => exact (stays_unexpected _).within
  | quotedName | eof => exact (stays_unexpected _).within

theorem within_postfixLoop (fuel : Nat) (object : Expr) (hready : Ready tokens) :
    Within behind (postfixLoop deeper fuel object) tokens := by
  induction fuel generalizing object tokens with
  | zero => exact (stays_pure _).within
  | succ fuel ih =>
    have hmore (checked : Checked) {left : List Token} (hready : Ready left) : Within behind
        (do
          let found ← accept checked
          postfixLoop deeper fuel (← checkDepth found)) left :=
      (within_accept checked).bind fun found left' hleft' =>
        (within_checkDepth found).bind fun e left'' hleft'' =>
          ih e ((hready.suffix hleft').suffix hleft'')
    refine .here fun position => .eat hbarrier hready (fun t rest htokens hdot hmore' => ?_) ?_
    · subst htokens
      have hne : rest ≠ [] := hready.ne_nil (by simp [hdot, Lexeme.takesName])
      exact (within_expectName hmore' hne _).bind fun name left hleft =>
        hmore _ (hmore'.suffix hleft)
    · refine .eat hbarrier hready (fun t rest _ _ hready => ?_) (stays_pure _).within
      refine (hdeeper.expression rest hready).bind fun key left hleft => ?_
      have hready := hready.suffix hleft
      exact .expect hbarrier hready fun _ _ _ _ hready => hmore _ hready

theorem within_postfixTail (object : Expr) (hready : Ready tokens) :
    Within behind (postfixTail deeper object) tokens :=
  .remaining fun fuel => within_postfixLoop hbarrier hdeeper fuel object hready

theorem bounded_signLevel : Bounded behind (signLevel env deeper) := by
  intro tokens hready
  refine .here fun position => .peek ?_
  split
  · refine (bounded_primary hbarrier hdeeper tokens hready).bind fun object left hleft => ?_
    exact within_postfixTail hbarrier hdeeper object (hready.suffix hleft)
  next op hop =>
  have hfree : (tokenAt 0 (tokens ++ behind)).isBarrier = false := by
    cases hl : tokenAt 0 (tokens ++ behind) with
    | symbol s => rfl
    | _ =>
      rw [hl] at hop
      cases hop
  refine .step hbarrier hready hfree fun t rest _ _ hready => .peek ?_
  split
  · next value hvalue =>
    have hfree : (tokenAt 0 (rest ++ behind)).isBarrier = false := by
      cases hl : tokenAt 0 (rest ++ behind) with
      | integer n => rfl
      | float x => rfl
      | _ =>
        rw [hl] at hvalue
        cases hvalue
    refine .step hbarrier hready hfree fun t rest _ _ hready => ?_
    exact within_postfixTail hbarrier hdeeper _ hready
  · exact (hdeeper.signed rest hready).bind fun _ _ _ => within_accept _

theorem bounded_notLevel : Bounded behind (notLevel env deeper) := by
  have hequality : Bounded behind (equalityLevel env deeper) := by
    refine bounded_chain hbarrier (bounded_chain hbarrier (bounded_chain hbarrier
      (bounded_chain hbarrier (bounded_signLevel hbarrier hdeeper) ?_) ?_) ?_) ?_
    all_goals
      intro l hl
      obtain ⟨name, rfl, -⟩ := Lexeme.exists_word_of_isBarrier hl
      rfl
  intro tokens hready
  refine .here fun position => .eatIf hready ?_ (fun t rest _ _ hready => ?_)
    (hequality tokens hready)
  · rw [Lexeme.isKeyword_of_isBarrier hbarrier.word (by decide),
      Lexeme.beq_symbol_of_isBarrier hbarrier.word]
    rfl
  · exact (hdeeper.negated rest hready).bind fun _ _ _ => within_accept _

theorem bounded_orLevel : Bounded behind (orLevel env deeper) := by
  refine bounded_chain hbarrier (bounded_chain hbarrier (bounded_notLevel hbarrier hdeeper) ?_) ?_
  all_goals
    intro l hl
    have hsymbol (s : Symbol) : l ≠ .symbol s := by
      simpa using Lexeme.beq_symbol_of_isBarrier hl s
    have hand : l.isKeyword "and" = false := Lexeme.isKeyword_of_isBarrier hl (by decide)
    have hor : l.isKeyword "or" = false := Lexeme.isKeyword_of_isBarrier hl (by decide)
    simp [andOperator?, orOperator?, hand, hor, hsymbol]

omit hdeeper in
theorem bounded_nested (env : Env) (room : Nat) : (nested env room).Bounded behind := by
  have hdepth {p : Parse Expr} (hp : Bounded behind p) :
      Bounded behind (do checkDepth (← p)) := by
    intro tokens hready
    exact (hp tokens hready).bind fun _ _ _ => within_checkDepth _
  induction room with
  | zero =>
    have hstop : Bounded behind (do tooDeep (← here)) := by
      intro tokens _
      exact .here fun _ => (stays_failAt _ _).within
    exact ⟨hstop, hstop, hstop⟩
  | succ room ih =>
    exact ⟨hdepth (bounded_orLevel hbarrier ih), hdepth (bounded_notLevel hbarrier ih),
      hdepth (bounded_signLevel hbarrier ih)⟩

omit hdeeper in
/-- An expression, right or wrong, ends before the next barrier. -/
theorem bounded_expression (env : Env) : Bounded behind (expression env) :=
  (bounded_nested hbarrier env maxNesting).expression

end Grammar

end LogRules
