import LogRules.Proofs.Accepted
import LogRules.Proofs.Levels
import LogRules.Proofs.ScannedTokens

/-!
Parsing that reports nothing builds clean trees. Every parser of the grammar has a property of
its results that holds whenever it reports no error on tokens that scanning can find.
-/
namespace LogRules

namespace Parse

variable {α β : Type}

/-- If the parser reports nothing, it has a result with a property. -/
def Ensures (p : Parse α) (Q : α → Prop) : Prop :=
  ∀ tokens, AllFound tokens → (p tokens).errors = [] →
    AllFound (p tokens).rest ∧ ∃ a, (p tokens).result = some a ∧ Q a

variable {p : Parse α} {f : α → Parse β} {Q : α → Prop} {R : β → Prop}

theorem Ensures.mono {Q' : α → Prop} (hp : Ensures p Q) (h : ∀ a, Q a → Q' a) : Ensures p Q' := by
  intro tokens hfound hclean
  obtain ⟨hrest, a, ha, hQ⟩ := hp tokens hfound hclean
  exact ⟨hrest, a, ha, h a hQ⟩

theorem ensures_pure {a : α} (h : Q a) : Ensures (pure a) Q :=
  fun _ hfound _ => ⟨hfound, a, rfl, h⟩

theorem Ensures.bind (hp : Ensures p Q) (hf : ∀ a, Q a → Ensures (f a) R) :
    Ensures (p >>= f) R := by
  intro tokens hfound hclean
  have hbind : (p >>= f) tokens = Parse.bind p f tokens := rfl
  rw [hbind, Parse.bind] at hclean ⊢
  cases hresult : (p tokens).result with
  | none =>
    simp only [hresult] at hclean
    obtain ⟨-, a, ha, -⟩ := hp tokens hfound hclean
    rw [hresult] at ha
    cases ha
  | some a =>
    simp only [hresult, List.append_eq_nil_iff] at hclean ⊢
    obtain ⟨hrest, b, hb, hQ⟩ := hp tokens hfound hclean.1
    rw [hresult] at hb
    cases hb
    exact hf a hQ _ hrest hclean.2

theorem ensures_failAt (position : Position) (problem : Problem) :
    Ensures (failAt position problem) Q := by
  intro tokens _ hclean
  cases hclean

theorem ensures_peek (n : Nat) : Ensures (peek n) Lexeme.Found := by
  intro tokens hfound _
  refine ⟨hfound, tokenAt n tokens, rfl, ?_⟩
  rw [tokenAt]
  split
  · next t ht => exact hfound t (List.mem_of_getElem? ht)
  · trivial

theorem ensures_here : Ensures here fun _ => True := fun _ hfound _ => ⟨hfound, _, rfl, trivial⟩

theorem ensures_remaining : Ensures remaining fun _ => True :=
  fun _ hfound _ => ⟨hfound, _, rfl, trivial⟩

theorem ensures_advance : Ensures advance fun _ => True := by
  intro tokens hfound _
  refine ⟨?_, (), rfl, trivial⟩
  cases tokens with
  | nil => exact hfound
  | cons t tokens =>
    rw [advance, behind]
    split
    · exact hfound
    · exact (allFound_cons.mp hfound).2

theorem ensures_reportAll (errors : List Diagnostic) :
    Ensures (reportAll errors) fun _ => errors = [] :=
  fun _ hfound hclean => ⟨hfound, (), rfl, hclean⟩

theorem ensures_unexpected (expected : String) : Ensures (unexpected expected) Q :=
  (ensures_peek 0).bind fun _ _ => ensures_here.bind fun _ _ => ensures_failAt _ _

theorem ensures_eatIf (test : Lexeme → Bool) : Ensures (eatIf test) fun _ => True := by
  refine (ensures_peek 0).bind fun l _ => ?_
  split
  · exact ensures_advance.bind fun _ _ => ensures_pure trivial
  · exact ensures_pure trivial

theorem ensures_expect (symbol : Symbol) (expected : String) :
    Ensures (expect symbol expected) fun _ => True := by
  refine (ensures_eatIf _).bind fun found _ => ?_
  split
  · exact ensures_pure trivial
  · exact ensures_unexpected expected

theorem ensures_expectKeyword (word : String) : Ensures (expectKeyword word) fun _ => True := by
  refine (ensures_eatIf _).bind fun found _ => ?_
  split
  · exact ensures_pure trivial
  · exact ensures_unexpected _

theorem ensures_expectString (expected : String) :
    Ensures (expectString expected) fun _ => True := by
  refine (ensures_peek 0).bind fun l _ => ?_
  split
  · exact ensures_advance.bind fun _ _ => ensures_pure trivial
  · exact ensures_unexpected expected

theorem onOneLine_of_plain {name : String} (h : Text.isPlainName name.toList) :
    OnOneLine name := by
  intro hline
  obtain ⟨c, rest, -, -, hchars⟩ := exists_cons_of_plain h
  exact absurd (hchars _ hline) (by decide)

theorem ensures_expectName (expected : String) : Ensures (expectName expected) OnOneLine := by
  refine (ensures_peek 0).bind fun l hl => ?_
  split
  · exact ensures_advance.bind fun _ _ => ensures_pure (onOneLine_of_plain hl)
  · exact ensures_advance.bind fun _ _ => ensures_pure hl
  · exact ensures_unexpected expected

theorem ensures_separatedLoop {item : Parse α} (hitem : Ensures item Q) (close : Symbol)
    (expected : String) (fuel : Nat) :
    Ensures (separatedLoop item close expected fuel) fun items => ∀ a ∈ items, Q a := by
  induction fuel with
  | zero => exact ensures_unexpected expected
  | succ fuel ih =>
    refine hitem.bind fun first hfirst => (ensures_eatIf _).bind fun closed _ => ?_
    split
    · exact ensures_pure (by simpa using hfirst)
    · refine (ensures_expect .comma expected).bind fun _ _ => ih.bind fun rest hrest => ?_
      refine ensures_pure fun a ha => ?_
      cases ha with
      | head => exact hfirst
      | tail _ ha => exact hrest a ha

theorem ensures_separated {item : Parse α} (hitem : Ensures item Q) (close : Symbol)
    (expected : String) :
    Ensures (separated item close expected) fun items => ∀ a ∈ items, Q a := by
  refine (ensures_eatIf _).bind fun closed _ => ?_
  split
  · exact ensures_pure (by simp)
  · exact ensures_remaining.bind fun fuel _ => ensures_separatedLoop hitem close expected fuel

end Parse

namespace Grammar

open Parse

theorem ensures_accept (checked : Checked) :
    Ensures (accept checked) fun e => checked.errors = [] ∧ e = checked.expr :=
  (ensures_reportAll checked.errors).bind fun _ h => ensures_pure ⟨h, rfl⟩

theorem ensures_checkDepth {Q : Expr → Prop} {e : Expr} (h : Q e) :
    Ensures (checkDepth e) fun found => Q found ∧ found.depth ≤ maxNesting := by
  rw [checkDepth]
  split
  · exact ensures_failAt _ _
  · next hdepth => exact ensures_pure ⟨h, by omega⟩

theorem Clean.joined {callable : String → Prop} {env : Env} {op : BinaryOp}
    {left right : Expr} {p : Position} (hl : Clean callable env left)
    (hr : Clean callable env right) (h : (Typing.join op left right p).errors = []) :
    Clean callable env (Typing.join op left right p).expr := by
  rw [Typing.join_expr]
  exact .binary _ op left right rfl hl hr ((Typing.join_congr p .nowhere op rfl rfl).mp h)

section Expressions

variable {callable : String → Prop} {env : Env} {deeper : Deeper Parse}

/-- The parsers that stand one level deeper build clean trees. -/
structure Deeper.Sound (callable : String → Prop) (env : Env) (deeper : Deeper Parse) : Prop where
  expression : Ensures deeper.expression (Clean callable env)
  negated : Ensures deeper.negated (Clean callable env)
  signed : Ensures deeper.signed (Clean callable env)

theorem ensures_chainLoop {operand : Parse Expr} (operator? : Lexeme → Option BinaryOp)
    (hoperand : Ensures operand (Clean callable env)) (fuel : Nat) {left : Expr}
    (hleft : Clean callable env left) :
    Ensures (chainLoop operand operator? Typing.join fuel left) (Clean callable env) := by
  induction fuel generalizing left with
  | zero => exact ensures_pure hleft
  | succ fuel ih =>
    refine ensures_here.bind fun p _ => (ensures_peek 0).bind fun l _ => ?_
    split
    · exact ensures_pure hleft
    · next op _ =>
      refine ensures_advance.bind fun _ _ => hoperand.bind fun right hright => ?_
      refine (ensures_accept _).bind fun joined hjoined => ?_
      obtain ⟨hclean, rfl⟩ := hjoined
      exact (ensures_checkDepth (hleft.joined hright hclean)).bind fun _ hnext => ih hnext.1

theorem ensures_chain {operand : Parse Expr} (operator? : Lexeme → Option BinaryOp)
    (hoperand : Ensures operand (Clean callable env)) :
    Ensures (chain operand operator? Typing.join) (Clean callable env) :=
  hoperand.bind fun _ hfirst => ensures_remaining.bind fun fuel _ =>
    ensures_chainLoop operator? hoperand fuel hfirst

theorem ensures_argument (hdeeper : deeper.Sound callable env) :
    Ensures (argument deeper) fun arg =>
      Clean callable env arg.value ∧ ∀ name ∈ arg.name, OnOneLine name := by
  have hplain : Ensures (do return ⟨none, ← deeper.expression⟩) fun arg : Typing.RawArg =>
      Clean callable env arg.value ∧ ∀ name ∈ arg.name, OnOneLine name :=
    hdeeper.expression.bind fun e he => ensures_pure ⟨he, by simp⟩
  have hnamed {name : String} (hname : OnOneLine name) :
      Ensures (do
        advance
        advance
        return ⟨some name, ← deeper.expression⟩) fun arg : Typing.RawArg =>
      Clean callable env arg.value ∧ ∀ name ∈ arg.name, OnOneLine name :=
    ensures_advance.bind fun _ _ => ensures_advance.bind fun _ _ =>
      hdeeper.expression.bind fun e he => ensures_pure ⟨he, by simpa using hname⟩
  refine (ensures_peek 1).bind fun second _ => ?_
  split
  · refine (ensures_peek 0).bind fun l hl => ?_
    split
    · exact hnamed (onOneLine_of_plain hl)
    · exact hnamed hl
    · exact hplain
  · exact hplain

theorem ensures_call (hnames : env.registry.Names callable) (hdeeper : deeper.Sound callable env)
    {name : String} (hname : Text.isPlainName name.toList) :
    Ensures (call env deeper name) (Clean callable env) := by
  refine ensures_here.bind fun p _ => ensures_advance.bind fun _ _ =>
    (ensures_expect _ _).bind fun _ _ =>
      (ensures_separated (ensures_argument hdeeper) _ _).bind fun raw hraw => ?_
  refine (ensures_accept _).mono fun e he => ?_
  obtain ⟨hclean, rfl⟩ := he
  obtain ⟨f, hf⟩ := Typing.find?_of_call p hclean
  have hmixed : Typing.mixedErrors name raw p = [] := by
    rw [Typing.call_errors p hf, List.append_eq_nil_iff] at hclean
    exact hclean.1
  have hback : Typing.rawArgs (Typing.isNamed raw) (Typing.boundArgs f raw) = raw :=
    Typing.rawArgs_boundArgs p hmixed
  rw [Typing.call_expr p hf]
  refine .call _ name f _ _ ⟨hname, hnames name f hf⟩ hf rfl ?_ ?_ (by rw [hback])
    (by rw [hback]) ?_
  · intro entry hentry
    have hmem := Typing.mem_rawArgs (Typing.isNamed raw) hentry
    rw [hback] at hmem
    exact (hraw _ hmem).1
  · intro hnamed entry hentry
    have hmem := Typing.mem_rawArgs (Typing.isNamed raw) hentry
    rw [hback] at hmem
    exact (hraw _ hmem).2 entry.1 (by simp [hnamed])
  · rw [hback]
    exact (Typing.call_congr p .nowhere hf).mpr hclean

theorem ensures_entry (hdeeper : deeper.Sound callable env) :
    Ensures (entry deeper) fun found => Clean callable env found.2 := by
  refine (ensures_peek 0).bind fun l _ => ?_
  split
  · exact ensures_advance.bind fun _ _ => (ensures_expect _ _).bind fun _ _ =>
      hdeeper.expression.bind fun e he => ensures_pure he
  · exact ensures_advance.bind fun _ _ => (ensures_expect _ _).bind fun _ _ =>
      hdeeper.expression.bind fun e he => ensures_pure he
  · exact ensures_advance.bind fun _ _ => (ensures_expect _ _).bind fun _ _ =>
      hdeeper.expression.bind fun e he => ensures_pure he
  · exact ensures_unexpected _

theorem ensures_messageField (p : Position) : Ensures (messageField p) (Clean callable env) := by
  refine (ensures_peek 0).bind fun l _ => ?_
  split
  · exact ensures_advance.bind fun _ _ => (ensures_expect _ _).bind fun _ _ =>
      (ensures_expectName _).bind fun name hname => ensures_pure (.field _ name rfl hname)
  · exact ensures_unexpected _

theorem clean_ofValue (p : Position) {value : Value} (h : value.Writable) :
    Clean callable env (.ofValue p value) := by
  apply Clean.literal _ value h
  cases value <;> first | rfl | cases h

theorem ensures_named (hnames : env.registry.Names callable) (hdeeper : deeper.Sound callable env)
    {name : String} (hname : Text.isPlainName name.toList) :
    Ensures (named env deeper name) (Clean callable env) := by
  refine ensures_here.bind fun p _ => ?_
  split
  · exact ensures_advance.bind fun _ _ => ensures_pure (clean_ofValue p trivial)
  split
  · exact ensures_advance.bind fun _ _ => ensures_pure (clean_ofValue p trivial)
  · refine (ensures_peek 1).bind fun second _ => ?_
    split
    · exact ensures_call hnames hdeeper hname
    split
    · exact ensures_unexpected _
    · next hfreeName =>
      refine ensures_advance.bind fun _ _ => (ensures_accept _).mono fun e he => ?_
      obtain ⟨hclean, rfl⟩ := he
      rw [Typing.variableIn] at hclean ⊢
      cases hscope : env.scope.find? name with
      | some type => exact .var _ name ⟨hname, by simpa using hfreeName⟩ hscope
      | none => simp [hscope, Typing.fault] at hclean

theorem writable_of_found_integer {n : Int64} (h : (Lexeme.integer n).Found) :
    (Value.long n).Writable ∧ (Value.long (-n)).Writable := by
  have hn : 0 ≤ n.toInt := h
  have hhigh := n.toInt_lt
  have hneg : (-n).toInt = -n.toInt := Long.toInt_neg (by rw [Long.least]; omega)
  simp only [Value.Writable, Long.least, hneg]
  omega

theorem ensures_primary (hnames : env.registry.Names callable)
    (hdeeper : deeper.Sound callable env) : Ensures (primary env deeper) (Clean callable env) := by
  refine ensures_here.bind fun p _ => (ensures_peek 0).bind fun l hl => ?_
  cases l with
  | name name => exact ensures_named hnames hdeeper hl
  | integer n =>
    exact ensures_advance.bind fun _ _ =>
      ensures_pure (clean_ofValue p (writable_of_found_integer hl).1)
  | float x => exact ensures_advance.bind fun _ _ => ensures_pure (clean_ofValue p hl)
  | string text => exact ensures_advance.bind fun _ _ => ensures_pure (clean_ofValue p trivial)
  | symbol s =>
    cases s with
    | dollar => exact ensures_advance.bind fun _ _ => ensures_messageField p
    | leftParen =>
      exact ensures_advance.bind fun _ _ => hdeeper.expression.bind fun inner hinner =>
        (ensures_expect _ _).bind fun _ _ => ensures_pure (hinner.moveTo p)
    | leftBracket =>
      exact ensures_advance.bind fun _ _ =>
        (ensures_separated hdeeper.expression _ _).bind fun items hitems =>
          ensures_pure (.array _ items rfl hitems)
    | leftBrace =>
      exact ensures_advance.bind fun _ _ =>
        (ensures_separated (ensures_entry hdeeper) _ _).bind fun entries hentries =>
          ensures_pure (.map _ entries rfl hentries)
    | _ => exact ensures_unexpected _
  | _ => exact ensures_unexpected _

theorem ensures_postfixLoop (hdeeper : deeper.Sound callable env) (fuel : Nat) {object : Expr}
    (hobject : Clean callable env object) :
    Ensures (postfixLoop deeper fuel object) (Clean callable env) := by
  induction fuel generalizing object with
  | zero => exact ensures_pure hobject
  | succ fuel ih =>
    refine ensures_here.bind fun p _ => (ensures_eatIf _).bind fun dot _ => ?_
    split
    · refine (ensures_expectName _).bind fun name hname => (ensures_accept _).bind fun e he => ?_
      obtain ⟨hclean, rfl⟩ := he
      have haccess : Clean callable env (Typing.access object name p).expr :=
        .access _ object name rfl hname hobject
          ((Typing.access_congr p .nowhere name rfl).mp hclean)
      exact (ensures_checkDepth haccess).bind fun _ hnext => ih hnext.1
    · refine (ensures_eatIf _).bind fun bracket _ => ?_
      split
      · refine hdeeper.expression.bind fun key hkey => (ensures_expect _ _).bind fun _ _ =>
          (ensures_accept _).bind fun e he => ?_
        obtain ⟨hclean, rfl⟩ := he
        have hindex : Clean callable env (Typing.index object key p).expr :=
          .index _ object key rfl hobject hkey ((Typing.index_congr p .nowhere rfl rfl).mp hclean)
        exact (ensures_checkDepth hindex).bind fun _ hnext => ih hnext.1
      · exact ensures_pure hobject

theorem ensures_postfixTail (hdeeper : deeper.Sound callable env) {object : Expr}
    (hobject : Clean callable env object) :
    Ensures (postfixTail deeper object) (Clean callable env) :=
  ensures_remaining.bind fun fuel _ => ensures_postfixLoop hdeeper fuel hobject

theorem ensures_signLevel (hnames : env.registry.Names callable)
    (hdeeper : deeper.Sound callable env) :
    Ensures (signLevel env deeper) (Clean callable env) := by
  refine ensures_here.bind fun p _ => (ensures_peek 0).bind fun first _ => ?_
  split
  · exact (ensures_primary hnames hdeeper).bind fun _ hobject => ensures_postfixTail hdeeper hobject
  · next op hop =>
    have hsign : op ≠ .not := by
      rintro rfl
      rw [signOperator?.eq_def] at hop
      split at hop <;> cases hop
    refine ensures_advance.bind fun _ _ => (ensures_peek 0).bind fun l hl => ?_
    split
    · next value hvalue =>
      have hwritable : (negateNumber value).Writable := by
        rw [number?.eq_def] at hvalue
        split at hvalue <;> cases hvalue
        · exact (writable_of_found_integer hl).2
        · next x =>
          have hx : x.isFinite := hl
          simpa [negateNumber, Value.Writable, Double.isFinite_neg] using hx
      exact ensures_advance.bind fun _ _ =>
        ensures_postfixTail hdeeper (clean_ofValue p hwritable)
    · refine hdeeper.signed.bind fun operand hoperand => (ensures_accept _).mono fun e he => ?_
      obtain ⟨hclean, rfl⟩ := he
      exact .signed _ _ operand hsign rfl hoperand
        ((Typing.signed_congr p .nowhere _ rfl).mp hclean)

theorem ensures_notLevel (hdeeper : deeper.Sound callable env)
    (hequality : Ensures (equalityLevel env deeper) (Clean callable env)) :
    Ensures (notLevel env deeper) (Clean callable env) := by
  refine ensures_here.bind fun p _ => (ensures_eatIf _).bind fun found _ => ?_
  split
  · refine hdeeper.negated.bind fun operand hoperand => (ensures_accept _).mono fun e he => ?_
    obtain ⟨hclean, rfl⟩ := he
    exact .not _ operand rfl hoperand ((Typing.negation_congr p .nowhere rfl).mp hclean)
  · exact hequality

theorem ensures_levelChain {k : Nat} (hk : IsChain k)
    (h : Ensures (level env deeper (k + 1)) (Clean callable env)) :
    Ensures (level env deeper k) (Clean callable env) := by
  rw [level_chain env deeper hk]
  exact ensures_chain _ h

theorem ensures_levels (hnames : env.registry.Names callable)
    (hdeeper : deeper.Sound callable env) :
    Ensures (orLevel env deeper) (Clean callable env) ∧
      Ensures (notLevel env deeper) (Clean callable env) ∧
      Ensures (signLevel env deeper) (Clean callable env) := by
  have h8 : Ensures (level env deeper 8) (Clean callable env) := ensures_signLevel hnames hdeeper
  have h7 := ensures_levelChain (by simp [IsChain]) h8
  have h6 := ensures_levelChain (by simp [IsChain]) h7
  have h5 := ensures_levelChain (by simp [IsChain]) h6
  have h4 := ensures_levelChain (by simp [IsChain]) h5
  have h3 : Ensures (level env deeper 3) (Clean callable env) := ensures_notLevel hdeeper h4
  have h2 := ensures_levelChain (by simp [IsChain]) h3
  have h1 := ensures_levelChain (by simp [IsChain]) h2
  exact ⟨h1, h3, h8⟩

end Expressions

/-- Parsers with any room build clean trees that are not too deep. -/
theorem nested_sound {callable : String → Prop} {env : Env}
    (hnames : env.registry.Names callable) (room : Nat) :
    (nested env room).Sound callable env ∧ Ensures (nested env room).expression
      fun e => Clean callable env e ∧ e.depth ≤ maxNesting := by
  induction room with
  | zero =>
    have hstop {Q : Expr → Prop} : Ensures (do tooDeep (← here)) Q :=
      ensures_here.bind fun p _ => ensures_failAt p _
    exact ⟨⟨hstop, hstop, hstop⟩, hstop⟩
  | succ room ih =>
    obtain ⟨hor, hnot, hsign⟩ := ensures_levels hnames ih.1
    have hchecked {p : Parse Expr} (hp : Ensures p (Clean callable env)) :
        Ensures (do checkDepth (← p)) fun e => Clean callable env e ∧ e.depth ≤ maxNesting :=
      hp.bind fun _ he => ensures_checkDepth he
    exact ⟨⟨(hchecked hor).mono fun _ h => h.1, (hchecked hnot).mono fun _ h => h.1,
      (hchecked hsign).mono fun _ h => h.1⟩, hchecked hor⟩

theorem ensures_expression {callable : String → Prop} {env : Env}
    (hnames : env.registry.Names callable) :
    Ensures (expression env) fun e => Clean callable env e ∧ e.depth ≤ maxNesting :=
  (nested_sound hnames maxNesting).2

end Grammar

end LogRules
