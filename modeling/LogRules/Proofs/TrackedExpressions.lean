import LogRules.Proofs.Levels
import LogRules.Proofs.Tracking

/-!
The expressions of the grammar are parsed alike at every place, and no further than one token behind
their ends is looked at.
-/
namespace LogRules.Grammar

open Parse

variable {move : Position → Position} {sure : List Token → Prop} {eats : Prop}
  {tokens : List Token}

theorem oneMore_nil (h : OneMore []) : eats := absurd rfl h

theorem tracks_accept {checked checked' : Checked} (h : checked' = checked.relocate move) :
    Tracks move (Expr.relocate move) sure False (accept checked) (accept checked') tokens := by
  subst h
  exact .reportAll rfl fun _ _ => tracks_pure rfl

theorem tracks_checkDepth (e : Expr) :
    Tracks move (Expr.relocate move) sure False (checkDepth e) (checkDepth (e.relocate move))
      tokens := by
  rw [checkDepth, checkDepth, Expr.depth_relocate, Expr.position_relocate]
  split
  · exact tracks_failAt _ _
  · exact tracks_pure rfl

theorem tracks_checked {checked checked' : Checked} {f f' : Expr → Parse Expr}
    (h : checked' = checked.relocate move)
    (hf : ∀ e left, left.length ≤ tokens.length →
      Tracks move (Expr.relocate move) OneMore False (f e) (f' (e.relocate move)) left) :
    Tracks move (Expr.relocate move) OneMore False
      (do
        let found ← accept checked
        f (← checkDepth found))
      (do
        let found ← accept checked'
        f' (← checkDepth found)) tokens := by
  refine (tracks_accept h).bind fun found left hleft _ => ?_
  refine (tracks_checkDepth found).bind fun e left' hleft' _ => ?_
  exact hf e left' (Nat.le_trans hleft'.length_le hleft.length_le)

/-- A parser of expressions that is the same at every place. -/
abbrev TracksExpr (move : Position → Position) (p : Parse Expr) : Prop :=
  ∀ tokens, Tracks move (Expr.relocate move) OneMore True p p tokens

theorem tracks_chainLoop {operand : Parse Expr} {operator? : Lexeme → Option BinaryOp}
    (hoperand : TracksExpr move operand) (heof : operator? .eof = none) {fuel fuel' : Nat}
    (left : Expr) (hfuel : tokens.length < fuel) (hfuel' : tokens.length < fuel') :
    Tracks move (Expr.relocate move) OneMore False
      (chainLoop operand operator? Typing.join fuel left)
      (chainLoop operand operator? Typing.join fuel' (left.relocate move)) tokens := by
  induction fuel generalizing fuel' tokens left with
  | zero => omega
  | succ fuel ih =>
    obtain ⟨fuel', rfl⟩ : ∃ n, fuel' = n + 1 := ⟨fuel' - 1, by omega⟩
    refine .here oneMore_nil fun p => .peek oneMore_nil fun l hl => ?_
    split
    · exact tracks_pure rfl
    · next op hop =>
      have hne : l ≠ .eof := by
        rintro rfl
        rw [heof] at hop
        cases hop
      refine .advance (ne_nil_of_tokenAt hl hne) fun behind _ hbehind => ?_
      refine (hoperand behind).after fun right behind' _ hbehind' => ?_
      have hjoin := Typing.join_relocate move left right p op
      exact tracks_checked hjoin fun next left' hleft' => ih next (by omega) (by omega)

theorem tracks_chain {operand : Parse Expr} {operator? : Lexeme → Option BinaryOp}
    (hoperand : TracksExpr move operand) (heof : operator? .eof = none) :
    TracksExpr move (chain operand operator? Typing.join) := fun tokens =>
  (hoperand tokens).bind fun first _ _ _ => .remaining fun _ _ hfuel hfuel' =>
    tracks_chainLoop hoperand heof first hfuel hfuel'

/-- The parsers of what stands one level deeper are the same at every place. -/
structure Deeper.Tracked (move : Position → Position) (deeper : Deeper Parse) : Prop where
  expression : TracksExpr move deeper.expression
  negated : TracksExpr move deeper.negated
  signed : TracksExpr move deeper.signed

section Levels

variable {env : Env} {deeper : Deeper Parse}

theorem tracks_argument (hdeeper : deeper.Tracked move) :
    Tracks move (Typing.RawArg.mapValue (Expr.relocate move)) OneMore eats (argument deeper)
      (argument deeper) tokens := by
  have hnamed (name : String) (hlength : 1 < tokens.length) :
      Tracks move (Typing.RawArg.mapValue (Expr.relocate move)) OneMore True
        (do
          advance
          advance
          return ⟨some name, ← deeper.expression⟩)
        (do
          advance
          advance
          return ⟨some name, ← deeper.expression⟩) tokens := by
    refine .advance (List.ne_nil_of_length_pos (by omega)) fun left _ hleft => ?_
    refine .advance (List.ne_nil_of_length_pos (by omega)) fun left' _ _ => ?_
    exact (hdeeper.expression left').after fun _ _ _ _ => tracks_pure rfl
  have hplain : Tracks move (Typing.RawArg.mapValue (Expr.relocate move)) OneMore True
      (do return ⟨none, ← deeper.expression⟩) (do return ⟨none, ← deeper.expression⟩) tokens :=
    (hdeeper.expression tokens).bind fun _ _ _ _ => tracks_pure rfl
  refine .peekSecond fun second hsecond => ?_
  split
  · next hcolon =>
    have hlength := lt_of_tokenAt hsecond (by simp [hcolon])
    refine .peek oneMore_nil fun l hl => ?_
    split
    · exact hnamed _ hlength
    · exact hnamed _ hlength
    · exact hplain
  · exact hplain

theorem tracks_call (hdeeper : deeper.Tracked move) (name : String) (hne : tokens ≠ []) :
    Tracks move (Expr.relocate move) OneMore eats (call env deeper name) (call env deeper name)
      tokens := by
  refine .here oneMore_nil fun p => .advance hne fun left _ _ => ?_
  refine (tracks_expect _ _).bind fun _ _ _ _ => ?_
  refine (tracks_separated (fun tokens => tracks_argument hdeeper) _ _).bind fun raw _ _ _ => ?_
  exact tracks_accept (Typing.call_relocate move name raw env.inCondition p env.registry)

theorem tracks_entry (hdeeper : deeper.Tracked move) :
    Tracks move (fun entry => (entry.1, entry.2.relocate move)) OneMore eats (entry deeper)
      (entry deeper) tokens := by
  refine .peek oneMore_nil fun l hl => ?_
  have hentry (key : String) (hne : l ≠ .eof) :
      Tracks move (fun entry : String × Expr => (entry.1, entry.2.relocate move)) OneMore eats
        (do
          advance
          expect .colon "':'"
          return (key, ← deeper.expression))
        (do
          advance
          expect .colon "':'"
          return (key, ← deeper.expression)) tokens := by
    refine .advance (ne_nil_of_tokenAt hl hne) fun left _ _ => ?_
    refine (tracks_expect _ _).bind fun _ left' _ _ => ?_
    exact (hdeeper.expression left').after fun _ _ _ _ => tracks_pure rfl
  split
  · exact hentry _ (by simp)
  · exact hentry _ (by simp)
  · exact hentry _ (by simp)
  · exact tracks_unexpected _

theorem tracks_messageField (p : Position) :
    Tracks move (Expr.relocate move) OneMore eats (messageField p) (messageField (move p))
      tokens := by
  refine .peek oneMore_nil fun l hl => ?_
  split
  · next hword =>
    have hne : l ≠ .eof := by
      rintro rfl
      cases hword
    refine .advance (ne_nil_of_tokenAt hl hne) fun left _ _ => ?_
    refine (tracks_expect _ _).bind fun _ _ _ _ => ?_
    refine (tracks_expectName _).bind fun name _ _ _ => tracks_pure ?_
    rw [Expr.relocate]
    rfl
  · exact tracks_unexpected _

theorem tracks_named (hdeeper : deeper.Tracked move) (name : String) (hne : tokens ≠ []) :
    Tracks move (Expr.relocate move) OneMore eats (named env deeper name) (named env deeper name)
      tokens := by
  refine .here oneMore_nil fun p => ?_
  split
  · exact .advance hne fun _ _ _ => tracks_pure (Expr.relocate_ofValue move p _)
  split
  · exact .advance hne fun _ _ _ => tracks_pure (Expr.relocate_ofValue move p _)
  · refine .peekSecond fun second _ => ?_
    split
    · exact tracks_call hdeeper name hne
    split
    · exact tracks_unexpected _
    · exact .advance hne fun _ _ _ =>
        tracks_accept (Typing.variableIn_relocate move p env.scope name)

theorem tracks_primary (hdeeper : deeper.Tracked move) : TracksExpr move (primary env deeper) := by
  intro tokens
  refine .here oneMore_nil fun p => .peek oneMore_nil fun l hl => ?_
  have hne (h : l ≠ .eof) : tokens ≠ [] := ne_nil_of_tokenAt hl h
  cases l with
  | name name => exact tracks_named hdeeper name (hne (by simp))
  | integer n =>
    exact .advance (hne (by simp)) fun _ _ _ => tracks_pure (Expr.relocate_ofValue move p _)
  | float x =>
    exact .advance (hne (by simp)) fun _ _ _ => tracks_pure (Expr.relocate_ofValue move p _)
  | string text =>
    exact .advance (hne (by simp)) fun _ _ _ => tracks_pure (Expr.relocate_ofValue move p _)
  | symbol s =>
    have hsome : tokens ≠ [] := hne (by simp)
    cases s with
    | leftParen =>
      refine .advance hsome fun left _ _ => ?_
      refine (hdeeper.expression left).after fun inner _ _ _ => ?_
      exact (tracks_expect _ _).bind fun _ _ _ _ =>
        tracks_pure (Expr.relocate_moveTo move p inner)
    | leftBracket =>
      refine .advance hsome fun left _ _ => ?_
      refine (tracks_separated (fun _ => (hdeeper.expression _).mono (fun _ h => h) False.elim) _
        _).bind fun items _ _ _ => tracks_pure ?_
      rw [Expr.relocate, Expr.relocateItems_eq]
      rfl
    | leftBrace =>
      refine .advance hsome fun left _ _ => ?_
      refine (tracks_separated (fun _ => tracks_entry hdeeper) _ _).bind fun entries _ _ _ =>
        tracks_pure ?_
      rw [Expr.relocate, Expr.relocateEntries_eq]
      rfl
    | dollar => exact .advance hsome fun _ _ _ => tracks_messageField p
    | _ => exact tracks_unexpected _
  | _ => exact tracks_unexpected _

theorem tracks_postfixLoop (hdeeper : deeper.Tracked move) {fuel fuel' : Nat} (object : Expr)
    (hfuel : tokens.length < fuel) (hfuel' : tokens.length < fuel') :
    Tracks move (Expr.relocate move) OneMore False (postfixLoop deeper fuel object)
      (postfixLoop deeper fuel' (object.relocate move)) tokens := by
  induction fuel generalizing fuel' tokens object with
  | zero => omega
  | succ fuel ih =>
    obtain ⟨fuel', rfl⟩ : ∃ n, fuel' = n + 1 := ⟨fuel' - 1, by omega⟩
    refine .here oneMore_nil fun p => ?_
    refine .eatIf (by simp) oneMore_nil (fun left _ hlength => ?_) ?_
    · refine (tracks_expectName _).bind fun name b hb _ => ?_
      have hlength' := hb.length_le
      have haccess := Typing.access_relocate move object p name
      exact tracks_checked haccess fun next left' hleft' => ih next (by omega) (by omega)
    · refine .eatIf (by simp) oneMore_nil (fun left _ hlength => ?_) (tracks_pure rfl)
      refine (hdeeper.expression left).after fun key b hb _ => ?_
      refine (tracks_expect _ _).bind fun _ b' hb' _ => ?_
      have hlength' := hb.length_le
      have hlength'' := hb'.length_le
      have hindex := Typing.index_relocate move object key p
      exact tracks_checked hindex fun next left' hleft' => ih next (by omega) (by omega)

theorem tracks_postfixTail (hdeeper : deeper.Tracked move) (object : Expr) :
    Tracks move (Expr.relocate move) OneMore False (postfixTail deeper object)
      (postfixTail deeper (object.relocate move)) tokens :=
  .remaining fun _ _ hfuel hfuel' => tracks_postfixLoop hdeeper object hfuel hfuel'

theorem tracks_signLevel (hdeeper : deeper.Tracked move) :
    TracksExpr move (signLevel env deeper) := by
  intro tokens
  refine .here oneMore_nil fun p => .peek oneMore_nil fun l hl => ?_
  split
  · exact (tracks_primary hdeeper tokens).bind fun object _ _ _ =>
      tracks_postfixTail hdeeper object
  · next op hop =>
    have hne : l ≠ .eof := by
      rintro rfl
      cases hop
    refine .advance (ne_nil_of_tokenAt hl hne) fun left _ _ => .peek oneMore_nil fun l' hl' => ?_
    split
    · next value hvalue =>
      have hne' : l' ≠ .eof := by
        rintro rfl
        cases hvalue
      refine .advance (ne_nil_of_tokenAt hl' hne') fun _ _ _ => ?_
      rw [← Expr.relocate_ofValue]
      exact tracks_postfixTail hdeeper _
    · refine (hdeeper.signed left).after fun operand _ _ _ => ?_
      exact tracks_accept (Typing.signed_relocate move operand p _)

theorem tracks_notLevel (hdeeper : deeper.Tracked move)
    (hequality : TracksExpr move (equalityLevel env deeper)) :
    TracksExpr move (notLevel env deeper) := by
  intro tokens
  refine .here oneMore_nil fun p => .eatIf rfl oneMore_nil (fun left _ _ => ?_) (hequality tokens)
  refine (hdeeper.negated left).after fun operand _ _ _ => ?_
  exact tracks_accept (Typing.negation_relocate move operand p)

theorem tracks_levelChain {k : Nat} (hk : IsChain k)
    (h : TracksExpr move (level env deeper (k + 1))) : TracksExpr move (level env deeper k) := by
  rw [level_chain env deeper hk]
  refine tracks_chain h ?_
  rw [operatorAt?.eq_def]
  split <;> rfl

theorem tracks_levels (env : Env) (hdeeper : deeper.Tracked move) :
    TracksExpr move (orLevel env deeper) ∧ TracksExpr move (notLevel env deeper) ∧
      TracksExpr move (signLevel env deeper) := by
  have h8 : TracksExpr move (level env deeper 8) := tracks_signLevel hdeeper
  have h7 := tracks_levelChain (by simp [IsChain]) h8
  have h6 := tracks_levelChain (by simp [IsChain]) h7
  have h5 := tracks_levelChain (by simp [IsChain]) h6
  have h4 := tracks_levelChain (by simp [IsChain]) h5
  have h3 : TracksExpr move (level env deeper 3) := tracks_notLevel hdeeper h4
  have h2 := tracks_levelChain (by simp [IsChain]) h3
  have h1 := tracks_levelChain (by simp [IsChain]) h2
  exact ⟨h1, h3, h8⟩

end Levels

theorem tracked_nested (env : Env) (room : Nat) : (nested env room).Tracked move := by
  induction room with
  | zero =>
    have hstop : TracksExpr move (do tooDeep (← here)) := fun tokens =>
      .here oneMore_nil fun p => tracks_failAt p _
    exact ⟨hstop, hstop, hstop⟩
  | succ room ih =>
    obtain ⟨hor, hnot, hsign⟩ := tracks_levels env ih
    have hchecked {p : Parse Expr} (hp : TracksExpr move p) :
        TracksExpr move (do checkDepth (← p)) := fun tokens =>
      (hp tokens).bind fun e _ _ _ => tracks_checkDepth e
    exact ⟨hchecked hor, hchecked hnot, hchecked hsign⟩

theorem tracks_expression (env : Env) : TracksExpr move (expression env) :=
  (tracked_nested env maxNesting).expression

end LogRules.Grammar
