import LogRules.Proofs.AdvancingGrammar
import LogRules.Proofs.DeclaredPlaces

/-!
Parsing always makes progress, whatever the tokens are. Each loop of the grammar comes to its end by
itself, and none of them is cut short by the number of turns that it may take.
-/
namespace LogRules

open Parse

namespace Parse

variable {σ ρ : Type}

/-- A loop that repeats a turn as long as the turn wants to be repeated. -/
structure Progresses (loop : Nat → σ → Parse ρ) (turn : σ → Parse (LoopTurn σ ρ)) : Prop where
  /-- A turn is only repeated behind a token that it has consumed. -/
  advances : TurnsAdvance turn
  /-- A turn for every token is enough: what stands for more turns than that is never asked. -/
  complete : ∀ out fuel fuel' state tokens, Ended tokens → tokens.length ≤ fuel →
    tokens.length ≤ fuel' → loop fuel state tokens = turns turn out fuel' state tokens

theorem TurnsAdvance.progresses {loop : Nat → σ → Parse ρ} {turn : σ → Parse (LoopTurn σ ρ)}
    {out : σ → Parse ρ} (h : TurnsAdvance turn)
    (hloop : ∀ fuel state, loop fuel state = turns turn out fuel state) : Progresses loop turn where
  advances := h
  complete := fun _ fuel _ state _ hended hfuel hfuel' => by
    rw [hloop fuel state]
    exact turns_eq h hended hfuel hfuel' state

end Parse

namespace Grammar

/-- How parsing gets on with tokens, turn by turn and as a whole. -/
structure Progress (registry : Registry) (tokens : List Token) : Prop where
  /-- A turn of the loop over declarations consumes a token, recovery included. -/
  declarationTurn : tokenAt 0 tokens ≠ .eof → Shortens (declarationTurn registry ()) tokens
  /-- A turn of the loop over statements consumes a token, recovery included. -/
  statementTurn : ∀ scope, ¬ EndsStatements tokens →
    Shortens (statementTurn registry scope) tokens
  toDeclaration : StopsAt (fun rest => startsDeclaration rest = true)
    (fun l => l.isKeyword "end" = true) skipToDeclaration
  behindStatement : StopsAt
    (fun rest => (tokenAt 0 rest).isKeyword "end" = true ∨ startsDeclaration rest = true)
    (fun l => l = .symbol .semicolon) skipStatement
  behindCondition : StopsAt
    (fun rest => (tokenAt 0 rest).isKeyword "then" = true ∨ (tokenAt 0 rest).isKeyword "end" = true)
    (fun _ => False) skipCondition
  declarations : Progresses (fun fuel _ => declarations registry fuel)
    (Grammar.declarationTurn registry)
  statements : Progresses (statements registry) (Grammar.statementTurn registry)
  stages : Progresses (fun fuel _ => stages fuel) stageTurn
  stageRefs : Progresses (fun fuel _ => stageRefs fuel) refTurn
  /-- The levels of binary operators. -/
  chains : ∀ env room k, IsChain k →
    level env (nested env room) k =
      chain (level env (nested env room) (k + 1)) (operatorAt? k) Typing.join ∧
    Progresses (chainLoop (level env (nested env room) (k + 1)) (operatorAt? k) Typing.join)
      (chainTurn (level env (nested env room) (k + 1)) (operatorAt? k) Typing.join)
  accesses : ∀ env room, Progresses (postfixLoop (nested env room)) (postfixTurn (nested env room))
  /-- The lists of items, of arguments and of entries. -/
  items : ∀ env room close expected,
    Progresses (fun fuel _ => separatedLoop (nested env room).expression close expected fuel)
      (itemTurn (nested env room).expression close expected) ∧
    Progresses (fun fuel _ => separatedLoop (argument (nested env room)) close expected fuel)
      (itemTurn (argument (nested env room)) close expected) ∧
    Progresses (fun fuel _ => separatedLoop (entry (nested env room)) close expected fuel)
      (itemTurn (entry (nested env room)) close expected)
  /-- The statements of a rule are left where they end. -/
  statementsEnd : ∀ scope,
    Remains (Grammar.statements registry tokens.length scope tokens).rest tokens ∧
      EndsStatements (Grammar.statements registry tokens.length scope tokens).rest
  /-- All tokens are consumed up to the end, and there is a result. -/
  ends : Remains (Grammar.declarations registry tokens.length tokens).rest tokens ∧
    tokenAt 0 (Grammar.declarations registry tokens.length tokens).rest = .eof ∧
    (Grammar.declarations registry tokens.length tokens).result.isSome

section Ends

variable {registry : Registry} {tokens : List Token}

theorem statements_ends (hended : Ended tokens) (scope : Typing.Scope) :
    EndsStatements (statements registry tokens.length scope tokens).rest := by
  rw [statements_eq]
  refine turns_ends advance_statementTurn (fun scope tokens hended => ?_) hended le_rfl scope
  by_cases h : EndsStatements tokens
  · rw [statementTurn_stop h]
    exact .inr ⟨⟨[], rfl⟩, h⟩
  · exact .inl (shortens_statementTurn hended h).1

theorem declarations_ends (hended : Ended tokens) :
    tokenAt 0 (declarations registry tokens.length tokens).rest = .eof := by
  rw [declarations_eq]
  refine turns_ends (E := (tokenAt 0 · = .eof)) advance_declarationTurn
    (fun _ tokens hended => ?_) hended le_rfl ()
  by_cases h : tokenAt 0 tokens = .eof
  · rw [declarationTurn_stop h]
    exact .inr ⟨⟨[], rfl⟩, h⟩
  · exact .inl (shortens_declarationTurn hended h).1

end Ends

theorem operatorAt?_eof (k : Nat) : operatorAt? k .eof = none := by
  rw [operatorAt?.eq_def]
  split <;> rfl

theorem progresses_separated {α : Type} {item : Parse α} (h : Proceeds item) (close : Symbol)
    (expected : String) : Progresses (fun fuel _ => separatedLoop item close expected fuel)
      (itemTurn item close expected) :=
  (advance_itemTurn h close expected).progresses fun fuel _ =>
    separatedLoop_eq item close expected fuel

/-- Parsing makes progress on all tokens up to an end, and with that on every source, which is
scanned into such tokens. -/
theorem parsing_progresses (registry : Registry) :
    (∀ tokens, Ended tokens → Progress registry tokens) ∧
      ∀ source, Progress registry (tokenize source).1 ∧
        ∀ fuel, source.toList.length < fuel →
          Cursor.tokens fuel (Cursor.start source) = tokenize source := by
  have hprogress : ∀ tokens, Ended tokens → Progress registry tokens := fun tokens hended =>
    { declarationTurn := shortens_declarationTurn hended
      statementTurn := fun _ => shortens_statementTurn hended
      toDeclaration := stopsAt_skipToDeclaration
      behindStatement := stopsAt_skipStatement
      behindCondition := stopsAt_skipCondition
      declarations := advance_declarationTurn.progresses fun fuel _ => declarations_eq registry fuel
      statements := advance_statementTurn.progresses (statements_eq registry)
      stages := advance_stageTurn.progresses fun fuel _ => stages_eq fuel
      stageRefs := advance_refTurn.progresses fun fuel _ => stageRefs_eq fuel
      chains := fun env room k hk => ⟨level_chain env _ hk,
        (advance_chainTurn (operatorAt?_eof k) (eats_level env room (k + 1)).proceeds).progresses
          (chainLoop_eq _ _ _)⟩
      accesses := fun env room =>
        (advance_postfixTurn (eats_nested env room)).progresses (postfixLoop_eq _)
      items := fun env room close expected =>
        have hd := eats_nested env room
        ⟨progresses_separated hd.expression.proceeds close expected,
          progresses_separated (proceeds_argument hd) close expected,
          progresses_separated (eats_entry hd).proceeds close expected⟩
      statementsEnd := fun scope => ⟨by
        rw [statements_eq]
        exact (proceeds_turns advance_statementTurn (fun _ => proceeds_pure _) _ scope
          tokens hended trivial).1, statements_ends hended scope⟩
      ends := ⟨by
        rw [declarations_eq]
        exact (proceeds_turns advance_declarationTurn (fun _ => proceeds_pure _) _ ()
          tokens hended trivial).1, declarations_ends hended, by
        obtain ⟨found, hfound⟩ := declarations_total registry tokens.length tokens
        rw [hfound]
        rfl⟩ }
  refine ⟨hprogress, fun source => ⟨hprogress _ ?_, fun fuel hfuel => ?_⟩⟩
  · obtain ⟨inner, last, htokens, -, hlast⟩ := tokenize_ends source
    exact ⟨last, by rw [htokens, List.getLast?_concat]; rfl, hlast⟩
  · exact Cursor.tokens_fuel hfuel (Nat.lt_succ_self _)

/-- A parenthesis that closes nothing, and an end in the midst of the tokens. -/
def strayTokens : List Token :=
  [⟨.symbol .rightParen, ⟨1, 1⟩⟩, ⟨.eof, ⟨1, 2⟩⟩, ⟨.name "then", ⟨1, 3⟩⟩, ⟨.eof, ⟨1, 7⟩⟩]

theorem parsing_progresses_strayTokens :
    Ended strayTokens ∧ Progress (.ofList []) strayTokens :=
  have hended : Ended strayTokens := ⟨⟨.eof, ⟨1, 7⟩⟩, rfl, rfl⟩
  ⟨hended, (parsing_progresses (.ofList [])).1 strayTokens hended⟩

end Grammar

end LogRules
