import LogRules.Proofs.Advancing

/-!
The loops of the grammar, turn by turn. A turn either ends the loop or says how it goes on. If it
goes on only behind a token that it has consumed, the loop ends by itself: it never takes as many
turns as there are tokens.
-/
namespace LogRules

/-- How a turn of a loop ends: with the result of the loop, or with the state of the next turn and
what becomes of the result of the rest. -/
inductive LoopTurn (σ ρ : Type)
  | stop (result : ρ)
  | goOn (next : σ) (extend : ρ → ρ)

/-- A turn that is followed by another one. -/
def LoopTurn.GoesOn {σ ρ : Type} (turn : Option (LoopTurn σ ρ)) : Prop :=
  ∃ next extend, turn = some (.goOn next extend)

theorem LoopTurn.not_goesOn_stop {σ ρ : Type} (result : ρ) :
    ¬ LoopTurn.GoesOn (some (.stop result : LoopTurn σ ρ)) := by
  rintro ⟨_, _, h⟩
  cases h

theorem LoopTurn.not_goesOn_none {σ ρ : Type} :
    ¬ LoopTurn.GoesOn (none : Option (LoopTurn σ ρ)) := by
  rintro ⟨_, _, h⟩
  cases h

namespace Parse

variable {σ ρ : Type}

/-- One turn after the other, until the loop ends or no turns are left. -/
def turns (turn : σ → Parse (LoopTurn σ ρ)) (out : σ → Parse ρ) : Nat → σ → Parse ρ
  | 0, state => out state
  | fuel + 1, state => do
    match ← turn state with
    | .stop result => return result
    | .goOn next extend => return extend (← turns turn out fuel next)

/-- On these tokens the turn is followed by another one, and the rest that this one starts with is
shorter. -/
def Shortens (turn : Parse (LoopTurn σ ρ)) (tokens : List Token) : Prop :=
  LoopTurn.GoesOn (turn tokens).result ∧ Remains (turn tokens).rest tokens ∧
    (turn tokens).rest.length < tokens.length

/-- Every turn that is followed by another one has consumed a token. -/
def TurnsAdvance (turn : σ → Parse (LoopTurn σ ρ)) : Prop :=
  ∀ state, Advances (fun _ => True) (turn state) LoopTurn.GoesOn

section Loops

variable {turn : σ → Parse (LoopTurn σ ρ)} {out out' : σ → Parse ρ}

theorem proceeds_turns (h : TurnsAdvance turn) (hout : ∀ state, Proceeds (out state))
    (fuel : Nat) (state : σ) : Proceeds (turns turn out fuel state) := by
  induction fuel generalizing state with
  | zero => exact hout state
  | succ fuel ih =>
    have hturn : Proceeds (turn state) := (h state).mono (fun _ h => h) fun _ h => h.elim
    refine hturn.bind fun t => ?_
    cases t with
    | stop result => exact proceeds_pure result
    | goOn next extend => exact (ih next).bind fun _ => proceeds_pure _

section Steps

variable {fuel : Nat} {state next : σ} {tokens rest : List Token} {errors : List Diagnostic}
  {result : ρ} {extend : ρ → ρ}

theorem turns_failed (h : turn state tokens = ⟨errors, rest, none⟩) :
    turns turn out (fuel + 1) state tokens = ⟨errors, rest, none⟩ := by
  rw [turns, bind_failed h]

theorem turns_stop (h : turn state tokens = ⟨errors, rest, some (.stop result)⟩) :
    turns turn out (fuel + 1) state tokens = ⟨errors, rest, some result⟩ := by
  rw [turns, bind_found h]
  show (⟨errors ++ [], rest, some result⟩ : Reply ρ) = _
  rw [List.append_nil]

theorem turns_goOn (h : turn state tokens = ⟨errors, rest, some (.goOn next extend)⟩) :
    turns turn out (fuel + 1) state tokens =
      ⟨errors ++ (turns turn out fuel next rest).errors, (turns turn out fuel next rest).rest,
        (turns turn out fuel next rest).result.map extend⟩ := by
  have hrest := bind_pure_eq (turns turn out fuel next) extend rest
  rw [turns, bind_found h]
  show (⟨errors ++ ((turns turn out fuel next >>= fun r => pure (extend r)) rest).errors,
    ((turns turn out fuel next >>= fun r => pure (extend r)) rest).rest,
    ((turns turn out fuel next >>= fun r => pure (extend r)) rest).result⟩ : Reply ρ) = _
  rw [hrest]

end Steps

/-- With as many turns as there are tokens the loop comes to its end. More turns change nothing, and
what stands for the turns that are missing is never asked. -/
theorem turns_eq (h : TurnsAdvance turn) {fuel fuel' : Nat} {tokens : List Token}
    (hended : Ended tokens) (hfuel : tokens.length ≤ fuel) (hfuel' : tokens.length ≤ fuel')
    (state : σ) : turns turn out fuel state tokens = turns turn out' fuel' state tokens := by
  have hpos : 0 < tokens.length := List.length_pos_of_ne_nil hended.ne_nil
  induction fuel generalizing fuel' tokens state with
  | zero => omega
  | succ fuel ih =>
    obtain ⟨fuel', rfl⟩ : ∃ n, fuel' = n + 1 := ⟨fuel' - 1, by omega⟩
    obtain ⟨hrest, hless⟩ := h state tokens hended trivial
    rcases hreply : turn state tokens with ⟨errors, rest, result⟩
    simp only [hreply] at hrest hless
    match result with
    | none => rw [turns_failed hreply, turns_failed hreply]
    | some (.stop result) => rw [turns_stop hreply, turns_stop hreply]
    | some (.goOn next extend) =>
      have hfewer := hless ⟨next, extend, rfl⟩
      have hended' := hended.of_remains hrest
      have hsame := ih hended' (by omega) (show rest.length ≤ fuel' by omega) next
        (List.length_pos_of_ne_nil hended'.ne_nil)
      rw [turns_goOn hreply, turns_goOn hreply, hsame]

/-- Where the last turn leaves off, the loop leaves off. -/
theorem turns_ends {E : List Token → Prop} (h : TurnsAdvance turn)
    (hturn : ∀ state tokens, Ended tokens → LoopTurn.GoesOn (turn state tokens).result ∨
      (∃ result, (turn state tokens).result = some (.stop result)) ∧ E (turn state tokens).rest)
    {fuel : Nat} {tokens : List Token} (hended : Ended tokens) (hfuel : tokens.length ≤ fuel)
    (state : σ) : E (turns turn out fuel state tokens).rest := by
  have hpos : 0 < tokens.length := List.length_pos_of_ne_nil hended.ne_nil
  induction fuel generalizing tokens state with
  | zero => omega
  | succ fuel ih =>
    obtain ⟨hrest, hless⟩ := h state tokens hended trivial
    have hturn := hturn state tokens hended
    rcases hreply : turn state tokens with ⟨errors, rest, result⟩
    simp only [hreply] at hrest hless hturn
    obtain ⟨next, extend, rfl⟩ | ⟨⟨result, rfl⟩, hends⟩ := hturn
    · have hfewer := hless ⟨next, extend, rfl⟩
      have hended' := hended.of_remains hrest
      rw [turns_goOn hreply]
      exact ih hended' (by omega) next (List.length_pos_of_ne_nil hended'.ne_nil)
    · rw [turns_stop hreply]
      exact hends

end Loops

instance : LawfulMonad Parse :=
  .mk' Parse
    (fun p => by
      funext tokens
      have hmap := bind_pure_eq p id tokens
      rw [Option.map_id] at hmap
      exact hmap)
    (fun a f => by
      funext tokens
      exact bind_eq rfl)
    (fun p f g => by
      funext tokens
      rcases hp : p tokens with ⟨errors, rest, _ | a⟩
      · rw [bind_failed hp, bind_failed (bind_failed hp)]
      · rw [bind_found hp]
        rcases hf : f a rest with ⟨errors', rest', _ | b⟩
        · have hpf := bind_found (f := f) hp
          rw [hf] at hpf
          rw [bind_failed hpf, bind_failed hf]
        · have hpf := bind_found (f := f) hp
          rw [hf] at hpf
          rw [bind_found hpf, bind_found hf]
          simp only [List.append_assoc])

/-- An item of a list, and a comma if the list is not closed behind it. -/
def itemTurn {α : Type} (item : Parse α) (close : Symbol) (expected : String) (_ : Unit) :
    Parse (LoopTurn Unit (List α)) := do
  let first ← item
  if ← eat close then return .stop [first]
  expect .comma expected
  return .goOn () (first :: ·)

theorem separatedLoop_eq {α : Type} (item : Parse α) (close : Symbol) (expected : String)
    (fuel : Nat) : separatedLoop item close expected fuel =
      turns (itemTurn item close expected) (fun _ => unexpected expected) fuel () := by
  induction fuel with
  | zero => rfl
  | succ fuel ih =>
    simp only [separatedLoop, turns, itemTurn, bind_assoc, ih]
    refine bind_congr fun first => bind_congr fun closed => ?_
    cases closed <;> simp

section Items

variable {α : Type} {item : Parse α} (hitem : Proceeds item) (close : Symbol) (expected : String)

include hitem

theorem advance_itemTurn : TurnsAdvance (itemTurn item close expected) := by
  refine fun _ => hitem.after LoopTurn.not_goesOn_none fun first => ?_
  refine advances_eatIf rfl (proceeds_pure _) ?_
  exact (eats_expect .comma expected).after LoopTurn.not_goesOn_none fun _ => proceeds_pure _

theorem proceeds_separated : Proceeds (separated item close expected) := by
  refine (proceeds_eatIf _).bind fun closed => ?_
  split
  · exact proceeds_pure _
  · refine advances_remaining fun fuel => ?_
    rw [separatedLoop_eq]
    exact proceeds_turns (advance_itemTurn hitem close expected)
      (fun _ => (eats_unexpected expected).proceeds) fuel ()

end Items

end Parse

namespace Grammar

open Parse

/-- An operator with its right operand. -/
def chainTurn (operand : Parse Expr) (operator? : Lexeme → Option BinaryOp)
    (join : BinaryOp → Expr → Expr → Position → Checked) (left : Expr) :
    Parse (LoopTurn Expr Expr) := do
  let position ← Parse.here
  match operator? (← Parse.peek 0) with
  | none => return .stop left
  | some op =>
    Parse.advance
    let right ← operand
    let joined ← accept (join op left right position)
    return .goOn (← checkDepth joined) id

theorem chainLoop_eq (operand : Parse Expr) (operator? : Lexeme → Option BinaryOp)
    (join : BinaryOp → Expr → Expr → Position → Checked) (fuel : Nat) (left : Expr) :
    chainLoop operand operator? join fuel left =
      turns (chainTurn operand operator? join) pure fuel left := by
  induction fuel generalizing left with
  | zero => rfl
  | succ fuel ih =>
    simp only [chainLoop, turns, chainTurn, bind_assoc, ih]
    refine bind_congr fun position => bind_congr fun l => ?_
    cases operator? l <;> simp

/-- An access behind an expression. -/
def postfixTurn (deeper : Deeper Parse) (object : Expr) : Parse (LoopTurn Expr Expr) := do
  let position ← Parse.here
  if ← Parse.eat .dot then
    let name ← Parse.expectName "field name"
    let found ← accept (Typing.access object name position)
    return .goOn (← checkDepth found) id
  else if ← Parse.eat .leftBracket then
    let key ← deeper.expression
    Parse.expect .rightBracket "']'"
    let found ← accept (Typing.index object key position)
    return .goOn (← checkDepth found) id
  else return .stop object

theorem postfixLoop_eq (deeper : Deeper Parse) (fuel : Nat) (object : Expr) :
    postfixLoop deeper fuel object = turns (postfixTurn deeper) pure fuel object := by
  induction fuel generalizing object with
  | zero => rfl
  | succ fuel ih =>
    simp only [postfixLoop, turns, postfixTurn, bind_assoc, ih]
    refine bind_congr fun position => bind_congr fun dot => ?_
    cases dot with
    | true => simp
    | false =>
      simp only [Bool.false_eq_true, if_false, bind_assoc]
      refine bind_congr fun bracket => ?_
      cases bracket <;> simp

/-- The end of a statement that has been found. Without one the statement is dropped. -/
def statementTail (statement : Statement) (scope : Typing.Scope) :
    Parse (LoopTurn Typing.Scope (List Statement)) := do
  match ← Parse.attempt statementEnd with
  | none =>
    skip skipStatement
    return .goOn scope id
  | some () => return .goOn scope (statement :: ·)

/-- A statement, or what is skipped in its place. -/
def statementTurn (registry : Registry) (scope : Typing.Scope) :
    Parse (LoopTurn Typing.Scope (List Statement)) := do
  if (← Parse.peek 0) = .eof then return .stop []
  else if ← Parse.atKeyword "end" then return .stop []
  else if ← atDeclaration then return .stop []
  else
    match ← Parse.attempt (statementBody registry scope) with
    | none =>
      skip skipStatement
      return .goOn scope id
    | some (statement, scope) => statementTail statement scope

theorem statements_eq (registry : Registry) (fuel : Nat) (scope : Typing.Scope) :
    statements registry fuel scope =
      turns (statementTurn registry) (fun _ => pure []) fuel scope := by
  rw [statements]
  induction fuel generalizing scope with
  | zero => rfl
  | succ fuel ih =>
    simp only [statementsWith, turns, statementTurn, statementTail, bind_assoc, ih]
    refine bind_congr fun l => ?_
    split
    · simp
    simp only [bind_assoc]
    refine bind_congr fun found => ?_
    cases found with
    | true => simp
    | false =>
      simp only [Bool.false_eq_true, if_false, bind_assoc]
      refine bind_congr fun starts => ?_
      cases starts with
      | true => simp
      | false =>
        simp only [Bool.false_eq_true, if_false, bind_assoc]
        refine bind_congr fun body => ?_
        cases body with
        | none => simp
        | some statement =>
          simp only [bind_assoc]
          refine bind_congr fun ended => ?_
          cases ended <;> simp

/-- A reference of a stage. -/
def refTurn (_ : Unit) : Parse (LoopTurn Unit (List String)) := do
  if ← Parse.eatKeyword "rule" then
    let name ← Parse.expectString "rule name string"
    let _ ← Parse.eat .semicolon
    return .goOn () (name :: ·)
  else return .stop []

theorem stageRefs_eq (fuel : Nat) : stageRefs fuel = turns refTurn (fun _ => pure []) fuel () := by
  induction fuel with
  | zero => rfl
  | succ fuel ih =>
    simp only [stageRefs, turns, refTurn, bind_assoc, ih]
    refine bind_congr fun found => ?_
    cases found <;> simp

/-- A stage of a pipeline. -/
def stageTurn (_ : Unit) : Parse (LoopTurn Unit (List Stage)) := do
  if ← Parse.atKeyword "stage" then
    let first ← stage
    return .goOn () (first :: ·)
  else return .stop []

theorem stages_eq (fuel : Nat) : stages fuel = turns stageTurn (fun _ => pure []) fuel () := by
  induction fuel with
  | zero => rfl
  | succ fuel ih =>
    simp only [stages, turns, stageTurn, bind_assoc, ih]
    refine bind_congr fun found => ?_
    cases found <;> simp

/-- A declaration, or what is skipped in its place. -/
def declarationTurn (registry : Registry) (_ : Unit) :
    Parse (LoopTurn Unit (List Declaration)) := do
  if (← Parse.peek 0) = .eof then return .stop []
  else
    match ← Parse.attempt (declaration registry) with
    | some found => return .goOn () (found :: ·)
    | none =>
      skip skipToDeclaration
      return .goOn () id

theorem declarations_eq (registry : Registry) (fuel : Nat) : declarations registry fuel =
    turns (declarationTurn registry) (fun _ => pure []) fuel () := by
  rw [declarations]
  induction fuel with
  | zero => rfl
  | succ fuel ih =>
    simp only [declarationsWith, turns, declarationTurn, bind_assoc, ih]
    refine bind_congr fun l => ?_
    split
    · simp
    simp only [bind_assoc]
    refine bind_congr fun found => ?_
    cases found <;> simp

end Grammar

end LogRules
