import LogRules.Proofs.AccountedParsing

/-!
Expressions that keep account of unknown names: each level of the grammar reports one once for each
node with it in the tree that it builds.
-/
namespace LogRules.Grammar

open Parse

/-- Unless it is broken off, the parser reports the problem once for each node of its result that
has it where `scope` is. -/
abbrev Tells (problem : Problem) (scope : Typing.Scope) (F : List Token → Prop) (p : Parse Expr) :
    Prop :=
  Accounts problem 0 F p fun e n => n = e.unknowns scope problem

section Checks

variable {problem : Problem} {spare : Multiset Position} {F : List Token → Prop}

/-- What a check reports at spare places is counted. -/
theorem accounts_accept {checked : Checked} (h : problem.sites checked.errors ≤ spare) :
    Accounts problem spare F (accept checked) fun e n =>
      e = checked.expr ∧ n = (problem.sites checked.errors).card := by
  intro tokens _ _
  have haccept : accept checked tokens = ⟨checked.errors, tokens, some checked.expr⟩ :=
    congrArg (Reply.mk · tokens (some checked.expr)) (List.append_nil checked.errors)
  rw [haccept]
  exact ⟨checked.expr, [], rfl, rfl, h.trans (Multiset.le_add_right _ _), rfl, rfl⟩

theorem silent_accept (hproblem : problem.isUnknownName = true) {checked : Checked}
    (h : NamesKnown checked.errors) : Silent problem (accept checked) (· = checked.expr) :=
  (silent_reportAll (h.sites hproblem)).bind fun _ _ => accounts_pure ⟨rfl, rfl⟩

/-- A node whose own name may be unknown is reported at a token that was consumed before it. -/
theorem accounts_acceptNamed {scope : Typing.Scope} {checked : Checked} {p : Position}
    {before : Nat}
    (hbefore : before = (checked.expr.children.map (·.unknowns scope problem)).sum)
    (h : problem.sites checked.errors =
      if checked.expr.unknownName? scope = some problem then {p} else 0) :
    Accounts problem {p} F (accept checked) fun e n => before + n = e.unknowns scope problem := by
  have hsites : problem.sites checked.errors ≤ {p} := by
    rw [h]
    split
    exacts [le_rfl, Multiset.zero_le _]
  refine (accounts_accept hsites).mono (fun _ h => h) ?_
  rintro _ _ ⟨rfl, rfl⟩
  rw [hbefore, h, Expr.unknowns_eq]
  split <;> rfl

theorem silent_checkDepth (e : Expr) : Silent problem (checkDepth e) (· = e) := by
  rw [checkDepth]
  split
  exacts [accounts_failAt _ rfl, accounts_pure ⟨rfl, rfl⟩]

/-- A loop goes on with a construct that uses no name of its own. -/
theorem accounts_step (hproblem : problem.isUnknownName = true) {checked : Checked}
    (hknown : NamesKnown checked.errors) {next : Expr → Parse Expr} {R : Expr → Nat → Prop}
    (h : Accounts problem spare (fun _ => True) (next checked.expr) R) :
    Accounts problem spare F (do next (← checkDepth (← accept checked))) R := by
  refine (silent_accept hproblem hknown).bind ?_
  rintro _ rfl
  refine (silent_checkDepth _).bind ?_
  rintro _ rfl
  exact h

end Checks

section Expressions

variable {problem : Problem} {env : Env} {deeper : Deeper Parse}

/-- The parsers that stand one level deeper report the problem once for each node that has it. -/
structure Deeper.Tells (problem : Problem) (scope : Typing.Scope) (deeper : Deeper Parse) :
    Prop where
  expression : Grammar.Tells problem scope (fun _ => True) deeper.expression
  negated : Grammar.Tells problem scope (fun _ => True) deeper.negated
  signed : Grammar.Tells problem scope (fun _ => True) deeper.signed

/-- Whether the first token is a name. -/
def AtName (name : String) (tokens : List Token) : Prop := tokenAt 0 tokens = .name name

variable (hdeeper : deeper.Tells problem env.scope)

section Chains

variable (hproblem : problem.isUnknownName = true) {operand : Parse Expr}
  (hoperand : Tells problem env.scope (fun _ => True) operand)

include hproblem hoperand

theorem accounts_chainLoop (operator? : Lexeme → Option BinaryOp) (fuel : Nat) (left : Expr) :
    Accounts problem 0 (fun _ => True) (chainLoop operand operator? Typing.join fuel left)
      fun e n => left.unknowns env.scope problem + n = e.unknowns env.scope problem := by
  induction fuel generalizing left with
  | zero => exact accounts_pure rfl
  | succ fuel ih =>
    refine accounts_here fun p => accounts_peek fun l => ?_
    split
    · exact accounts_pure rfl
    · next op _ =>
      refine silent_advance.bind fun _ _ => hoperand.bind ?_
      rintro right _ rfl
      refine accounts_step hproblem (Typing.namesKnown_join p op)
        ((ih _).mono (fun _ h => h) fun e n hn => ?_)
      rwa [Typing.unknowns_join, Nat.add_assoc] at hn

theorem tells_chain (operator? : Lexeme → Option BinaryOp) :
    Tells problem env.scope (fun _ => True) (chain operand operator? Typing.join) := by
  refine hoperand.bind ?_
  rintro first _ rfl
  refine accounts_remaining fun fuel => ?_
  exact accounts_chainLoop hproblem hoperand operator? fuel first

end Chains

include hdeeper

theorem accounts_argument : Accounts problem 0 (fun _ => True) (argument deeper)
    fun arg n => n = arg.value.unknowns env.scope problem := by
  have hplain {F : List Token → Prop} :
      Accounts problem 0 F (do return ⟨none, ← deeper.expression⟩)
        fun arg : Typing.RawArg => fun n => n = arg.value.unknowns env.scope problem :=
    hdeeper.expression.anywhere.map fun _ _ h => h
  have hnamed {F : List Token → Prop} (name : String) : Accounts problem 0 F (do
        advance
        advance
        return ⟨some name, ← deeper.expression⟩)
        fun arg : Typing.RawArg => fun n => n = arg.value.unknowns env.scope problem :=
    silent_advance.bind fun _ _ => silent_advance.bind fun _ _ =>
      hdeeper.expression.map fun _ _ h => h
  refine accounts_peek fun second => ?_
  split
  · refine accounts_peek fun l => ?_
    split
    exacts [hnamed _, hnamed _, hplain]
  · exact hplain

theorem accounts_entry : Accounts problem 0 (fun _ => True) (entry deeper)
    fun found n => n = found.2.unknowns env.scope problem := by
  have hkeyed {F : List Token → Prop} (key : String) : Accounts problem 0 F (do
        advance
        expect .colon "':'"
        return (key, ← deeper.expression))
        fun found n => n = found.2.unknowns env.scope problem :=
    silent_advance.bind fun _ _ => (silent_expect _ _).bind fun _ _ =>
      hdeeper.expression.map fun _ _ h => h
  refine accounts_peek fun l => ?_
  split
  exacts [hkeyed _, hkeyed _, hkeyed _, accounts_unexpected _]

omit hdeeper in
theorem tells_messageField {scope : Typing.Scope} (p : Position) :
    Tells problem scope (fun _ => True) (messageField p) := by
  refine accounts_peek fun l => ?_
  split
  · exact silent_advance.bind fun _ _ => (silent_expect _ _).bind fun _ _ =>
      (silent_expectName _).bind fun _ _ => accounts_pure (Expr.unknowns_field _ _).symm
  · exact accounts_unexpected _

variable (hproblem : problem.isUnknownName = true)

include hproblem

/-- An unresolved call is reported at its name, which was consumed before the arguments. -/
theorem tells_call (name : String) :
    Tells problem env.scope (AtName name) (call env deeper name) := by
  refine accounts_here fun p => accounts_advance (fun _ h => h) nofun ?_
  refine (silent_expect _ _).bind fun _ _ =>
    (accounts_separated (accounts_argument hdeeper) _ _).bind ?_
  rintro raw _ rfl
  refine accounts_acceptNamed ?_ (Typing.sites_call p hproblem)
  rw [Typing.children_call, List.map_map]
  rfl

/-- A variable that is not in scope is reported at its name. -/
theorem tells_named (name : String) :
    Tells problem env.scope (AtName name) (named env deeper name) := by
  refine accounts_here fun p => ?_
  split
  · exact silent_advance.bind fun _ _ => accounts_pure (Expr.unknowns_ofValue p _).symm
  split
  · exact silent_advance.bind fun _ _ => accounts_pure (Expr.unknowns_ofValue p _).symm
  · refine accounts_peek fun second => ?_
    split
    · exact (tells_call hdeeper hproblem name).mono (fun _ h => h.1.1) fun _ _ h => h
    split
    · exact accounts_unexpected _
    · refine accounts_advance (fun _ h => h.1) nofun ?_
      have hchildren : 0 = ((Typing.variableIn env.scope name p).expr.children.map
          (·.unknowns env.scope problem)).sum := by
        rw [Typing.children_variableIn, List.map_nil, List.sum_nil]
      refine (accounts_acceptNamed hchildren (Typing.sites_variableIn p)).mono
        (fun _ h => h) fun e n hn => ?_
      rwa [Nat.zero_add] at hn

theorem tells_primary : Tells problem env.scope (fun _ => True) (primary env deeper) := by
  have hvalue {F : List Token → Prop} (p : Position) (value : Value) :
      Tells problem env.scope F (do
        advance
        return .ofValue p value) := by
    refine silent_advance.bind fun _ _ => accounts_pure ?_
    rw [Expr.unknowns_ofValue]
  refine accounts_here fun p => accounts_peek fun l => ?_
  cases l with
  | name name =>
    exact (tells_named hdeeper hproblem name).mono (fun _ h => h.2) fun _ _ h => h
  | integer n => exact hvalue p _
  | float x => exact hvalue p _
  | string text => exact hvalue p _
  | symbol s =>
    cases s with
    | dollar => exact silent_advance.bind fun _ _ => tells_messageField p
    | leftParen =>
      refine silent_advance.bind fun _ _ => hdeeper.expression.bind ?_
      rintro inner _ rfl
      refine (silent_expect _ _).bind fun _ _ => accounts_pure ?_
      rw [Expr.unknowns_moveTo, Nat.add_zero]
    | leftBracket =>
      refine silent_advance.bind fun _ _ =>
        (accounts_separated hdeeper.expression _ _).map fun items n hn => ?_
      rw [hn, Expr.unknowns_of_none rfl]
      rfl
    | leftBrace =>
      refine silent_advance.bind fun _ _ =>
        (accounts_separated (accounts_entry hdeeper) _ _).map fun entries n hn => ?_
      rw [hn, Expr.unknowns_of_none rfl, Expr.children, List.map_map]
      rfl
    | _ => exact accounts_unexpected _
  | _ => exact accounts_unexpected _

theorem accounts_postfixLoop (fuel : Nat) (object : Expr) :
    Accounts problem 0 (fun _ => True) (postfixLoop deeper fuel object)
      fun e n => object.unknowns env.scope problem + n = e.unknowns env.scope problem := by
  induction fuel generalizing object with
  | zero => exact accounts_pure rfl
  | succ fuel ih =>
    refine accounts_here fun p => (silent_eatIf _).bind fun dot _ => ?_
    split
    · refine (silent_expectName _).bind fun name _ =>
        accounts_step hproblem (Typing.namesKnown_access p name)
          ((ih _).mono (fun _ h => h) fun e n hn => ?_)
      rwa [Typing.unknowns_access] at hn
    · refine (silent_eatIf _).bind fun bracket _ => ?_
      split
      · refine hdeeper.expression.bind ?_
        rintro key _ rfl
        refine (silent_expect _ _).bind fun _ _ =>
          accounts_step hproblem (Typing.namesKnown_index p)
            ((ih _).mono (fun _ h => h) fun e n hn => ?_)
        rwa [Typing.unknowns_index, Nat.add_assoc] at hn
      · exact accounts_pure rfl

theorem accounts_postfixTail (object : Expr) :
    Accounts problem 0 (fun _ => True) (postfixTail deeper object)
      fun e n => object.unknowns env.scope problem + n = e.unknowns env.scope problem :=
  accounts_remaining fun fuel => accounts_postfixLoop hdeeper hproblem fuel object

theorem tells_signLevel : Tells problem env.scope (fun _ => True) (signLevel env deeper) := by
  refine accounts_here fun p => accounts_peek fun first => ?_
  split
  · refine (tells_primary hdeeper hproblem).anywhere.bind ?_
    rintro object _ rfl
    exact accounts_postfixTail hdeeper hproblem object
  · refine silent_advance.bind fun _ _ => accounts_peek fun l => ?_
    split
    · next value _ =>
      refine silent_advance.bind fun _ _ =>
        (accounts_postfixTail hdeeper hproblem _).mono (fun _ h => h) fun e n hn => ?_
      rwa [Expr.unknowns_ofValue, Nat.zero_add] at hn
    · refine hdeeper.signed.anywhere.bind ?_
      rintro operand _ rfl
      refine (silent_accept hproblem (Typing.namesKnown_signed p _)).mono
        (fun _ h => h) ?_
      rintro _ _ ⟨rfl, rfl⟩
      rw [Typing.unknowns_signed, Nat.add_zero]

theorem tells_notLevel
    (hequality : Tells problem env.scope (fun _ => True) (equalityLevel env deeper)) :
    Tells problem env.scope (fun _ => True) (notLevel env deeper) := by
  refine accounts_here fun p => (silent_eatIf _).bind fun found _ => ?_
  split
  · refine hdeeper.negated.bind ?_
    rintro operand _ rfl
    refine (silent_accept hproblem (Typing.namesKnown_checkBoolean operand)).mono
      (fun _ h => h) ?_
    rintro _ _ ⟨rfl, rfl⟩
    rw [Typing.unknowns_negation, Nat.add_zero]
  · exact hequality

omit hdeeper in
theorem tells_levelChain {k : Nat} (hk : IsChain k)
    (h : Tells problem env.scope (fun _ => True) (level env deeper (k + 1))) :
    Tells problem env.scope (fun _ => True) (level env deeper k) := by
  rw [level_chain env deeper hk]
  exact tells_chain hproblem h _

theorem tells_levels :
    Tells problem env.scope (fun _ => True) (orLevel env deeper) ∧
      Tells problem env.scope (fun _ => True) (notLevel env deeper) ∧
      Tells problem env.scope (fun _ => True) (signLevel env deeper) := by
  have h8 : Tells problem env.scope (fun _ => True) (level env deeper 8) :=
    tells_signLevel hdeeper hproblem
  have h7 := tells_levelChain hproblem (by simp [IsChain]) h8
  have h6 := tells_levelChain hproblem (by simp [IsChain]) h7
  have h5 := tells_levelChain hproblem (by simp [IsChain]) h6
  have h4 := tells_levelChain hproblem (by simp [IsChain]) h5
  have h3 : Tells problem env.scope (fun _ => True) (level env deeper 3) :=
    tells_notLevel hdeeper hproblem h4
  have h2 := tells_levelChain hproblem (by simp [IsChain]) h3
  have h1 := tells_levelChain hproblem (by simp [IsChain]) h2
  exact ⟨h1, h3, h8⟩

end Expressions

/-- Parsers with any room report an unknown name once for each node that has it. -/
theorem nested_tells {problem : Problem} (hproblem : problem.isUnknownName = true) (env : Env)
    (room : Nat) : (nested env room).Tells problem env.scope := by
  induction room with
  | zero =>
    have hstop : Tells problem env.scope (fun _ => True) (do tooDeep (← here)) :=
      accounts_here fun p => accounts_failAt p rfl
    exact ⟨hstop, hstop, hstop⟩
  | succ room ih =>
    obtain ⟨hor, hnot, hsign⟩ := tells_levels ih hproblem
    have hchecked {p : Parse Expr} (hp : Tells problem env.scope (fun _ => True) p) :
        Tells problem env.scope (fun _ => True) (do checkDepth (← p)) := by
      refine hp.bind ?_
      rintro e _ rfl
      refine (silent_checkDepth e).mono (fun _ h => h) ?_
      rintro _ _ ⟨rfl, rfl⟩
      rw [Nat.add_zero]
    exact ⟨hchecked hor, hchecked hnot, hchecked hsign⟩

theorem tells_expression {problem : Problem} (hproblem : problem.isUnknownName = true)
    (env : Env) : Tells problem env.scope (fun _ => True) (expression env) :=
  (nested_tells hproblem env maxNesting).expression

end LogRules.Grammar
