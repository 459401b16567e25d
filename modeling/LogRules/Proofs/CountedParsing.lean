import LogRules.Proofs.Answers
import LogRules.Proofs.CountedGrammar

/-!
Parsing with the counter is parsing without it. Wherever parsing goes on, found or not, the counter
is where it was before, and it has never been above the limit.
-/
namespace LogRules

open Grammar

namespace Counting

variable {α β : Type} {depth : Nat} {q : Counting α} {p : Parse α} {f : α → Counting β}
  {g : α → Parse β}

/-- From a depth on, the counting parser answers as the other one, and comes back to that depth. -/
def Mirrors (depth : Nat) (q : Counting α) (p : Parse α) : Prop :=
  ∀ c tokens, c.depth = depth → c.peak ≤ maxNesting →
    (q c tokens).1 = p tokens ∧ (q c tokens).2.depth = depth ∧ (q c tokens).2.peak ≤ maxNesting

theorem mirrors_pure (a : α) : Mirrors depth (pure a) (pure a) :=
  fun _ _ hdepth hpeak => ⟨rfl, hdepth, hpeak⟩

theorem mirrors_lift (p : Parse α) : Mirrors depth (liftM p) p :=
  fun _ _ hdepth hpeak => ⟨rfl, hdepth, hpeak⟩

theorem Mirrors.bind (hq : Mirrors depth q p) (hf : ∀ a, Mirrors depth (f a) (g a)) :
    Mirrors depth (q >>= f) (p >>= g) := by
  intro c tokens hdepth hpeak
  obtain ⟨hreply, hback, hpeak'⟩ := hq c tokens hdepth hpeak
  have hq : (q >>= f) c tokens = Counting.bind q f c tokens := rfl
  have hp : (p >>= g) tokens = Parse.bind p g tokens := rfl
  rw [hq, hp, Counting.bind, Parse.bind, ← hreply]
  cases hresult : (q c tokens).1.result with
  | none =>
    simp only [hresult]
    exact ⟨trivial, hback, hpeak'⟩
  | some a =>
    obtain ⟨hreply', hback', hpeak''⟩ := hf a (q c tokens).2 (q c tokens).1.rest hback hpeak'
    simp only [hresult, hreply']
    exact ⟨trivial, hback', hpeak''⟩

/-- Behind a parser that does not look at the counter. -/
theorem Mirrors.after (p : Parse α) (hf : ∀ a, Mirrors depth (f a) (g a)) :
    Mirrors depth (liftM p >>= f) (p >>= g) :=
  (mirrors_lift p).bind hf

theorem Mirrors.map {h : α → β} (hq : Mirrors depth q p) :
    Mirrors depth (do return h (← q)) (do return h (← p)) :=
  hq.bind fun _ => mirrors_pure _

theorem Mirrors.attempt (hq : Mirrors depth q p) : Mirrors depth (attempt q) (Parse.attempt p) := by
  intro c tokens hdepth hpeak
  obtain ⟨hreply, hback, hpeak'⟩ := hq c tokens hdepth hpeak
  refine ⟨?_, hback, hpeak'⟩
  rw [Parse.attempt, ← hreply]
  rfl

section Lists

variable {item : Counting α} {item' : Parse α} (hitem : Mirrors depth item item')

include hitem

theorem mirrors_separated (close : Symbol) (expected : String) :
    Mirrors depth (Parse.separated item close expected) (Parse.separated item' close expected) := by
  have hloop (fuel : Nat) : Mirrors depth (Parse.separatedLoop item close expected fuel)
      (Parse.separatedLoop item' close expected fuel) := by
    induction fuel with
    | zero => exact mirrors_lift _
    | succ fuel ih =>
      refine hitem.bind fun first => .after _ fun closed => ?_
      cases closed with
      | true => exact mirrors_pure _
      | false => exact .after _ fun _ => ih.map
  refine .after _ fun closed => ?_
  cases closed with
  | true => exact mirrors_pure _
  | false => exact .after _ hloop

end Lists

section Expressions

theorem mirrors_chain {operand : Counting Expr} {operand' : Parse Expr}
    (h : Mirrors depth operand operand') (operator? : Lexeme → Option BinaryOp)
    (join : BinaryOp → Expr → Expr → Position → Checked) :
    Mirrors depth (chain operand operator? join) (chain operand' operator? join) := by
  have hloop (fuel : Nat) (left : Expr) : Mirrors depth (chainLoop operand operator? join fuel left)
      (chainLoop operand' operator? join fuel left) := by
    induction fuel generalizing left with
    | zero => exact mirrors_pure _
    | succ fuel ih =>
      refine .after _ fun position => .after _ fun l => ?_
      cases operator? l with
      | none => exact mirrors_pure _
      | some op =>
        exact .after _ fun _ => h.bind fun right => .after _ fun joined => .after _ fun next =>
          ih next
  exact h.bind fun first => .after _ fun fuel => hloop fuel first

/-- The parsers of what stands deeper answer as those without a counter. -/
structure MirrorsDeeper (depth : Nat) (d : Deeper Counting) (d' : Deeper Parse) : Prop where
  expression : Mirrors depth d.expression d'.expression
  negated : Mirrors depth d.negated d'.negated
  signed : Mirrors depth d.signed d'.signed

variable {env : Env} {d : Deeper Counting} {d' : Deeper Parse} (hd : MirrorsDeeper depth d d')

include hd

theorem mirrors_argument : Mirrors depth (argument d) (argument d') := by
  refine .after _ fun second => ?_
  split
  · refine .after _ fun l => ?_
    cases l with
    | name | quotedName => exact .after _ fun _ => .after _ fun _ => hd.expression.map
    | _ => exact hd.expression.map
  · exact hd.expression.map

theorem mirrors_call (name : String) :
    Mirrors depth (call env d name) (call env d' name) :=
  .after _ fun _ => .after _ fun _ => .after _ fun _ =>
    (mirrors_separated (mirrors_argument hd) _ _).bind fun _ => mirrors_lift _

theorem mirrors_entry : Mirrors depth (entry d) (entry d') := by
  refine .after _ fun l => ?_
  cases l with
  | name | quotedName | string => exact .after _ fun _ => .after _ fun _ => hd.expression.map
  | _ => exact mirrors_lift _

omit hd in
theorem mirrors_messageField (position : Position) :
    Mirrors depth (messageField position) (messageField position) := by
  refine .after _ fun l => ?_
  split
  · exact .after _ fun _ => .after _ fun _ => (mirrors_lift _).map
  · exact mirrors_lift _

theorem mirrors_named (name : String) :
    Mirrors depth (named env d name) (named env d' name) := by
  refine .after _ fun position => ?_
  split
  · exact .after _ fun _ => mirrors_pure _
  split
  · exact .after _ fun _ => mirrors_pure _
  refine .after _ fun second => ?_
  split
  · exact mirrors_call hd name
  split
  · exact mirrors_lift _
  · exact .after _ fun _ => mirrors_lift _

theorem mirrors_primary : Mirrors depth (primary env d) (primary env d') := by
  refine .after _ fun position => .after _ fun l => ?_
  cases l with
  | integer | float | string => exact .after _ fun _ => mirrors_pure _
  | name name => exact mirrors_named hd name
  | quotedName | eof => exact mirrors_lift _
  | symbol s =>
    cases s with
    | leftParen =>
      exact .after _ fun _ => hd.expression.bind fun inner => .after _ fun _ => mirrors_pure _
    | leftBracket => exact .after _ fun _ => (mirrors_separated hd.expression _ _).map
    | leftBrace => exact .after _ fun _ => (mirrors_separated (mirrors_entry hd) _ _).map
    | dollar => exact .after _ fun _ => mirrors_messageField position
    | _ => exact mirrors_lift _

theorem mirrors_postfixTail (object : Expr) :
    Mirrors depth (postfixTail d object) (postfixTail d' object) := by
  refine .after _ fun fuel => ?_
  induction fuel generalizing object with
  | zero => exact mirrors_pure _
  | succ fuel ih =>
    refine .after _ fun position => .after _ fun dot => ?_
    cases dot with
    | true =>
      exact .after _ fun name => .after _ fun found => .after _ fun next => ih next
    | false =>
      refine .after _ fun bracket => ?_
      cases bracket with
      | true =>
        exact hd.expression.bind fun key => .after _ fun _ => .after _ fun found =>
          .after _ fun next => ih next
      | false => exact mirrors_pure _

theorem mirrors_signLevel : Mirrors depth (signLevel env d) (signLevel env d') := by
  refine .after _ fun position => .after _ fun first => ?_
  cases signOperator? first with
  | none => exact (mirrors_primary hd).bind fun object => mirrors_postfixTail hd object
  | some op =>
    have hsigned : Mirrors depth (do accept (Typing.signed op position (← d.signed)))
        (do accept (Typing.signed op position (← d'.signed))) :=
      hd.signed.bind fun e => mirrors_lift _
    refine .after _ fun _ => .after _ fun l => ?_
    cases number? l with
    | none => exact hsigned
    | some value =>
      cases op with
      | negate => exact .after _ fun _ => mirrors_postfixTail hd _
      | plus | not => exact hsigned

theorem mirrors_notLevel : Mirrors depth (notLevel env d) (notLevel env d') := by
  refine .after _ fun position => .after _ fun found => ?_
  cases found with
  | true => exact hd.negated.bind fun e => mirrors_lift _
  | false =>
    exact mirrors_chain (mirrors_chain (mirrors_chain (mirrors_chain (mirrors_signLevel hd)
      _ _) _ _) _ _) _ _

theorem mirrors_orLevel : Mirrors depth (orLevel env d) (orLevel env d') :=
  mirrors_chain (mirrors_chain (mirrors_notLevel hd) _ _) _ _

end Expressions

section Nesting

theorem bind_found {c c' : Counter} {tokens rest : List Token} {errors : List Diagnostic} {a : α}
    (h : q c tokens = (⟨errors, rest, some a⟩, c')) : (q >>= f) c tokens =
      (⟨errors ++ (f a c' rest).1.errors, (f a c' rest).1.rest, (f a c' rest).1.result⟩,
        (f a c' rest).2) := by
  have hbind : (q >>= f) c tokens = Counting.bind q f c tokens := rfl
  rw [hbind, Counting.bind, h]

theorem bind_eq {c c' : Counter} {tokens rest : List Token} {a : α}
    (h : q c tokens = (⟨[], rest, some a⟩, c')) : (q >>= f) c tokens = f a c' rest :=
  bind_found h

theorem depth_eq (c : Counter) (tokens : List Token) :
    Counting.depth c tokens = (⟨[], tokens, some c.depth⟩, c) :=
  rfl

variable {parse : Counting Expr} {p : Parse Expr}

/-- Where the limit is reached, the parser is not entered. -/
theorem mirrors_nested_full (parse : Counting Expr) :
    Mirrors maxNesting (nested parse) (do Grammar.tooDeep (← Parse.here)) := by
  intro c tokens hdepth hpeak
  rw [nested, bind_eq (depth_eq c tokens), if_pos (Nat.le_of_eq hdepth.symm)]
  exact ⟨rfl, hdepth, hpeak⟩

/-- Below the limit the parser is entered one level deeper. It is left with or without a result, and
the counter goes back in both cases. -/
theorem mirrors_nested (hdepth : depth < maxNesting) (h : Mirrors (depth + 1) parse p) :
    Mirrors depth (nested parse) (do checkDepth (← p)) := by
  intro c tokens hc hpeak
  obtain ⟨hreply, hback, hpeak'⟩ := h c.enter tokens (congrArg (· + 1) hc)
    (Nat.max_le.mpr ⟨hpeak, by omega⟩)
  have henter : count Counter.enter c tokens = (⟨[], tokens, some ()⟩, c.enter) := rfl
  have hleave (c : Counter) (rest : List Token) :
    count Counter.leave c rest = (⟨[], rest, some ()⟩, c.leave) := rfl
  rw [nested, bind_eq (depth_eq c tokens), if_neg (by omega), bind_eq henter]
  rcases hparse : parse c.enter tokens with ⟨⟨errors, rest, result⟩, c'⟩
  rw [hparse] at hreply hback hpeak'
  have hattempt : attempt parse c.enter tokens = (⟨errors, rest, some result⟩, c') := by
    rw [attempt, hparse]
  have hleft : c'.leave.depth = depth := congrArg (· - 1) hback
  rw [bind_found hattempt, bind_eq (hleave c' rest)]
  cases result with
  | none =>
    rw [Parse.bind_failed hreply.symm]
    exact ⟨congrArg (Reply.mk · rest none) (List.append_nil errors), hleft, hpeak'⟩
  | some e =>
    rw [Parse.bind_found hreply.symm]
    exact ⟨rfl, hleft, hpeak'⟩

/-- What the counter leaves up to the limit is the room for nesting. The parsers need not be
unfolded further than that. -/
theorem mirrors_deeperOf (env : Env) {unfoldings : Nat} (hdepth : depth ≤ maxNesting)
    (h : maxNesting < unfoldings + depth) :
    MirrorsDeeper depth (deeperOf env unfoldings) (Grammar.nested env (maxNesting - depth)) := by
  induction unfoldings generalizing depth with
  | zero => omega
  | succ unfoldings ih =>
    obtain rfl | hbelow := Nat.eq_or_lt_of_le hdepth
    · rw [Nat.sub_self]
      exact ⟨mirrors_nested_full _, mirrors_nested_full _, mirrors_nested_full _⟩
    · have hdeeper := ih hbelow (by omega)
      obtain ⟨room, hroom⟩ : ∃ room, maxNesting - depth = room + 1 :=
        ⟨maxNesting - depth - 1, by omega⟩
      have hroom' : maxNesting - (depth + 1) = room := by omega
      rw [hroom'] at hdeeper
      rw [hroom]
      exact ⟨mirrors_nested hbelow (mirrors_orLevel hdeeper),
        mirrors_nested hbelow (mirrors_notLevel hdeeper),
        mirrors_nested hbelow (mirrors_signLevel hdeeper)⟩

end Nesting

section Declarations

theorem mirrors_expression (env : Env) :
    Mirrors 0 (Counting.expression env) (Grammar.expression env) :=
  (mirrors_deeperOf env (Nat.zero_le _) (Nat.lt_succ_self _)).expression

variable (registry : Registry)

theorem mirrors_condition (position : Position) :
    Mirrors 0 (conditionWith Counting.expression registry position)
      (condition registry position) := by
  refine (mirrors_expression _).attempt.bind fun found => ?_
  cases found with
  | some e => exact .after _ fun _ => mirrors_pure _
  | none => exact .after _ fun _ => mirrors_pure _

theorem mirrors_statementBody (scope : Typing.Scope) :
    Mirrors 0 (statementBodyWith Counting.expression registry scope)
      (statementBody registry scope) := by
  refine .after _ fun position => .after _ fun bound => ?_
  cases bound with
  | true =>
    refine .after _ fun namePosition => .after _ fun name => ?_
    have hvalue : Mirrors 0 (do
        Parse.expect .assign "'='"
        let value ← Counting.expression ⟨registry, scope, false⟩
        return (Statement.bind name value.type value position, scope.insert name value.type)) (do
        Parse.expect .assign "'='"
        let value ← Grammar.expression ⟨registry, scope, false⟩
        return (Statement.bind name value.type value position, scope.insert name value.type)) :=
      .after _ fun _ => (mirrors_expression _).bind fun _ => mirrors_pure _
    cases isReserved name with
    | true => exact .after _ fun _ => hvalue
    | false => exact hvalue
  | false =>
    refine (mirrors_expression _).bind fun e => ?_
    cases e.isCall with
    | true => exact mirrors_pure _
    | false => exact .after _ fun _ => mirrors_pure _

theorem mirrors_statements (fuel : Nat) (scope : Typing.Scope) :
    Mirrors 0 (statementsWith Counting.expression registry fuel scope)
      (statements registry fuel scope) := by
  induction fuel generalizing scope with
  | zero => exact mirrors_pure _
  | succ fuel ih =>
    refine .after _ fun l => ?_
    split
    · exact mirrors_pure _
    refine .after _ fun ended => ?_
    cases ended with
    | true => exact mirrors_pure _
    | false =>
      refine .after _ fun starts => ?_
      cases starts with
      | true => exact mirrors_pure _
      | false =>
        refine (mirrors_statementBody registry scope).attempt.bind fun body => ?_
        cases body with
        | none => exact .after _ fun _ => ih scope
        | some body =>
          refine .after _ fun closed => ?_
          cases closed with
          | none => exact .after _ fun _ => ih body.2
          | some _ => exact (ih body.2).map

theorem mirrors_rule : Mirrors 0 (ruleWith Counting.expression registry) (rule registry) :=
  .after _ fun position => .after _ fun _ => .after _ fun _ => .after _ fun _ =>
    (mirrors_condition registry position).bind fun _ => .after _ fun _ => .after _ fun fuel =>
      (mirrors_statements registry fuel []).bind fun _ => .after _ fun _ => mirrors_pure _

theorem mirrors_declaration :
    Mirrors 0 (declarationWith Counting.expression registry) (declaration registry) := by
  refine .after _ fun atRule => ?_
  cases atRule with
  | true => exact (mirrors_rule registry).map
  | false =>
    refine .after _ fun atPipeline => ?_
    cases atPipeline with
    | true => exact .after _ fun _ => mirrors_pure _
    | false =>
      exact .after _ fun _ => .after _ fun _ => .after _ fun _ => .after _ fun _ => mirrors_lift _

theorem mirrors_declarations (fuel : Nat) :
    Mirrors 0 (Counting.declarations registry fuel) (Grammar.declarations registry fuel) := by
  induction fuel with
  | zero => exact mirrors_pure _
  | succ fuel ih =>
    refine .after _ fun l => ?_
    split
    · exact mirrors_pure _
    refine (mirrors_declaration registry).attempt.bind fun found => ?_
    cases found with
    | some d => exact ih.map
    | none => exact .after _ fun _ => ih

end Declarations

end Counting

end LogRules
