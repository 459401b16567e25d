import LogRules.Proofs.ShapedParsing
import LogRules.Source

/-!
What a source declares does not depend on the functions that are registered. A registry decides
about types and calls only; neither decides how parsing goes on.
-/
namespace LogRules

open Diagnostic

namespace Grammar

open Parse

/-- Parsers of one level deeper that build alike. -/
structure Deeper.Alike (d d' : Deeper Parse) : Prop where
  expression : Parse.Alike Expr.shape d.expression d'.expression
  negated : Parse.Alike Expr.shape d.negated d'.negated
  signed : Parse.Alike Expr.shape d.signed d'.signed

section Levels

variable {env env' : Env} {d d' : Deeper Parse}

theorem alike_accept {checked checked' : Checked} (h : checked.Alike checked') :
    Parse.Alike Expr.shape (accept checked) (accept checked') :=
  (Alike.reportAll id h.errors).bind fun _ _ _ => .pure h.shape

/-- The height of a tree is one of its shape. -/
theorem alike_checkDepth {e e' : Expr} (h : e.shape = e'.shape) :
    Parse.Alike Expr.shape (checkDepth e) (checkDepth e') := by
  have hdepth : e.depth = e'.depth := by rw [← Expr.depth_shape, h, Expr.depth_shape]
  rw [checkDepth, checkDepth, hdepth, Expr.position_of_shape h]
  split
  · exact .refl _ _
  · exact .pure h

theorem alike_checked {p q : Parse Expr} (h : Parse.Alike Expr.shape p q) :
    Parse.Alike Expr.shape (do checkDepth (← p)) (do checkDepth (← q)) :=
  h.bind fun _ _ hshape => alike_checkDepth hshape

/-- An operator that joins operands of one shape to nodes of one shape. -/
def Joins (join : BinaryOp → Expr → Expr → Position → Checked) : Prop :=
  ∀ op {left left' right right' : Expr} p, left.shape = left'.shape → right.shape = right'.shape →
    (join op left right p).Alike (join op left' right' p)

theorem alike_chain {operand operand' : Parse Expr} (h : Parse.Alike Expr.shape operand operand')
    (operator? : Lexeme → Option BinaryOp) {join : BinaryOp → Expr → Expr → Position → Checked}
    (hjoin : Joins join) :
    Parse.Alike Expr.shape (chain operand operator? join) (chain operand' operator? join) := by
  have hloop (fuel : Nat) {left left' : Expr} (hleft : left.shape = left'.shape) :
      Parse.Alike Expr.shape (chainLoop operand operator? join fuel left)
        (chainLoop operand' operator? join fuel left') := by
    induction fuel generalizing left left' with
    | zero => exact .pure hleft
    | succ fuel ih =>
      refine .after _ fun p => .after _ fun l => ?_
      cases operator? l with
      | none => exact .pure hleft
      | some op =>
        exact .after _ fun _ => h.bind fun _ _ hright =>
          (alike_accept (hjoin op p hleft hright)).bind fun _ _ hjoined =>
            (alike_checkDepth hjoined).bind fun _ _ hnext => ih hnext
  exact h.bind fun _ _ hfirst => .after _ fun fuel => hloop fuel hfirst

theorem alike_argument (h : d.Alike d') :
    Parse.Alike Typing.RawArg.shape (argument d) (argument d') := by
  have hvalue (name : Option String) : Parse.Alike Typing.RawArg.shape
      (do return ⟨name, ← d.expression⟩) (do return ⟨name, ← d'.expression⟩) :=
    h.expression.map fun _ _ hshape => congrArg (Typing.RawArg.mk name) hshape
  refine .after _ fun second => ?_
  split
  · refine .after _ fun l => ?_
    split
    · exact .after _ fun _ => .after _ fun _ => hvalue _
    · exact .after _ fun _ => .after _ fun _ => hvalue _
    · exact hvalue none
  · exact hvalue none

theorem alike_call (h : d.Alike d') (name : String) :
    Parse.Alike Expr.shape (call env d name) (call env' d' name) :=
  .after _ fun p => .after _ fun _ => .after _ fun _ =>
    ((alike_argument h).separated _ _).bind fun _ _ hargs =>
      alike_accept (Typing.alike_call p _ _ _ _ name hargs)

theorem alike_entry (h : d.Alike d') :
    Parse.Alike (Prod.map id Expr.shape) (entry d) (entry d') := by
  have hvalue (key : String) : Parse.Alike (Prod.map id Expr.shape)
      (do return (key, ← d.expression)) (do return (key, ← d'.expression)) :=
    h.expression.map fun _ _ hshape => congrArg (key, ·) hshape
  refine .after _ fun l => ?_
  split
  · exact .after _ fun _ => .after _ fun _ => hvalue _
  · exact .after _ fun _ => .after _ fun _ => hvalue _
  · exact .after _ fun _ => .after _ fun _ => hvalue _
  · exact .refl _ _

theorem alike_named (h : d.Alike d') (name : String) :
    Parse.Alike Expr.shape (named env d name) (named env' d' name) := by
  refine .after _ fun p => ?_
  split
  · exact .refl _ _
  split
  · exact .refl _ _
  · refine .after _ fun second => ?_
    split
    · exact alike_call h name
    split
    · exact .refl _ _
    · exact .after _ fun _ => alike_accept (Typing.alike_variableIn p _ _ name)

theorem alike_primary (h : d.Alike d') :
    Parse.Alike Expr.shape (primary env d) (primary env' d') := by
  refine .after _ fun p => .after _ fun l => ?_
  cases l with
  | name name => exact alike_named h _
  | symbol s =>
    cases s with
    | leftParen =>
      exact .after _ fun _ => h.expression.bind fun e e' hinner => .after _ fun _ =>
        .pure (by rw [Expr.shape_moveTo, hinner, Expr.shape_moveTo])
    | leftBracket =>
      exact .after _ fun _ => (h.expression.separated _ _).map fun items items' hitems => by
        rw [Expr.shape, Expr.shape, Expr.shapeItems_eq, hitems, Expr.shapeItems_eq]
    | leftBrace =>
      refine .after _ fun _ =>
        ((alike_entry h).separated _ _).map fun entries entries' hentries => ?_
      have hshape (entries : List (String × Expr)) :
          Expr.shapeEntries true entries = entries.map (Prod.map id Expr.shape) :=
        Expr.shapeEntries_eq true entries
      rw [Expr.shape, Expr.shape, hshape, hentries, hshape]
    | _ => exact .refl _ _
  | _ => exact .refl _ _

theorem alike_postfixTail (h : d.Alike d') {object object' : Expr}
    (hobject : object.shape = object'.shape) :
    Parse.Alike Expr.shape (postfixTail d object) (postfixTail d' object') := by
  refine .after _ fun fuel => ?_
  induction fuel generalizing object object' with
  | zero => exact .pure hobject
  | succ fuel ih =>
    refine .after _ fun p => .after _ fun dot => ?_
    split
    · exact .after _ fun name => (alike_accept (Typing.alike_access p name hobject)).bind
        fun _ _ hfound => (alike_checkDepth hfound).bind fun _ _ hnext => ih hnext
    · refine .after _ fun bracket => ?_
      split
      · exact h.expression.bind fun _ _ hkey => .after _ fun _ =>
          (alike_accept (Typing.alike_index p hobject hkey)).bind
            fun _ _ hfound => (alike_checkDepth hfound).bind fun _ _ hnext => ih hnext
      · exact .pure hobject

theorem alike_signLevel (h : d.Alike d') :
    Parse.Alike Expr.shape (signLevel env d) (signLevel env' d') := by
  refine .after _ fun p => .after _ fun first => ?_
  split
  · exact (alike_primary h).bind fun _ _ hobject => alike_postfixTail h hobject
  · refine .after _ fun _ => .after _ fun l => ?_
    split
    · exact .after _ fun _ => alike_postfixTail h rfl
    · exact h.signed.bind fun _ _ hoperand => alike_accept (Typing.alike_signed p _ hoperand)

theorem alike_notLevel (h : d.Alike d') :
    Parse.Alike Expr.shape (notLevel env d) (notLevel env' d') := by
  refine .after _ fun p => .after _ fun found => ?_
  split
  · exact h.negated.bind fun _ _ hoperand => alike_accept (Typing.alike_negation p hoperand)
  · have hsign : Parse.Alike Expr.shape (signLevel env d) (signLevel env' d') := alike_signLevel h
    have hproduct := alike_chain hsign productOperator?
      fun op _ _ _ _ p => Typing.alike_arithmetic p op
    have hsum := alike_chain hproduct sumOperator? fun op _ _ _ _ p => Typing.alike_arithmetic p op
    have horder := alike_chain hsum orderOperator? fun op _ _ _ _ p => Typing.alike_comparison p op
    exact alike_chain horder equalityOperator? fun op _ _ _ _ p => Typing.alike_comparison p op

theorem alike_orLevel (h : d.Alike d') :
    Parse.Alike Expr.shape (orLevel env d) (orLevel env' d') := by
  have hnot : Parse.Alike Expr.shape (notLevel env d) (notLevel env' d') := alike_notLevel h
  have hand := alike_chain hnot andOperator? fun op _ _ _ _ _ => Typing.alike_logical op
  exact alike_chain hand orOperator? fun op _ _ _ _ _ => Typing.alike_logical op

end Levels

theorem alike_nested (env env' : Env) (room : Nat) :
    (nested env room).Alike (nested env' room) := by
  induction room with
  | zero => exact ⟨.refl _ _, .refl _ _, .refl _ _⟩
  | succ room ih =>
    exact ⟨alike_checked (alike_orLevel ih), alike_checked (alike_notLevel ih),
      alike_checked (alike_signLevel ih)⟩

/-- Expressions are of one shape in every environment. -/
theorem alike_expression (env env' : Env) :
    Parse.Alike Expr.shape (expression env) (expression env') :=
  (alike_nested env env' maxNesting).expression

section Declarations

variable (registry registry' : Registry)

theorem alike_condition (position : Position) :
    Parse.Alike Expr.shape (condition registry position) (condition registry' position) := by
  refine (alike_expression _ _).recover (.refl _ _) fun e e' hshape => ?_
  refine (Alike.reportAll id ?_).bind fun _ _ _ => .pure hshape
  rw [Typing.structural_checkBoolean, Typing.structural_checkBoolean]

/-- The scopes of the two runs may differ in the types of variables. -/
theorem alike_statementBody (scope scope' : Typing.Scope) :
    Parse.Alike (fun found => found.1.shape) (statementBody registry scope)
      (statementBody registry' scope') := by
  refine .after _ fun p => .after _ fun binds => ?_
  split
  · refine .after _ fun q => .after _ fun name => ?_
    have hvalue : Parse.Alike (fun found : Statement × Typing.Scope => found.1.shape)
        (do
          Parse.expect .assign "'='"
          let value ← expression ⟨registry, scope, false⟩
          return (.bind name value.type value p, scope.insert name value.type))
        (do
          Parse.expect .assign "'='"
          let value ← expression ⟨registry', scope', false⟩
          return (.bind name value.type value p, scope'.insert name value.type)) :=
      .after _ fun _ => (alike_expression _ _).map fun _ _ hshape =>
        congrArg (Statement.bind name .any · p) hshape
    split
    · exact .after _ fun _ => hvalue
    · exact hvalue
  · refine (alike_expression _ _).bind fun e e' hshape => ?_
    have hcall : e.isCall = e'.isCall := by rw [← Expr.isCall_shape, hshape, Expr.isCall_shape]
    have hperform : (Statement.perform e).shape = (Statement.perform e').shape :=
      congrArg Statement.perform hshape
    rw [hcall, Expr.position_of_shape hshape]
    split
    · exact .after _ fun _ => .pure hperform
    · exact .pure hperform

theorem alike_statements (fuel : Nat) (scope scope' : Typing.Scope) :
    Parse.Alike (List.map Statement.shape) (statements registry fuel scope)
      (statements registry' fuel scope') := by
  induction fuel generalizing scope scope' with
  | zero => exact .refl _ _
  | succ fuel ih =>
    refine .after _ fun next => ?_
    split
    · exact .refl _ _
    refine .after _ fun ending => ?_
    split
    · exact .refl _ _
    refine .after _ fun another => ?_
    split
    · exact .refl _ _
    refine (alike_statementBody registry registry' scope scope').recover
      (.after _ fun _ => ih scope scope') fun (_, scope) (_, scope') hshape => ?_
    refine .after _ fun ended => ?_
    split
    · exact .after _ fun _ => ih scope scope'
    · exact (ih scope scope').map fun _ _ hrest => by
        rw [List.map_cons, List.map_cons, hrest, hshape]

theorem alike_rule : Parse.Alike Rule.shape (rule registry) (rule registry') :=
  .after _ fun position => .after _ fun _ => .after _ fun name => .after _ fun _ =>
    (alike_condition registry registry' position).bind fun _ _ hcondition => .after _ fun _ =>
      .after _ fun fuel => (alike_statements registry registry' fuel [] []).bind
        fun _ _ hstatements => .after _ fun _ =>
          .pure (by rw [Rule.shape, Rule.shape, hcondition, hstatements])

theorem alike_declaration :
    Parse.Alike Declaration.shape (declaration registry) (declaration registry') := by
  refine .after _ fun starts => ?_
  split
  · exact (alike_rule registry registry').map fun _ _ hshape => congrArg Declaration.rule hshape
  · exact .refl _ _

theorem alike_declarations (fuel : Nat) :
    Parse.Alike (List.map Declaration.shape) (declarations registry fuel)
      (declarations registry' fuel) := by
  induction fuel with
  | zero => exact .refl _ _
  | succ fuel ih =>
    refine .after _ fun next => ?_
    split
    · exact .refl _ _
    exact (alike_declaration registry registry').recover (.after _ fun _ => ih)
      fun _ _ hshape => ih.map fun _ _ hrest => by rw [List.map_cons, List.map_cons, hrest, hshape]

end Declarations

end Grammar

theorem ParsedSource.map_declarations_eq {α : Type} {first second : ParsedSource}
    {view : Declaration → α}
    (h : first.declarations.map Declaration.shape = second.declarations.map Declaration.shape)
    (hview : ∀ d, view d.shape = view d) :
    first.declarations.map view = second.declarations.map view := by
  have hshape (s : ParsedSource) :
      s.declarations.map view = (s.declarations.map Declaration.shape).map view := by
    rw [List.map_map]
    exact List.map_congr_left fun d _ => (hview d).symm
  rw [hshape, h, ← hshape]

/-- The rules of a source, in order, as far as a view tells that looks at shapes only. -/
theorem ParsedSource.map_rules_eq {α : Type} {first second : ParsedSource} {view : Rule → α}
    (h : first.declarations.map Declaration.shape = second.declarations.map Declaration.shape)
    (hview : ∀ r, view r.shape = view r) : first.rules.map view = second.rules.map view := by
  have hrules : first.declarations.map (fun d => d.rule?.map view) =
      second.declarations.map (fun d => d.rule?.map view) := by
    refine map_declarations_eq h fun d => ?_
    rw [Declaration.rule?_shape, Option.map_map]
    exact congrArg (Option.map · d.rule?) (funext hview)
  have hmap (s : ParsedSource) :
      s.rules.map view = (s.declarations.map fun d => d.rule?.map view).filterMap id := by
    rw [rules, List.map_filterMap, List.filterMap_map]
    rfl
  rw [hmap, hrules, ← hmap]

/-- What a source declares, by shape, by name and text and by the fingerprints of its rules, and
what is wrong with its structure: nothing of it depends on the functions that are registered. -/
theorem parseSource_independent (source : String) (registry registry' : Registry) :
    (parseSource source registry).declarations.map Declaration.shape =
        (parseSource source registry').declarations.map Declaration.shape ∧
      (parseSource source registry).declarations.map (fun d => (d.name, d.text)) =
        (parseSource source registry').declarations.map (fun d => (d.name, d.text)) ∧
      (parseSource source registry).rules.map Rule.fingerprint =
        (parseSource source registry').rules.map Rule.fingerprint ∧
      ∀ d : Diagnostic, d.isStructural →
        (d ∈ (parseSource source registry).errors ↔ d ∈ (parseSource source registry').errors) := by
  have hseen := Grammar.alike_declarations registry registry' (tokenize source).1.length
    (tokenize source).1
  simp only [Parse.seen, Reply.mk.injEq] at hseen
  obtain ⟨herrors, -, hresult⟩ := hseen
  have hshape : (parseSource source registry).declarations.map Declaration.shape =
      (parseSource source registry').declarations.map Declaration.shape := by
    have hgetD (found : Option (List Declaration)) : (found.getD []).map Declaration.shape =
        (found.map (List.map Declaration.shape)).getD [] := by cases found <;> rfl
    simp only [parseSource, Parse.run, hgetD, hresult]
  refine ⟨hshape, ParsedSource.map_declarations_eq hshape fun d => ?_,
    ParsedSource.map_rules_eq hshape Rule.fingerprint_shape, fun d hd => ?_⟩
  · rw [Declaration.name_shape, Declaration.text_shape]
  · have hmem (errors : List Diagnostic) : d ∈ errors ↔ d ∈ structural errors := by
      rw [structural, List.mem_filter, and_iff_left hd]
    simp only [parseSource, Parse.run, Diagnostic.mem_arrange, List.mem_append]
    rw [hmem (Grammar.declarations registry _ _).errors, herrors, ← hmem]

end LogRules
