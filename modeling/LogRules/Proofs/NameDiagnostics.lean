import LogRules.Proofs.AccountedExpressions
import LogRules.Proofs.CleanSources
import LogRules.Proofs.DeclaredPlaces
import LogRules.Proofs.OrderedDiagnostics

/-!
Diagnostics of unknown names are exact. As long as parsing is not broken off, there is one for each
node of the declarations that uses a name nothing declares, and no other.
-/
namespace LogRules

namespace Statement

/-- How many nodes of statements have this wrong with their names, behind what `scope` holds. -/
def unknowns (problem : Problem) : Typing.Scope → List Statement → Nat
  | _, [] => 0
  | scope, s :: rest =>
    s.expression.unknowns scope problem + unknowns problem (s.scopeAfter scope) rest

end Statement

/-- How many nodes of a rule have this wrong with their names. -/
def Rule.unknowns (problem : Problem) (r : Rule) : Nat :=
  r.condition.unknowns [] problem + Statement.unknowns problem [] r.statements

def Declaration.unknowns (problem : Problem) : Declaration → Nat
  | rule r => r.unknowns problem
  | pipeline _ => 0

namespace Grammar

open Parse

section Pipelines

variable {problem : Problem}

theorem silent_statementEnd : Silent problem statementEnd fun _ => True := by
  refine (silent_eatIf _).bind fun _ _ => ?_
  split
  · exact accounts_pure ⟨trivial, rfl⟩
  · refine (silent_atKeyword _).bind fun _ _ => ?_
    split
    exacts [accounts_pure ⟨trivial, rfl⟩, accounts_unexpected _]

theorem silent_atDeclaration : Silent problem atDeclaration fun _ => True :=
  fun _ _ _ => ⟨_, [], rfl, rfl, le_rfl, trivial, rfl⟩

theorem silent_stageRefs (fuel : Nat) : Silent problem (stageRefs fuel) fun _ => True := by
  induction fuel with
  | zero => exact accounts_pure ⟨trivial, rfl⟩
  | succ fuel ih =>
    refine (silent_eatIf _).bind fun _ _ => ?_
    split
    · exact (silent_expectString _).bind fun _ _ => (silent_eatIf _).bind fun _ _ =>
        ih.bind fun _ _ => accounts_pure ⟨trivial, rfl⟩
    · exact accounts_pure ⟨trivial, rfl⟩

theorem silent_matchPolicy : Silent problem matchPolicy fun _ => True := by
  have hnext {policy : MatchPolicy} {other : Parse MatchPolicy} {word : String}
      (h : Silent problem other fun _ => True) : Silent problem (do
        if ← eatKeyword word then return policy
        else other) fun _ => True := by
    refine (silent_eatIf _).bind fun _ _ => ?_
    split
    exacts [accounts_pure ⟨trivial, rfl⟩, h]
  exact hnext (hnext (hnext (hnext (accounts_unexpected _))))

theorem silent_stageNumber (p : Position) : Silent problem (stageNumber p) fun _ => True := by
  have hrange (number : Int) : Silent problem (do
      if leastStage ≤ number ∧ number ≤ greatestStage then return number
      else
        report p (.syntactic s!"stage number {number} out of range")
        return 0) fun _ => True := by
    split
    exacts [accounts_pure ⟨trivial, rfl⟩, accounts_refusal _ _]
  refine (silent_eatIf _).bind fun negative _ => accounts_peek fun l => ?_
  split
  · refine silent_advance.bind fun _ _ => ?_
    split
    exacts [hrange _, hrange _]
  · exact accounts_unexpected _

theorem silent_stage : Silent problem stage fun _ => True :=
  accounts_here fun p => (silent_expectKeyword _).bind fun _ _ =>
    (silent_stageNumber p).bind fun _ _ => (silent_expectKeyword _).bind fun _ _ =>
      silent_matchPolicy.bind fun _ _ => accounts_remaining fun fuel =>
        (silent_stageRefs fuel).bind fun _ _ => accounts_pure ⟨trivial, rfl⟩

theorem silent_stages (fuel : Nat) : Silent problem (stages fuel) fun _ => True := by
  induction fuel with
  | zero => exact accounts_pure ⟨trivial, rfl⟩
  | succ fuel ih =>
    refine (silent_atKeyword _).bind fun _ _ => ?_
    split
    · exact silent_stage.bind fun _ _ => ih.bind fun _ _ => accounts_pure ⟨trivial, rfl⟩
    · exact accounts_pure ⟨trivial, rfl⟩

theorem namesKnown_stageErrors (name : String) (found : List Stage) :
    NamesKnown (stageErrors name found) := by
  induction found with
  | nil => exact .nil
  | cons a rest ih =>
    cases rest with
    | nil => exact .nil
    | cons b more =>
      refine .append ?_ ih
      split_ifs
      exacts [.fault _ rfl, .fault _ rfl, .nil]

theorem silent_pipeline (hproblem : problem.isUnknownName = true) :
    Silent problem pipeline fun _ => True := by
  have hrest {F : List Token → Prop} (name : String) (found : List Stage) (p : Position) :
      Accounts problem 0 F (do
        reportAll (stageErrors name found)
        return ⟨name, found, p⟩ : Parse Pipeline) fun _ n => True ∧ n = 0 :=
    (silent_reportAll ((namesKnown_stageErrors name found).sites hproblem)).bind
      fun _ _ => accounts_pure ⟨trivial, rfl⟩
  refine accounts_here fun p => (silent_expectKeyword _).bind fun _ _ =>
    (silent_expectString _).bind fun name _ => accounts_remaining fun fuel =>
      (silent_stages fuel).bind fun found _ => (silent_expectKeyword _).bind fun _ _ => ?_
  split
  · exact (silent_reportAll ((NamesKnown.fault p rfl).sites hproblem)).bind fun _ _ => hrest _ _ p
  · exact hrest _ _ p

end Pipelines

section Rules

variable {problem : Problem} (hproblem : problem.isUnknownName = true) (registry : Registry)

include hproblem

/-- In a condition no variable is in scope. -/
theorem tells_condition (p : Position) :
    Tells problem [] (fun _ => True) (condition registry p) := by
  refine (tells_expression hproblem ⟨registry, [], true⟩).attempt.bind ?_
  rintro _ _ ⟨e, rfl, rfl⟩
  exact (silent_reportAll ((Typing.namesKnown_checkBoolean e).sites hproblem)).bind
    fun _ _ => accounts_pure rfl

/-- The value of a statement is parsed before what the statement binds is in scope. -/
theorem accounts_statementBody (scope : Typing.Scope) :
    Accounts problem 0 (fun _ => True) (statementBody registry scope) fun found n =>
      n = found.1.expression.unknowns scope problem ∧ found.2 = found.1.scopeAfter scope := by
  have hexpression : Tells problem scope (fun _ => True) (expression ⟨registry, scope, false⟩) :=
    tells_expression hproblem ⟨registry, scope, false⟩
  refine accounts_here fun p => (silent_eatIf _).bind fun isLet _ => ?_
  split
  · refine accounts_here fun q => (silent_expectName _).bind fun name _ => ?_
    split
    · exact accounts_refusal _ _
    · exact (silent_expect _ _).bind fun _ _ => hexpression.map fun e n hn => ⟨hn, rfl⟩
  · refine hexpression.bind ?_
    rintro e _ rfl
    split
    · exact accounts_refusal _ _
    · exact accounts_pure ⟨rfl, rfl⟩

theorem accounts_statements (fuel : Nat) (scope : Typing.Scope) :
    Accounts problem 0 (fun _ => True) (statements registry fuel scope) fun found n =>
      n = Statement.unknowns problem scope found := by
  induction fuel generalizing scope with
  | zero => exact accounts_pure rfl
  | succ fuel ih =>
    refine accounts_peek fun first => ?_
    split
    · exact accounts_pure rfl
    · refine (silent_atKeyword _).bind fun _ _ => ?_
      split
      · exact accounts_pure rfl
      · refine silent_atDeclaration.bind fun _ _ => ?_
        split
        · exact accounts_pure rfl
        · refine (accounts_statementBody hproblem registry scope).attempt.bind ?_
          rintro _ _ ⟨⟨s, next⟩, rfl, rfl, hnext⟩
          obtain rfl : next = s.scopeAfter scope := hnext
          refine silent_statementEnd.attempt.bind ?_
          rintro _ ⟨⟨⟩, rfl, -⟩
          refine (ih _).map ?_
          rintro rest _ rfl
          rfl

theorem accounts_rule : Accounts problem 0 (fun _ => True) (rule registry) fun r n =>
    n = r.unknowns problem := by
  refine accounts_here fun p => (silent_expectKeyword _).bind fun _ _ =>
    (silent_expectString _).bind fun name _ => (silent_expectKeyword _).bind fun _ _ =>
      (tells_condition hproblem registry p).bind ?_
  rintro condition _ rfl
  refine (silent_expectKeyword _).bind fun _ _ => accounts_remaining fun fuel =>
    (accounts_statements hproblem registry fuel []).bind ?_
  rintro statements _ rfl
  exact (silent_expectKeyword _).bind fun _ _ => accounts_pure rfl

theorem accounts_declaration : Accounts problem 0 (fun _ => True) (declaration registry)
    fun d n => n = d.unknowns problem := by
  refine (silent_atKeyword _).bind fun _ _ => ?_
  split
  · exact (accounts_rule hproblem registry).map fun r n hn => hn
  · refine (silent_atKeyword _).bind fun _ _ => ?_
    split
    · exact (silent_pipeline hproblem).map fun p n hn => hn.2
    · exact accounts_peek fun l => accounts_here fun p => accounts_refusal _ _

theorem accounts_declarations (fuel : Nat) :
    Accounts problem 0 (fun _ => True) (declarations registry fuel) fun found n =>
      n = (found.map (Declaration.unknowns problem)).sum := by
  induction fuel with
  | zero => exact accounts_pure rfl
  | succ fuel ih =>
    refine accounts_peek fun first => ?_
    split
    · exact accounts_pure rfl
    · refine (accounts_declaration hproblem registry).attempt.anywhere.bind ?_
      rintro _ _ ⟨d, rfl, rfl⟩
      refine ih.map ?_
      rintro rest _ rfl
      rw [List.map_cons, List.sum_cons]

end Rules

end Grammar

namespace ParsedSource

variable {source : String} {registry : Registry}

theorem sum_unknowns (parsed : ParsedSource) (problem : Problem) :
    (parsed.declarations.map (Declaration.unknowns problem)).sum =
      (parsed.rules.map (Rule.unknowns problem)).sum := by
  rw [rules]
  induction parsed.declarations with
  | nil => rfl
  | cons d rest ih =>
    cases d with
    | rule r => exact congrArg (r.unknowns problem + ·) ih
    | pipeline p => exact (Nat.zero_add _).trans ih

/-- An unknown name is reported once for each node that has it. The diagnostics stand at different
tokens, so none of them is dropped when they are arranged. -/
theorem countP_unknowns (h : Unbroken (parseSource source registry).errors) {problem : Problem}
    (hproblem : problem.isUnknownName = true) :
    (parseSource source registry).errors.countP (·.problem = problem) =
      ((parseSource source registry).rules.map (Rule.unknowns problem)).sum := by
  have hunbroken : Unbroken
      (Grammar.declarations registry (tokenize source).1.length (tokenize source).1).errors :=
    fun d hd => h d (Diagnostic.mem_arrange.mpr (List.mem_append_right _ hd))
  obtain ⟨found, used, hfound, hused, hsites, hcount⟩ :=
    Grammar.accounts_declarations hproblem registry _ (tokenize source).1 trivial hunbroken
  have hdeclarations : (parseSource source registry).declarations = found := by
    simp only [parseSource, Parse.run, hfound, Option.getD_some]
  have hscan : problem.sites (tokenize source).2 = 0 :=
    (syntactic_tokenize source).namesKnown.sites hproblem
  have hplaces : (Parse.places used).Nodup := by
    have hascend := pairwise_tokenize source
    rw [hused] at hascend
    refine Multiset.coe_nodup.mpr (List.pairwise_map.mpr ?_)
    exact (List.pairwise_append.mp hascend).1.imp Position.Before.ne
  have hdistinct : (problem.sites ((tokenize source).2 ++ (Grammar.declarations registry
      (tokenize source).1.length (tokenize source).1).errors)).Nodup := by
    rw [Problem.sites_append, hscan, zero_add]
    rw [zero_add] at hsites
    exact Multiset.nodup_of_le hsites hplaces
  have harranged := Diagnostic.countP_arrange (Multiset.coe_nodup.mp hdistinct).of_map
  rw [← sum_unknowns, hdeclarations, ← hcount]
  refine harranged.trans ?_
  rw [← Problem.card_sites, Problem.sites_append, hscan, zero_add]

end ParsedSource

namespace Expr

variable {scope : Typing.Scope} {name : String}

/-- Whether a node calls a function of this name that the registry does not know. -/
def isUnresolvedCall (name : String) : Expr → Bool
  | call _ called _ _ _ resolved => called == name && !resolved
  | _ => false

def isVariable (name : String) : Expr → Bool
  | var _ used => used == name
  | _ => false

theorem unknownName?_eq_function (n : Expr) :
    n.unknownName? scope = some (.undeclaredFunction name) ↔ n.isUnresolvedCall name = true := by
  cases n with
  | call _ called _ _ _ resolved => cases resolved <;> simp [unknownName?, isUnresolvedCall]
  | _ => simp [unknownName?, isUnresolvedCall]

theorem unknownName?_eq_variable (n : Expr) :
    n.unknownName? scope = some (.undeclaredVariable name) ↔
      n.isVariable name = true ∧ (scope.find? name).isSome = false := by
  cases n with
  | var _ used =>
    by_cases hname : used = name
    · subst hname
      simp [unknownName?, isVariable]
    · simp [unknownName?, isVariable, hname]
  | call _ _ _ _ _ resolved => cases resolved <;> simp [unknownName?, isVariable]
  | _ => simp [unknownName?, isVariable]

theorem unknowns_undeclaredFunction (e : Expr) : e.unknowns scope (.undeclaredFunction name) =
    e.nodes.countP (isUnresolvedCall name) := by
  simp only [unknowns, unknownName?_eq_function, Bool.decide_eq_true]

theorem unknowns_undeclaredVariable (e : Expr) : e.unknowns scope (.undeclaredVariable name) =
    if (scope.find? name).isSome then 0 else e.nodes.countP (isVariable name) := by
  simp only [unknowns, unknownName?_eq_variable]
  cases (scope.find? name).isSome <;> simp

end Expr

namespace Statement

variable {name : String}

def binds (name : String) : Statement → Bool
  | perform _ => false
  | bind bound _ _ _ => bound == name

/-- The statements with no earlier one that binds a name: those up to the first that does. -/
def untilBound (name : String) : List Statement → List Statement
  | [] => []
  | s :: rest => s :: if s.binds name then [] else untilBound name rest

theorem unknowns_undeclaredFunction (scope : Typing.Scope) (statements : List Statement) :
    unknowns (.undeclaredFunction name) scope statements =
      ((statements.map expression).flatMap Expr.nodes).countP (Expr.isUnresolvedCall name) := by
  induction statements generalizing scope with
  | nil => rfl
  | cons s rest ih =>
    rw [unknowns, ih, Expr.unknowns_undeclaredFunction, List.map_cons, List.flatMap_cons,
      List.countP_append]

theorem find?_scopeAfter (scope : Typing.Scope) (s : Statement) :
    ((s.scopeAfter scope).find? name).isSome = (s.binds name || (scope.find? name).isSome) := by
  cases s with
  | perform e => rfl
  | bind bound type value p =>
    rw [scopeAfter, Entries.find?_insert, binds]
    split
    · next h => simp [h]
    · next h => simp [h]

/-- A variable that is in scope is known in all statements, another one from behind the first
statement that binds it. -/
theorem unknowns_undeclaredVariable (scope : Typing.Scope) (statements : List Statement) :
    unknowns (.undeclaredVariable name) scope statements =
      if (scope.find? name).isSome then 0 else
        (((untilBound name statements).map expression).flatMap Expr.nodes).countP
          (Expr.isVariable name) := by
  induction statements generalizing scope with
  | nil => split <;> rfl
  | cons s rest ih =>
    rw [unknowns, ih, Expr.unknowns_undeclaredVariable, find?_scopeAfter, untilBound]
    cases (scope.find? name).isSome <;> cases s.binds name <;> simp

end Statement

namespace Rule

variable {name : String}

/-- The expressions of a rule where a name is not bound: the condition, and those of statements up
to the first that binds it. The value of that one stands before the binding, too. -/
def unboundExpressions (name : String) (r : Rule) : List Expr :=
  r.condition :: (Statement.untilBound name r.statements).map Statement.expression

theorem unknowns_undeclaredFunction (r : Rule) : r.unknowns (.undeclaredFunction name) =
    (r.expressions.flatMap Expr.nodes).countP (Expr.isUnresolvedCall name) := by
  rw [unknowns, Expr.unknowns_undeclaredFunction, Statement.unknowns_undeclaredFunction,
    expressions, List.flatMap_cons, List.countP_append]

theorem unknowns_undeclaredVariable (r : Rule) : r.unknowns (.undeclaredVariable name) =
    ((r.unboundExpressions name).flatMap Expr.nodes).countP (Expr.isVariable name) := by
  rw [unknowns, Expr.unknowns_undeclaredVariable, Statement.unknowns_undeclaredVariable,
    unboundExpressions, List.flatMap_cons, List.countP_append]
  rfl

end Rule

/-- Diagnostics of unknown names are exact. Unless a source has an error of syntax or nests too
deep, each name is reported as an unknown function once for every unresolved call of it, and as an
unknown variable once for every use of it in a condition, or in a statement with no earlier one in
the rule that binds it. -/
theorem unknown_names_exact {source : String} {registry : Registry}
    (h : ∀ d ∈ (parseSource source registry).errors, d.problem.breaksOff = false) (name : String) :
    let parsed := parseSource source registry
    parsed.errors.countP (·.problem = .undeclaredFunction name) =
        ((parsed.rules.flatMap Rule.expressions).flatMap Expr.nodes).countP
          (Expr.isUnresolvedCall name) ∧
      parsed.errors.countP (·.problem = .undeclaredVariable name) =
        ((parsed.rules.flatMap (Rule.unboundExpressions name)).flatMap Expr.nodes).countP
          (Expr.isVariable name) := by
  refine ⟨?_, ?_⟩
  · rw [ParsedSource.countP_unknowns h rfl, List.flatMap_assoc, List.countP_flatMap]
    exact congrArg List.sum (List.map_congr_left fun r _ => r.unknowns_undeclaredFunction)
  · rw [ParsedSource.countP_unknowns h rfl, List.flatMap_assoc, List.countP_flatMap]
    exact congrArg List.sum (List.map_congr_left fun r _ => r.unknowns_undeclaredVariable)

/-- Unknown functions, one inside the other, and a variable that stands in the value it is bound to
and in a rule that does not bind it. -/
def lostNames : String :=
  "rule \"a\" when lost(x) == lost(lost(x)) then let x = x + lost(1); set_field(\"y\", x); end " ++
    "rule \"b\" when true then set_field(\"y\", (x)); end"

theorem unknown_names_exact_lostNames :
    let parsed := parseSource lostNames (.builtin 0)
    (∀ d ∈ parsed.errors, d.problem.breaksOff = false) ∧ parsed.rules.length = 2 ∧
      parsed.errors.countP (·.problem = .undeclaredFunction "lost") = 4 ∧
      parsed.errors.countP (·.problem = .undeclaredVariable "x") = 4 := by
  have hparsed : (∀ d ∈ (parseSource lostNames (.builtin 0)).errors, d.problem.breaksOff = false) ∧
      (parseSource lostNames (.builtin 0)).rules.length = 2 ∧
      (((parseSource lostNames (.builtin 0)).rules.flatMap Rule.expressions).flatMap
        Expr.nodes).countP (Expr.isUnresolvedCall "lost") = 4 ∧
      (((parseSource lostNames (.builtin 0)).rules.flatMap (Rule.unboundExpressions "x")).flatMap
        Expr.nodes).countP (Expr.isVariable "x") = 4 := by
    decide +kernel
  obtain ⟨hunbroken, hrules, hcalls, huses⟩ := hparsed
  exact ⟨hunbroken, hrules, (unknown_names_exact hunbroken "lost").1.trans hcalls,
    (unknown_names_exact hunbroken "x").2.trans huses⟩

end LogRules
