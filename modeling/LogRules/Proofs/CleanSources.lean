import LogRules.Proofs.CleanParsing

/-!
The rules of a source without errors. Each of their expressions is accepted where it stands: the
condition without variables, the expression of a statement with those bound before it.
-/
namespace LogRules

/-- Where an expression stands in a rule, with the variables in scope. -/
inductive Place
  | condition
  | value (scope : Typing.Scope)
  /-- A statement of its own. -/
  | call (scope : Typing.Scope)

namespace Place

/-- What an expression is parsed against where it stands. -/
def env (registry : Registry) : Place → Grammar.Env
  | condition => ⟨registry, [], true⟩
  | value scope | call scope => ⟨registry, scope, false⟩

/-- What parsing asks of an expression where it stands. -/
structure Takes (callable : String → Prop) (registry : Registry) (place : Place) (e : Expr) :
    Prop where
  accepted : Grammar.Clean callable (place.env registry) e
  depth_le : e.depth ≤ maxNesting
  boolean : place = condition → Typing.checkBoolean e = []
  isCall : ∀ scope, place = call scope → e.isCall

/-- What reading a text back needs of the expression that it was made from. -/
abbrev Admits : Registry → Place → Expr → Prop := Takes (isReserved · = false)

end Place

namespace Statement

/-- The variables in scope behind a statement. -/
def scopeAfter (scope : Typing.Scope) : Statement → Typing.Scope
  | perform _ => scope
  | bind name type _ _ => scope.insert name type

/-- Where the expression of a statement stands. -/
def place (scope : Typing.Scope) : Statement → Place
  | perform _ => .call scope
  | bind _ _ _ _ => .value scope

/-- A statement that parsing builds when it finds nothing wrong. -/
structure Clean (callable : String → Prop) (registry : Registry) (scope : Typing.Scope)
    (s : Statement) : Prop where
  admits : (s.place scope).Takes callable registry s.expression
  binds : ∀ name type value p, s = bind name type value p →
    type = value.type ∧ OnOneLine name ∧ isReserved name = false

/-- Statements that parsing builds one behind the other. -/
def AllClean (callable : String → Prop) (registry : Registry) :
    Typing.Scope → List Statement → Prop
  | _, [] => True
  | scope, s :: rest =>
    s.Clean callable registry scope ∧ AllClean callable registry (s.scopeAfter scope) rest

/-- A statement that can be read back from its text. -/
abbrev Accepted : Registry → Typing.Scope → Statement → Prop := Clean (isReserved · = false)

abbrev AllAccepted : Registry → Typing.Scope → List Statement → Prop :=
  AllClean (isReserved · = false)

/-- The expressions of statements, each with its place. -/
def parts : Typing.Scope → List Statement → List (Place × Expr)
  | _, [] => []
  | scope, s :: rest => (s.place scope, s.expression) :: parts (s.scopeAfter scope) rest

theorem AllClean.parts {callable : String → Prop} {registry : Registry} {scope : Typing.Scope}
    {statements : List Statement} (h : AllClean callable registry scope statements) :
    ∀ part ∈ parts scope statements, part.1.Takes callable registry part.2 := by
  induction statements generalizing scope with
  | nil => simp [Statement.parts]
  | cons s rest ih =>
    intro part hpart
    cases hpart with
    | head => exact h.1.admits
    | tail _ hpart => exact ih h.2 part hpart

theorem map_snd_parts (scope : Typing.Scope) (statements : List Statement) :
    (parts scope statements).map Prod.snd = statements.map expression := by
  induction statements generalizing scope with
  | nil => rfl
  | cons s rest ih => rw [parts, List.map_cons, List.map_cons, ih]

end Statement

namespace Rule

/-- A rule that parsing builds when it finds nothing wrong. -/
structure Clean (callable : String → Prop) (registry : Registry) (r : Rule) : Prop where
  condition : Place.condition.Takes callable registry r.condition
  statements : Statement.AllClean callable registry [] r.statements

/-- A rule that can be read back from its text. -/
abbrev Accepted : Registry → Rule → Prop := Clean (isReserved · = false)

/-- The expressions of a rule, each with its place. -/
def parts (r : Rule) : List (Place × Expr) :=
  (.condition, r.condition) :: Statement.parts [] r.statements

theorem Clean.parts {callable : String → Prop} {registry : Registry} {r : Rule}
    (h : r.Clean callable registry) : ∀ part ∈ r.parts, part.1.Takes callable registry part.2 := by
  intro part hpart
  cases hpart with
  | head => exact h.condition
  | tail _ hpart => exact h.statements.parts part hpart

theorem map_snd_parts (r : Rule) : r.parts.map Prod.snd = r.expressions := by
  rw [parts, expressions, List.map_cons, Statement.map_snd_parts]

theorem Clean.resolvedIn {callable : String → Prop} {registry : Registry} {r : Rule}
    (h : r.Clean callable registry) :
    ∀ e ∈ r.expressions, e.ResolvedIn registry := by
  intro e he
  rw [← r.map_snd_parts] at he
  obtain ⟨⟨place, e⟩, hpart, rfl⟩ := List.mem_map.mp he
  have hresolved := (h.parts _ hpart).accepted.resolvedIn
  cases place <;> exact hresolved

end Rule

/-- Numbers that a stage can have. -/
def IsStageNumber (number : Int) : Prop :=
  Grammar.leastStage ≤ number ∧ number ≤ Grammar.greatestStage

instance (number : Int) : Decidable (IsStageNumber number) :=
  inferInstanceAs (Decidable (_ ∧ _))

/-- A pipeline that parsing builds when it finds nothing wrong. -/
structure Pipeline.Formed (p : Pipeline) : Prop where
  numbers : ∀ s ∈ p.stages, IsStageNumber s.number
  ne_nil : p.stages ≠ []
  contiguous : Grammar.stageErrors p.name p.stages = []

/-- A declaration that parsing builds when it finds nothing wrong. -/
def Declaration.Clean (callable : String → Prop) (registry : Registry) : Declaration → Prop
  | rule r => r.Clean callable registry
  | pipeline p => p.Formed

namespace Parse

theorem Ensures.attempt {α : Type} {p : Parse α} {Q : α → Prop} (hp : Ensures p Q) :
    Ensures (attempt p) fun found => ∃ a, found = some a ∧ Q a := by
  intro tokens hfound hclean
  obtain ⟨hrest, a, ha, hQ⟩ := hp tokens hfound hclean
  exact ⟨hrest, some a, congrArg some ha, a, rfl, hQ⟩

theorem ensures_atKeyword (word : String) : Ensures (atKeyword word) fun _ => True :=
  (ensures_peek 0).bind fun _ _ => ensures_pure trivial

end Parse

namespace Grammar

open Parse

section Rules

variable {callable : String → Prop} {registry : Registry}

theorem ensures_condition (hnames : registry.Names callable) (p : Position) :
    Ensures (condition registry p) (Place.condition.Takes callable registry) := by
  have hexpression : Ensures (expression ⟨registry, [], true⟩) _ := ensures_expression hnames
  refine hexpression.attempt.bind fun found hfound => ?_
  obtain ⟨e, rfl, he⟩ := hfound
  refine (ensures_reportAll _).bind fun _ hboolean =>
    ensures_pure ⟨he.1, he.2, fun _ => hboolean, ?_⟩
  intro scope hplace
  cases hplace

/-- A statement is accepted, and the scope behind it is the one it leaves. -/
theorem ensures_statementBody (hnames : registry.Names callable) (scope : Typing.Scope) :
    Ensures (statementBody registry scope) fun found =>
      found.1.Clean callable registry scope ∧ found.2 = found.1.scopeAfter scope := by
  have hexpression : Ensures (expression ⟨registry, scope, false⟩) _ := ensures_expression hnames
  refine ensures_here.bind fun p _ => (ensures_eatIf _).bind fun isLet _ => ?_
  split
  · refine ensures_here.bind fun q _ => (ensures_expectName _).bind fun name hname => ?_
    have hvalue (hname' : isReserved name = false) : Ensures (do
        expect .assign "'='"
        let value ← expression ⟨registry, scope, false⟩
        return (.bind name value.type value p, scope.insert name value.type))
        fun found : Statement × Typing.Scope =>
          found.1.Clean callable registry scope ∧ found.2 = found.1.scopeAfter scope := by
      refine (ensures_expect _ _).bind fun _ _ => hexpression.bind fun e he => ensures_pure ?_
      refine ⟨⟨⟨he.1, he.2, ?_, ?_⟩, ?_⟩, rfl⟩
      · intro hplace
        cases hplace
      · intro _ hplace
        cases hplace
      · rintro _ _ _ _ ⟨⟩
        exact ⟨rfl, hname, hname'⟩
    split
    · exact (ensures_reportAll _).bind fun _ h => by cases h
    · next hfreeName => exact hvalue (by simpa using hfreeName)
  · refine hexpression.bind fun e he => ?_
    split
    · exact (ensures_reportAll _).bind fun _ h => by cases h
    · next hstatement =>
      have hcall : e.isCall := by simpa using hstatement
      refine ensures_pure ⟨⟨⟨he.1, he.2, ?_, fun _ _ => hcall⟩, ?_⟩, rfl⟩
      · intro hplace
        cases hplace
      · intro _ _ _ _ h
        cases h

theorem ensures_statementEnd : Ensures statementEnd fun _ => True := by
  refine (ensures_eatIf _).bind fun _ _ => ?_
  split
  · exact ensures_pure trivial
  · refine (ensures_atKeyword _).bind fun _ _ => ?_
    split
    · exact ensures_pure trivial
    · exact ensures_unexpected _

theorem ensures_atDeclaration : Ensures atDeclaration fun _ => True :=
  fun _ hfound _ => ⟨hfound, _, rfl, trivial⟩

theorem ensures_statements (hnames : registry.Names callable) (fuel : Nat) (scope : Typing.Scope) :
    Ensures (statements registry fuel scope) (Statement.AllClean callable registry scope) := by
  induction fuel generalizing scope with
  | zero => exact ensures_pure trivial
  | succ fuel ih =>
    refine (ensures_peek 0).bind fun first _ => ?_
    split
    · exact ensures_pure trivial
    · refine (ensures_atKeyword _).bind fun _ _ => ?_
      split
      · exact ensures_pure trivial
      · refine ensures_atDeclaration.bind fun _ _ => ?_
        split
        · exact ensures_pure trivial
        · refine (ensures_statementBody hnames scope).attempt.bind fun found hfound => ?_
          obtain ⟨⟨s, next⟩, rfl, hs, hnext⟩ := hfound
          obtain rfl : next = s.scopeAfter scope := hnext
          refine ensures_statementEnd.attempt.bind fun ended hended => ?_
          obtain ⟨⟨⟩, rfl, -⟩ := hended
          exact (ih _).bind fun rest hrest => ensures_pure ⟨hs, hrest⟩

theorem ensures_rule (hnames : registry.Names callable) :
    Ensures (rule registry) (Rule.Clean callable registry) :=
  ensures_here.bind fun p _ => (ensures_expectKeyword _).bind fun _ _ =>
    (ensures_expectString _).bind fun _ _ => (ensures_expectKeyword _).bind fun _ _ =>
      (ensures_condition hnames p).bind fun _ hcondition =>
        (ensures_expectKeyword _).bind fun _ _ => ensures_remaining.bind fun fuel _ =>
          (ensures_statements hnames fuel []).bind fun _ hstatements =>
            (ensures_expectKeyword _).bind fun _ _ =>
              ensures_pure ⟨hcondition, hstatements⟩

end Rules

section Pipelines

theorem ensures_stageRefs (fuel : Nat) : Ensures (stageRefs fuel) fun _ => True := by
  induction fuel with
  | zero => exact ensures_pure trivial
  | succ fuel ih =>
    refine (ensures_eatIf _).bind fun _ _ => ?_
    split
    · exact (ensures_expectString _).bind fun _ _ => (ensures_eatIf _).bind fun _ _ =>
        ih.bind fun _ _ => ensures_pure trivial
    · exact ensures_pure trivial

theorem ensures_matchPolicy : Ensures matchPolicy fun _ => True := by
  have hnext {policy : MatchPolicy} {other : Parse MatchPolicy} {word : String}
      (h : Ensures other fun _ => True) : Ensures (do
        if ← eatKeyword word then return policy
        else other) fun _ => True := by
    refine (ensures_eatIf _).bind fun _ _ => ?_
    split
    · exact ensures_pure trivial
    · exact h
  exact hnext (hnext (hnext (hnext (ensures_unexpected _))))

theorem ensures_stageNumber (p : Position) : Ensures (stageNumber p) IsStageNumber := by
  have hrange (number : Int) : Ensures (do
      if leastStage ≤ number ∧ number ≤ greatestStage then return number
      else
        report p (.syntactic s!"stage number {number} out of range")
        return 0) IsStageNumber := by
    split
    · next h => exact ensures_pure h
    · exact (ensures_reportAll _).bind fun _ h => by cases h
  refine (ensures_eatIf _).bind fun negative _ => (ensures_peek 0).bind fun l _ => ?_
  split
  · refine ensures_advance.bind fun _ _ => ?_
    split
    · exact hrange _
    · exact hrange _
  · exact ensures_unexpected _

theorem ensures_stage : Ensures stage fun s => IsStageNumber s.number :=
  ensures_here.bind fun p _ => (ensures_expectKeyword _).bind fun _ _ =>
    (ensures_stageNumber p).bind fun _ hnumber => (ensures_expectKeyword _).bind fun _ _ =>
      ensures_matchPolicy.bind fun _ _ => ensures_remaining.bind fun fuel _ =>
        (ensures_stageRefs fuel).bind fun _ _ => ensures_pure hnumber

theorem ensures_stages (fuel : Nat) :
    Ensures (stages fuel) fun found => ∀ s ∈ found, IsStageNumber s.number := by
  induction fuel with
  | zero => exact ensures_pure (by simp)
  | succ fuel ih =>
    refine (ensures_atKeyword _).bind fun _ _ => ?_
    split
    · refine ensures_stage.bind fun s hs => ih.bind fun more hmore => ensures_pure ?_
      simpa using ⟨hs, hmore⟩
    · exact ensures_pure (by simp)

theorem ensures_pipeline : Ensures pipeline Pipeline.Formed := by
  refine ensures_here.bind fun p _ => (ensures_expectKeyword _).bind fun _ _ =>
    (ensures_expectString _).bind fun name _ => ensures_remaining.bind fun fuel _ =>
      (ensures_stages fuel).bind fun found hfound => (ensures_expectKeyword _).bind fun _ _ => ?_
  split
  · exact (ensures_reportAll _).bind fun _ h => by cases h
  · next hempty =>
    have hperm := sortBy_perm Stage.number found
    refine (ensures_reportAll _).bind fun _ hcontiguous => ensures_pure ⟨?_, ?_, hcontiguous⟩
    · exact fun s hs => hfound s (hperm.mem_iff.mp hs)
    · intro hnil
      obtain rfl : found = [] := by
        rw [← List.perm_nil, ← show sortBy Stage.number found = [] from hnil]
        exact hperm.symm
      exact hempty rfl

end Pipelines

theorem ensures_declarations {callable : String → Prop} {registry : Registry}
    (hnames : registry.Names callable) (fuel : Nat) :
    Ensures (declarations registry fuel) fun found => ∀ d ∈ found, d.Clean callable registry := by
  have hdeclaration : Ensures (declaration registry) (Declaration.Clean callable registry) := by
    refine (ensures_atKeyword _).bind fun _ _ => ?_
    split
    · exact (ensures_rule hnames).bind fun r hr => ensures_pure hr
    · refine (ensures_atKeyword _).bind fun _ _ => ?_
      split
      · exact ensures_pipeline.bind fun p hp => ensures_pure hp
      · refine (ensures_peek 0).bind fun l _ => ensures_here.bind fun p _ =>
          (ensures_reportAll _).bind fun _ h => by cases h
  induction fuel with
  | zero => exact ensures_pure (by simp)
  | succ fuel ih =>
    refine (ensures_peek 0).bind fun first _ => ?_
    split
    · exact ensures_pure (by simp)
    · refine hdeclaration.attempt.bind fun found hfound => ?_
      obtain ⟨d, rfl, hd⟩ := hfound
      refine ih.bind fun rest hrest => ensures_pure ?_
      simpa using ⟨hd, hrest⟩

end Grammar

theorem dropRepeats_ne_nil {α : Type} [DecidableEq α] (a : α) (rest : List α) :
    dropRepeats (a :: rest) ≠ [] := by
  induction rest generalizing a with
  | nil => simp [dropRepeats]
  | cons b rest ih =>
    rw [dropRepeats]
    split
    · exact ih b
    · simp

theorem arrange_eq_nil {errors : List Diagnostic} (h : Diagnostic.arrange errors = []) :
    errors = [] := by
  have hsorted : sortBy Diagnostic.position errors = [] := by
    cases hlist : sortBy Diagnostic.position errors with
    | nil => rfl
    | cons a rest =>
      rw [Diagnostic.arrange, hlist] at h
      exact absurd h (dropRepeats_ne_nil a rest)
  exact List.Perm.nil_eq (hsorted ▸ sortBy_perm Diagnostic.position errors) |>.symm

/-- A source without errors has none from scanning and none from parsing. -/
theorem errors_of_isClean {source : String} {registry : Registry}
    (hclean : (parseSource source registry).isClean) : (tokenize source).2 = [] ∧
      (Grammar.declarations registry (tokenize source).1.length (tokenize source).1).errors = [] :=
  List.append_eq_nil_iff.mp (arrange_eq_nil (List.isEmpty_iff.mp hclean))

/-- A source declares what is found in its tokens. -/
theorem declarations_parseSource (source : String) (registry : Registry) :
    (parseSource source registry).declarations = (Grammar.declarations registry
      (tokenize source).1.length (tokenize source).1).result.getD [] := rfl

/-- Every declaration of a source without errors is clean. -/
theorem declarations_clean {callable : String → Prop} {source : String} {registry : Registry}
    (hnames : registry.Names callable) (hclean : (parseSource source registry).isClean) :
    ∀ d ∈ (parseSource source registry).declarations, d.Clean callable registry := by
  have hreply := (errors_of_isClean hclean).2
  obtain ⟨-, found, hfound, hdeclarations⟩ := Grammar.ensures_declarations hnames
    (tokenize source).1.length (tokenize source).1 (allFound_tokenize source) hreply
  rw [declarations_parseSource, hfound, Option.getD_some]
  exact hdeclarations

theorem ParsedSource.mem_rules {parsed : ParsedSource} {r : Rule} :
    r ∈ parsed.rules ↔ .rule r ∈ parsed.declarations := by
  rw [rules, List.mem_filterMap]
  constructor
  · rintro ⟨d, hd, hrule⟩
    cases d with
    | rule r' =>
      cases hrule
      exact hd
    | pipeline p => cases hrule
  · exact fun h => ⟨.rule r, h, rfl⟩

/-- Every rule of a source without errors is clean. -/
theorem clean_of_source {callable : String → Prop} {source : String} {registry : Registry}
    (hnames : registry.Names callable) (hclean : (parseSource source registry).isClean) {r : Rule}
    (hr : r ∈ (parseSource source registry).rules) : r.Clean callable registry :=
  declarations_clean hnames hclean (.rule r) (ParsedSource.mem_rules.mp hr)

theorem accepted_of_clean {source : String} {registry : Registry} (hfree : registry.Unreserved)
    (hclean : (parseSource source registry).isClean) {r : Rule}
    (hr : r ∈ (parseSource source registry).rules) : r.Accepted registry :=
  clean_of_source hfree.names hclean hr

end LogRules
