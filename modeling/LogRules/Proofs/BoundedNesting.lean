import LogRules.Proofs.CountedParsing
import LogRules.Proofs.RenderedNesting
import LogRules.Proofs.TreeHeight

/-!
Nesting is bounded in every source. No tree is higher than the limit, the counter of the parser
never goes above it and comes back wherever an expression ends, and what is parsed without errors is
compiled under the same limit.
-/
namespace LogRules

open Parse

namespace Grammar

section Trees

variable {registry : Registry}

theorem builds_checkDepth_depth (e : Expr) :
    AlwaysBuilds (checkDepth e) (·.depth ≤ maxNesting) := by
  rw [checkDepth]
  split
  · exact builds_none fun _ => rfl
  · next h => exact builds_pure (Nat.le_of_not_lt h)

theorem builds_expression_depth (env : Env) :
    AlwaysBuilds (expression env) (·.depth ≤ maxNesting) :=
  builds_after _ builds_checkDepth_depth

/-- A broken condition becomes a literal, which is no higher. -/
theorem builds_condition_depth (position : Position) :
    AlwaysBuilds (condition registry position) (·.depth ≤ maxNesting) := by
  refine (builds_expression_depth _).attempt.bind fun found hfound => ?_
  cases found with
  | some e => exact builds_after _ fun _ => builds_pure (hfound e rfl)
  | none => exact builds_after _ fun _ => builds_pure (Nat.succ_le_succ (Nat.zero_le 127))

theorem builds_statementBody_depth (scope : Typing.Scope) :
    AlwaysBuilds (statementBody registry scope) (·.1.expression.depth ≤ maxNesting) := by
  refine builds_after _ fun position => builds_after _ fun bound => ?_
  cases bound with
  | true =>
    refine builds_after _ fun _ => builds_after _ fun name => ?_
    have hvalue : AlwaysBuilds (do
        Parse.expect .assign "'='"
        let value ← expression ⟨registry, scope, false⟩
        return (Statement.bind name value.type value position, scope.insert name value.type))
        (·.1.expression.depth ≤ maxNesting) :=
      builds_after _ fun _ => (builds_expression_depth _).bind fun _ h => builds_pure h
    cases isReserved name with
    | true => exact builds_after _ fun _ => hvalue
    | false => exact hvalue
  | false =>
    refine (builds_expression_depth _).bind fun e he => ?_
    cases e.isCall with
    | true => exact builds_pure he
    | false => exact builds_after _ fun _ => builds_pure he

theorem builds_statements_depth (fuel : Nat) (scope : Typing.Scope) :
    AlwaysBuilds (statements registry fuel scope) fun found =>
      ∀ s ∈ found, s.expression.depth ≤ maxNesting := by
  induction fuel generalizing scope with
  | zero => exact builds_pure (by simp)
  | succ fuel ih =>
    refine builds_after _ fun _ => ?_
    split
    · exact builds_pure (by simp)
    refine builds_after _ fun ended => ?_
    split
    · exact builds_pure (by simp)
    refine builds_after _ fun starts => ?_
    split
    · exact builds_pure (by simp)
    refine (builds_statementBody_depth scope).attempt.bind fun body hbody => ?_
    cases body with
    | none => exact builds_after _ fun _ => ih scope
    | some body =>
      refine builds_after _ fun closed => ?_
      cases closed with
      | none => exact builds_after _ fun _ => ih body.2
      | some _ =>
        exact (ih body.2).map fun more hmore =>
          List.forall_mem_cons.mpr ⟨hbody body rfl, hmore⟩

theorem builds_rule_depth :
    AlwaysBuilds (rule registry) fun r => ∀ e ∈ r.expressions, e.depth ≤ maxNesting :=
  builds_after _ fun _ => builds_after _ fun _ => builds_after _ fun _ => builds_after _ fun _ =>
    (builds_condition_depth _).bind fun _ hcondition => builds_after _ fun _ =>
      builds_after _ fun fuel => (builds_statements_depth fuel []).bind fun _ hstatements =>
        builds_after _ fun _ =>
          builds_pure (List.forall_mem_cons.mpr ⟨hcondition, List.forall_mem_map.mpr hstatements⟩)

end Trees

end Grammar

namespace Rule

variable {callable : String → Prop} {registry : Registry} {r : Rule}

/-- Nothing keeps a rule without errors from being compiled, if the limit allows its trees. -/
theorem Clean.compile_ok (h : r.Clean callable registry) :
    ∃ code, r.compile maxNesting = .ok code := by
  have hnone : r.expressions.findSome? (Expr.obstacle? maxNesting) = none := by
    rw [List.findSome?_eq_none_iff]
    intro e he
    rw [← r.map_snd_parts] at he
    obtain ⟨⟨place, e⟩, hpart, rfl⟩ := List.mem_map.mp he
    have htakes := h.parts _ hpart
    have hresolved : e.calls.find? (!·.resolved) = none := by
      rw [List.find?_eq_none]
      intro call hcall
      rw [(htakes.accepted.calls_known hcall).2]
      decide
    rw [Expr.obstacle?, if_neg (Nat.not_lt.mpr htakes.depth_le), hresolved]
    rfl
  rw [compile, hnone]
  exact ⟨_, rfl⟩

end Rule

/-- How the nesting of expressions is bounded when a source is parsed. -/
structure NestingBounded (source : String) (registry : Registry) : Prop where
  /-- No tree of any rule is higher than the limit, errors or not. -/
  trees : ∀ r ∈ (parseSource source registry).rules, ∀ e ∈ r.expressions, e.depth ≤ maxNesting
  /-- The depth of a node is the height of the tree below it. -/
  heights : ∀ r ∈ (parseSource source registry).rules, ∀ e ∈ r.expressions, ∀ n ∈ e.nodes,
    n.IsHeight n.depth
  /-- With the counter at any depth up to the limit, an expression is parsed as with the room that
  is left. The counter comes back to that depth, found or not, and is never above the limit. -/
  counter : ∀ env depth unfoldings, depth ≤ maxNesting → maxNesting < unfoldings + depth →
    Counting.Mirrors depth (Counting.deeperOf env unfoldings).expression
      (Grammar.nested env (maxNesting - depth)).expression
  /-- An expression, found or not, leaves the room that a later one would have without it. -/
  later : ∀ env env' c tokens tokens', c.depth = 0 → c.peak ≤ maxNesting →
    (Counting.expression env' (Counting.expression env c tokens).2 tokens').1 =
      Grammar.expression env' tokens'
  /-- The source as a whole is parsed with the counter as it is parsed without. -/
  whole : ∃ c, Counting.declarations registry (tokenize source).1.length .start
      (tokenize source).1 =
        (Grammar.declarations registry (tokenize source).1.length (tokenize source).1, c) ∧
    c.depth = 0 ∧ c.peak ≤ maxNesting
  /-- Rules without errors are compiled under the limit for nesting. -/
  compiles : (parseSource source registry).isClean →
    ∀ r ∈ (parseSource source registry).rules, ∃ code, r.compile maxNesting = .ok code

/-- Nesting is bounded in every source and over every registry. -/
theorem nesting_bounded (source : String) (registry : Registry) :
    NestingBounded source registry where
  trees _ hr := ParsedSource.rule_of_builds Grammar.builds_rule_depth hr
  heights _ _ _ _ n _ := n.isHeight_depth
  counter env _ _ hdepth h := (Counting.mirrors_deeperOf env hdepth h).expression
  later env env' c tokens tokens' hdepth hpeak := by
    obtain ⟨-, hback, hpeak'⟩ := Counting.mirrors_expression env c tokens hdepth hpeak
    exact (Counting.mirrors_expression env' _ tokens' hback hpeak').1
  whole := by
    obtain ⟨hreply, hback, hpeak⟩ := Counting.mirrors_declarations registry
      (tokenize source).1.length .start (tokenize source).1 rfl (Nat.zero_le _)
    exact ⟨_, Prod.ext hreply rfl, hback, hpeak⟩
  compiles hclean r hr := by
    have hnames : registry.Names fun _ => True := fun _ _ _ => trivial
    exact (clean_of_source hnames hclean hr).compile_ok

/-- A hundred negations take more levels than are compiled when nothing else is asked for. -/
theorem nesting_bounded_negationsSource :
    (parseSource negationsSource .empty).isClean = true ∧
      ∃ r ∈ (parseSource negationsSource .empty).rules, standardCompileDepth < r.condition.depth ∧
        ∃ code, r.compile maxNesting = .ok code := by
  have hsource : (parseSource negationsSource .empty).isClean = true ∧
      ∃ r ∈ (parseSource negationsSource .empty).rules,
        standardCompileDepth < r.condition.depth := by
    decide +kernel
  obtain ⟨hclean, r, hr, hdepth⟩ := hsource
  exact ⟨hclean, r, hr, hdepth, (nesting_bounded negationsSource .empty).compiles hclean r hr⟩

end LogRules
