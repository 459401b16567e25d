import LogRules.Proofs.FormattedDeclarations
import LogRules.Proofs.NestedParsing

/-!
Conditions of a source without errors are read back from their texts within the limit, unless signs
are stacked: the parentheses between two signs take levels of their own.
-/
namespace LogRules

open Parse Grammar

section Conditions

variable {registry : Registry}

namespace Grammar

/-- A broken condition becomes a literal, which fits as well. -/
theorem builds_condition (p : Position) :
    AlwaysBuilds (condition registry p) (Expr.Fits maxNesting 1 False) := by
  have hexpression : AlwaysBuilds (expression ⟨registry, [], true⟩)
      (Expr.Fits maxNesting 1 False) :=
    (nested_fits _ maxNesting).expression
  refine hexpression.attempt.bind fun found hfound => ?_
  cases found with
  | some e => exact builds_after _ fun _ => builds_pure (hfound e rfl)
  | none =>
    have hplaced : (Expr.ofValue p (.boolean false)).Placed :=
      .of_children rfl (fun part hpart => by cases hpart) fun child hchild => by cases hchild
    exact builds_after _ fun _ =>
      builds_pure ⟨hplaced, fun _ _ => Nat.zero_lt_succ 127, fun _ => rfl⟩

theorem builds_rule :
    AlwaysBuilds (rule registry) fun r => r.condition.Fits maxNesting 1 False :=
  builds_after _ fun _ => builds_after _ fun _ => builds_after _ fun _ => builds_after _ fun _ =>
    (builds_condition _).bind fun _ hcondition => builds_after _ fun _ => builds_after _ fun _ =>
      builds_after _ fun _ => builds_after _ fun _ => builds_pure hcondition

/-- What holds of every rule that is built holds of the rules among declarations. -/
theorem builds_declarations {P : Rule → Prop} (hrule : AlwaysBuilds (rule registry) P)
    (fuel : Nat) : AlwaysBuilds (declarations registry fuel) fun found =>
      ∀ r, .rule r ∈ found → P r := by
  have hdeclaration : AlwaysBuilds (declaration registry) fun d => ∀ r, d = .rule r → P r := by
    refine builds_after _ fun _ => ?_
    split
    · refine hrule.map fun r hr => ?_
      rintro _ ⟨⟩
      exact hr
    · refine builds_after _ fun _ => ?_
      split
      · exact builds_after _ fun _ => builds_pure (by rintro _ ⟨⟩)
      · exact builds_after _ fun _ => builds_after _ fun _ => builds_after _ fun _ =>
          builds_after _ fun _ => builds_none fun _ => rfl
  induction fuel with
  | zero => exact builds_pure (by simp)
  | succ fuel ih =>
    refine builds_after _ fun first => ?_
    split
    · exact builds_pure (by simp)
    · refine hdeclaration.attempt.bind fun found hfound => ?_
      cases found with
      | none => exact builds_after _ fun _ => ih
      | some d =>
        refine ih.map fun rest hrest r hr => ?_
        cases List.mem_cons.mp hr with
        | inl heq => exact hfound d rfl r heq.symm
        | inr hr => exact hrest r hr

end Grammar

/-- What holds of every rule that is built holds of the rules of a source, whatever is wrong with
it. -/
theorem ParsedSource.rule_of_builds {P : Rule → Prop}
    (hrule : AlwaysBuilds (Grammar.rule registry) P) {source : String} {r : Rule}
    (hr : r ∈ (parseSource source registry).rules) : P r := by
  have hdeclared : .rule r ∈ (parseSource source registry).declarations :=
    ParsedSource.mem_rules.mp hr
  rw [declarations_parseSource] at hdeclared
  cases hfound : (Grammar.declarations registry (tokenize source).1.length
      (tokenize source).1).result with
  | none =>
    rw [hfound] at hdeclared
    cases hdeclared
  | some found =>
    rw [hfound] at hdeclared
    exact builds_declarations hrule _ _ trivial found hfound r hdeclared

/-- The condition of every rule fits into the limit, whatever is wrong with its source. -/
theorem Rule.condition_fits {source : String} {r : Rule}
    (hr : r ∈ (parseSource source registry).rules) : r.condition.Fits maxNesting 1 False :=
  ParsedSource.rule_of_builds builds_rule hr

end Conditions

namespace Expr

variable {callable : String → Prop} {env : Env} {e : Expr}

theorem tight_of_clean (h : Clean callable env e) : e.Tight := by
  induction e using children_induction with
  | h e ih =>
    intro n hn
    obtain rfl | ⟨child, hchild, hn⟩ := mem_nodes.mp hn
    · cases h with
      | access site object name htype hname hobject hclean =>
        exact isLiteral_of_access hobject hclean
      | index site object key htype hobject hkey hclean => exact isLiteral_of_index hobject hclean
      | _ => rfl
    · exact ih child hchild (h.child hchild) n hn

/-- Whether a sign stands before an operand that starts with one. The text has parentheses there
that the source need not have. -/
def isStackedSign : Expr → Bool
  | unary _ .not _ => false
  | unary _ _ operand => operand.precedence == signPrecedence
  | _ => false

theorem nestingItems_congr {items : List Expr} {extra : Nat}
    (h : ∀ e ∈ items, e.nesting extra = e.nesting 0) :
    nestingItems extra items = nestingItems 0 items := by
  induction items with
  | nil => rfl
  | cons e rest ih =>
    obtain ⟨he, hrest⟩ := List.forall_mem_cons.mp h
    rw [nestingItems, nestingItems, he, ih hrest]

theorem nestingEntries_congr {entries : List (String × Expr)} {extra : Nat}
    (h : ∀ e ∈ entries.map (·.2), e.nesting extra = e.nesting 0) :
    nestingEntries extra entries = nestingEntries 0 entries := by
  induction entries with
  | nil => rfl
  | cons entry rest ih =>
    obtain ⟨hentry, hrest⟩ := List.forall_mem_cons.mp h
    rw [nestingEntries, nestingEntries, hentry, ih hrest]

/-- Where no sign stands before a sign, it does not matter what that takes. -/
theorem nesting_of_no_stackedSign (h : ∀ n ∈ e.nodes, n.isStackedSign = false) (extra : Nat) :
    e.nesting extra = e.nesting 0 := by
  induction e using children_induction with
  | h e ih =>
    have hchild : ∀ child ∈ e.children, child.nesting extra = child.nesting 0 :=
      fun child hchild => ih child hchild fun n hn => h n (mem_nodes_of_child hchild hn)
    cases e with
    | literal | var | field => rfl
    | array site items => exact nestingItems_congr hchild
    | map | call => exact nestingEntries_congr hchild
    | access site object name => rw [nesting, nesting, hchild object (by simp [children])]
    | index site object key =>
      rw [nesting, nesting, hchild object (by simp [children]), hchild key (by simp [children])]
    | unary site op operand =>
      have hoperand := hchild operand (by simp [children])
      by_cases hop : op = .not
      · rw [hop, nesting, nesting, hoperand]
      · have hsign : operand.precedence ≠ signPrecedence := by
          have hself := h _ (self_mem_nodes _)
          cases op with
          | not => exact absurd rfl hop
          | negate | plus => simpa [isStackedSign] using hself
        rw [nesting_sign hop, nesting_sign hop, if_neg hsign, if_neg hsign, hoperand]
    | binary site op left right =>
      rw [nesting, nesting, hchild left (by simp [children]), hchild right (by simp [children])]

/-- A tree without stacked signs fits into the limit, and so does its text. -/
theorem levels_lt_maxNesting (h : Clean callable env e) (hfits : e.Fits maxNesting 1 False)
    (hsigns : ∀ n ∈ e.nodes, n.isStackedSign → e.nesting 1 < maxNesting) :
    e.levels < maxNesting := by
  by_cases hstacked : ∃ n ∈ e.nodes, n.isStackedSign
  · obtain ⟨n, hn, hsign⟩ := hstacked
    exact hsigns n hn hsign
  · rw [levels, nesting_of_no_stackedSign fun n hn =>
      Bool.eq_false_of_not_eq_true fun hsign => hstacked ⟨n, hn, hsign⟩]
    exact hfits.nesting_lt_of_one (tight_of_clean h)

end Expr

/-- Rendering needs no more nesting than the source. Over every registry, reserved function names
included, the text of a condition of a source without errors is read back as a condition, without
any error, and so within the limit. Where a sign stands before a sign, every way through the tree
has to be within the limit with one more level for each such sign on the way. -/
theorem Rule.condition_text_fits {source : String} {registry : Registry}
    (hclean : (parseSource source registry).isClean) {r : Rule}
    (hr : r ∈ (parseSource source registry).rules)
    (hsigns : ∀ n ∈ r.condition.nodes, n.isStackedSign → r.condition.nesting 1 < maxNesting)
    (p : Position) :
    (tokenize r.condition.text).2 = [] ∧ ∃ q found,
      Place.condition.parse registry p (tokenize r.condition.text).1 =
          ⟨[], [⟨.eof, q⟩], some found⟩ ∧
        found.Rereads r.condition := by
  have hnames : registry.Names fun _ => True := fun _ _ _ => trivial
  have hcondition := (clean_of_source hnames hclean hr).condition
  have haccepted : Grammar.Clean (fun _ => True) ⟨registry, [], true⟩ r.condition :=
    hcondition.accepted
  have hfits := Rule.condition_fits hr
  have hlevels := Expr.levels_lt_maxNesting haccepted hfits hsigns
  have hstart : r.condition.startsNot = false := hfits.start (.inr (.inl (by omega)))
  obtain ⟨tokens, q, hscan, hlexemes⟩ := Expr.tokenize_text haccepted
  obtain ⟨found, hreply, hfound⟩ :=
    (Expr.legible_of_clean haccepted hfits.placed hcondition.depth_le).reads_expression hstart
      maxNesting hlevels tokens [⟨.eof, q⟩] hlexemes (endsLevel_eof 0)
  have hboolean := (Typing.checkBoolean_congr hfound.type_eq).mpr (hcondition.boolean rfl)
  rw [hscan]
  exact ⟨rfl, q, found, Place.condition_of_expression hreply hboolean p, hfound⟩

/-- A hundred negations, one inside the other, before a sum behind two signs. -/
def negationsSource : String :=
  "rule \"deep\" when " ++ String.ofList (List.replicate 100 '!') ++
    "($message.a == - -($message.b + 1)) then end"

theorem Rule.condition_text_fits_negationsSource :
    (parseSource negationsSource .empty).rules.length = 1 ∧
      ∀ r ∈ (parseSource negationsSource .empty).rules,
        r.condition.nodes.any Expr.isStackedSign = true ∧
          (tokenize r.condition.text).2 = [] ∧ ∃ q found,
            Place.condition.parse .empty r.position (tokenize r.condition.text).1 =
                ⟨[], [⟨.eof, q⟩], some found⟩ ∧
              found.Rereads r.condition := by
  have hsource : (parseSource negationsSource .empty).isClean = true ∧
      (parseSource negationsSource .empty).rules.length = 1 ∧
      ∀ r ∈ (parseSource negationsSource .empty).rules,
        r.condition.nodes.any Expr.isStackedSign = true ∧ r.condition.nesting 1 < maxNesting := by
    decide +kernel
  obtain ⟨hclean, hlength, hrules⟩ := hsource
  refine ⟨hlength, fun r hr => ?_⟩
  obtain ⟨hstacked, hnesting⟩ := hrules r hr
  exact ⟨hstacked, condition_text_fits hclean hr (fun _ _ _ => hnesting) r.position⟩

/-- Signs as many as the limit has room for in the source, but not with parentheses between them. -/
def signsSource : String :=
  "rule \"deep\" when " ++ String.ofList (List.replicate 65 '-') ++ "$message.a == 0 then end"

/-- The text of a condition nests too deep, although its source does not. -/
theorem Rule.condition_text_too_deep :
    (parseSource signsSource .empty).isClean = true ∧
      ∃ r ∈ (parseSource signsSource .empty).rules,
        (Place.condition.parse .empty r.position (tokenize r.condition.text).1).errors.map
          Diagnostic.problem = [.nestingTooDeep maxNesting] := by
  decide +kernel

end LogRules
