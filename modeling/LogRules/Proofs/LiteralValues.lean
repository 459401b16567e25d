import LogRules.Proofs.FormattedDeclarations
import LogRules.Proofs.MessageReading

/-!
Values written as literals. The tree of a literal has the text of its value and evaluates to it, so
a variable that a source binds to a literal has the value that was written, whatever it nests up to
the limit. The least integer is the exception: its digits do not fit without their sign.
-/
namespace LogRules

open Parse Grammar EvalM

namespace Value

/-- What literals stand for, apart from what is inside: no null, no integer whose opposite is out of
range, only finite floats, and maps in the order of their keys. -/
def HasLiteral : Value → Prop
  | list _ => True
  | map entries => Entries.Sorted entries
  | v => v.Writable

mutual

/-- The tree of the literal of a value. -/
def toExpr : Value → Expr
  | list items => .array ⟨.list, .nowhere⟩ (toExprItems items)
  | map entries => .map ⟨.map, .nowhere⟩ (toExprEntries entries)
  | null => .ofValue .nowhere null
  | boolean flag => .ofValue .nowhere (boolean flag)
  | long n => .ofValue .nowhere (long n)
  | double x => .ofValue .nowhere (double x)
  | string text => .ofValue .nowhere (string text)

def toExprItems : List Value → List Expr
  | [] => []
  | v :: rest => toExpr v :: toExprItems rest

def toExprEntries : List (String × Value) → List (String × Expr)
  | [] => []
  | (key, v) :: rest => (key, toExpr v) :: toExprEntries rest

end

mutual

theorem text_toExpr : ∀ v : Value, v.toExpr.text = v.literal
  | list items => by rw [toExpr, Expr.text, literal, textItems_toExpr]
  | map entries => by rw [toExpr, Expr.text, literal, textEntries_toExpr]
  | null | boolean _ | long _ | double _ | string _ => rfl

theorem textItems_toExpr : ∀ items : List Value,
    Expr.textItems (toExprItems items) = literalItems items
  | [] => rfl
  | v :: rest => by
    rw [toExprItems, Expr.textItems, literalItems, text_toExpr v, textItems_toExpr rest]

theorem textEntries_toExpr : ∀ entries : List (String × Value),
    Expr.textEntries (toExprEntries entries) = literalEntries entries
  | [] => rfl
  | (key, v) :: rest => by
    rw [toExprEntries, Expr.textEntries, literalEntries, text_toExpr v, textEntries_toExpr rest]

end

mutual

/-- The tree of a literal is one that parsing builds. -/
theorem accepted_toExpr (env : Env) : ∀ v : Value, (∀ part ∈ v.parts, part.HasLiteral) →
    Accepted env v.toExpr
  | list items, h => by
    rw [parts] at h
    exact .array _ _ rfl (accepted_toExprItems env items (List.forall_mem_cons.mp h).2)
  | map entries, h => by
    rw [parts] at h
    exact .map _ _ rfl (accepted_toExprEntries env entries (List.forall_mem_cons.mp h).2)
  | null, h | boolean _, h | long _, h | double _, h | string _, h =>
    clean_ofValue .nowhere (h _ List.mem_cons_self)

theorem accepted_toExprItems (env : Env) : ∀ items : List Value,
    (∀ part ∈ partsItems items, part.HasLiteral) →
      ∀ e ∈ toExprItems items, Accepted env e
  | [], _ => by simp [toExprItems]
  | v :: rest, h => by
    rw [partsItems, List.forall_mem_append] at h
    rw [toExprItems, List.forall_mem_cons]
    exact ⟨accepted_toExpr env v h.1, accepted_toExprItems env rest h.2⟩

theorem accepted_toExprEntries (env : Env) : ∀ entries : List (String × Value),
    (∀ part ∈ partsEntries entries, part.HasLiteral) →
      ∀ entry ∈ toExprEntries entries, Accepted env entry.2
  | [], _ => by simp [toExprEntries]
  | (key, v) :: rest, h => by
    rw [partsEntries, List.forall_mem_append] at h
    rw [toExprEntries, List.forall_mem_cons]
    exact ⟨accepted_toExpr env v h.1, accepted_toExprEntries env rest h.2⟩

end

mutual

/-- A literal takes a level for each bracket, and its tree is higher by one at most. -/
theorem room_toExpr : ∀ v : Value, v.toExpr.levels ≤ v.nesting ∧ v.toExpr.depth ≤ v.nesting + 1
  | list items => by
    obtain ⟨hlevels, hdepth⟩ := room_toExprItems items
    rw [toExpr, Expr.levels, Expr.nesting, Expr.depth, nesting]
    exact ⟨hlevels, Nat.succ_le_succ hdepth⟩
  | map entries => by
    obtain ⟨hlevels, hdepth⟩ := room_toExprEntries entries
    rw [toExpr, Expr.levels, Expr.nesting, Expr.depth, nesting]
    exact ⟨hlevels, Nat.succ_le_succ hdepth⟩
  | null | boolean _ | long _ | double _ | string _ => ⟨Nat.le_refl 0, Nat.le_refl 1⟩

theorem room_toExprItems : ∀ items : List Value,
    Expr.nestingItems 1 (toExprItems items) ≤ nestingItems items + 1 ∧
      Expr.depthItems (toExprItems items) ≤ nestingItems items + 1
  | [] => ⟨Nat.zero_le _, Nat.zero_le _⟩
  | v :: rest => by
    obtain ⟨hlevels, hdepth⟩ := room_toExpr v
    obtain ⟨hmore, hothers⟩ := room_toExprItems rest
    rw [Expr.levels] at hlevels
    rw [toExprItems, Expr.nestingItems, Expr.depthItems, nestingItems]
    omega

theorem room_toExprEntries : ∀ entries : List (String × Value),
    Expr.nestingEntries 1 (toExprEntries entries) ≤ nestingEntries entries + 1 ∧
      Expr.depthEntries (toExprEntries entries) ≤ nestingEntries entries + 1
  | [] => ⟨Nat.zero_le _, Nat.zero_le _⟩
  | (key, v) :: rest => by
    obtain ⟨hlevels, hdepth⟩ := room_toExpr v
    obtain ⟨hmore, hothers⟩ := room_toExprEntries rest
    rw [Expr.levels] at hlevels
    rw [toExprEntries, Expr.nestingEntries, Expr.depthEntries, nestingEntries]
    omega

end

mutual

/-- The tree of a literal evaluates to the value and needs nothing of the run. -/
theorem eval_toExpr : ∀ v : Value, (∀ part ∈ v.parts, part.HasLiteral) →
    v.toExpr.eval = pure v
  | list items, h => by
    rw [parts] at h
    rw [toExpr, Expr.eval, evalItems_toExpr items (List.forall_mem_cons.mp h).2, pure_bind]
  | map entries, h => by
    rw [parts] at h
    obtain ⟨hsorted, hinside⟩ := List.forall_mem_cons.mp h
    rw [toExpr, Expr.eval, evalEntries_toExpr entries hinside, pure_bind, hsorted.ofList_eq]
  | null, _ | boolean _, _ | long _, _ | double _, _ | string _, _ => rfl

theorem evalItems_toExpr : ∀ items : List Value,
    (∀ part ∈ partsItems items, part.HasLiteral) →
      Expr.evalItems (toExprItems items) = pure items
  | [], _ => rfl
  | v :: rest, h => by
    rw [partsItems, List.forall_mem_append] at h
    rw [toExprItems, Expr.evalItems, eval_toExpr v h.1, evalItems_toExpr rest h.2, pure_bind,
      pure_bind]

theorem evalEntries_toExpr : ∀ entries : List (String × Value),
    (∀ part ∈ partsEntries entries, part.HasLiteral) →
      Expr.evalEntries (toExprEntries entries) = pure entries
  | [], _ => rfl
  | (key, v) :: rest, h => by
    rw [partsEntries, List.forall_mem_append] at h
    rw [toExprEntries, Expr.evalEntries, eval_toExpr v h.1, evalEntries_toExpr rest h.2, pure_bind,
      pure_bind]

end

theorem type_toExpr : ∀ v : Value, v.HasLiteral → v.toExpr.type = v.type
  | list _, _ | map _, _ | boolean _, _ | long _, _ | double _, _ | string _, _ => rfl

variable {v : Value} (hv : ∀ part ∈ v.parts, part.HasLiteral) (hnesting : v.nesting < maxNesting)

theorem self_mem_parts (v : Value) : v ∈ v.parts := by
  cases v <;> exact List.mem_cons_self

include hv hnesting

/-- The literal of a value is read wherever an expression may stand, and has the value. -/
theorem reads_literal (env : Env) : Reads (expression env) v.toExpr.lexemes (·.EndsLevel 0)
    fun found => found.type = v.type ∧ found.eval = pure v := by
  obtain ⟨hlevels, hdepth⟩ := room_toExpr v
  have haccepted := accepted_toExpr env v hv
  have hlegible := Expr.legible_of_accepted haccepted (hdepth.trans hnesting)
  have hreads := hlegible.reads_expression (Expr.startsNot_of_accepted haccepted) maxNesting
    (hlevels.trans_lt hnesting)
  refine hreads.imp (fun _ h => h) fun found hfound => ⟨?_, ?_⟩
  · rw [hfound.type_eq, type_toExpr v (hv v v.self_mem_parts)]
  · rw [hfound.eval_eq, eval_toExpr v hv]

end Value

/-- The statement binds the variable to an expression that has the value in every state. -/
def Statement.Gives (name : String) (v : Value) (s : Statement) : Prop :=
  ∃ e p, s = .bind name v.type e p ∧ ∀ c, e.eval.runOn c = (.ok v, c)

namespace Rule

/-- A rule that does nothing but to bind a variable to a literal. -/
def binding (rule name : String) (v : Value) : Rule :=
  ⟨rule, Value.toExpr (.boolean true), [.bind name v.type v.toExpr .nowhere], .nowhere⟩

/-- Such a rule as it is written. -/
def bindingSource (rule name : String) (v : Value) : String :=
  "rule " ++ Text.quoteString rule ++ "\nwhen true\nthen\n  let " ++ name ++ " = " ++ v.literal ++
    ";\nend"

theorem text_binding (rule name : String) (v : Value) :
    (binding rule name v).text = bindingSource rule name v := by
  have hvalue := v.text_toExpr
  simp only [text, body, binding, Statement.text, List.map_cons, List.map_nil, String.join_cons,
    String.join_nil, hvalue, bindingSource]
  have htrue : (Value.toExpr (.boolean true)).text = "true" := rfl
  rw [htrue]
  simp [← String.toList_inj]

variable {registry : Registry} {rule name : String} {v : Value}
  (hv : ∀ part ∈ v.parts, part.HasLiteral) (hnesting : v.nesting < maxNesting)

theorem reads_true (p : Position) :
    Reads (Grammar.condition registry p) (Value.toExpr (.boolean true)).lexemes (·.EndsLevel 0)
      fun _ => True := by
  have hreads := Value.reads_literal (v := .boolean true) (by simp [Value.parts, Value.HasLiteral,
    Value.Writable]) (by decide) ⟨registry, [], true⟩
  refine hreads.attempt.finish fun _ hfound => ?_
  obtain ⟨found, rfl, htype, -⟩ := hfound
  have hboolean : Typing.checkBoolean found = [] := by
    rw [Typing.checkBoolean_eq_nil, htype]
    rfl
  exact .reportAll hboolean (reads_pure trivial)

section Reading

include hv hnesting

theorem reads_let (hfree : isReserved name = false) (scope : Typing.Scope) :
    Reads (statementBody registry scope) (Statement.bind name v.type v.toExpr .nowhere).phrase
      (·.EndsLevel 0) fun found => found.1.Gives name v := by
  refine .here fun p => .eatIf (by simp) (by decide) (.here fun q => ?_)
  refine (reads_expectName (.inl rfl) _).bind (fun _ _ => trivial) fun _ hname => ?_
  rw [hname, hfree]
  refine (reads_expect .assign _).bind (fun _ _ => trivial) fun _ _ => ?_
  refine (v.reads_literal hv hnesting _).finish fun found ⟨htype, heval⟩ => reads_pure ?_
  rw [htype]
  exact ⟨found, p, rfl, fun c => by rw [heval, runOn_pure]⟩

theorem reads_statements (hfree : isReserved name = false) {fuel : Nat} (hfuel : 1 ≤ fuel) :
    Reads (Grammar.statements registry fuel [])
      ([.bind name v.type v.toExpr .nowhere].flatMap Statement.lexemes)
      (·.isKeyword "end" = true) fun found => ∃ s : Statement, found = [s] ∧ s.Gives name v := by
  obtain ⟨fuel, rfl⟩ : ∃ n, fuel = n + 1 := ⟨fuel - 1, by omega⟩
  have hend (scope : Typing.Scope) : Reads (Grammar.statements registry fuel scope) []
      (·.isKeyword "end" = true) (· = []) := by
    intro tokens rest hls hends
    obtain rfl := List.map_eq_nil_iff.mp hls
    exact ⟨[], statements_of_end hends fuel, rfl⟩
  rw [List.flatMap_cons, Statement.lexemes, List.append_assoc]
  refine .peek ?_
  rw [if_neg (by simp)]
  refine .atKeyword ?_
  rw [if_neg (by decide)]
  refine .atDeclaration (by decide) (by decide) ?_
  rw [if_neg Bool.false_ne_true]
  refine (reads_let hv hnesting hfree []).attempt.bind ?_ fun _ hfound => ?_
  · rintro _ rfl
    exact endsLevel_closing (by simp) 0
  obtain ⟨⟨found, next⟩, rfl, hfound⟩ := hfound
  refine reads_statementEnd.attempt.bind (fun _ _ => trivial) fun _ hended => ?_
  obtain ⟨⟨⟩, rfl, -⟩ := hended
  refine (hend next).map ?_
  rintro _ rfl
  exact ⟨found, rfl, hfound⟩

theorem reads_binding (hfree : isReserved name = false) :
    Reads (Grammar.rule registry) (binding rule name v).lexemes (fun _ => True) fun found =>
      found.name = rule ∧ ∃ s : Statement, found.statements = [s] ∧ s.Gives name v := by
  have hlexemes : (binding rule name v).lexemes = .name "rule" :: .string rule :: .name "when" ::
      ((Value.toExpr (.boolean true)).lexemes ++ .name "then" ::
        ([.bind name v.type v.toExpr .nowhere].flatMap Statement.lexemes ++ [.name "end"])) := rfl
  rw [hlexemes]
  refine .here fun p => ?_
  refine (reads_expectKeyword (by decide)).bind (fun _ _ => trivial) fun _ _ => ?_
  refine (reads_expectString rule _).bind (fun _ _ => trivial) fun _ hname => ?_
  refine (reads_expectKeyword (by decide)).bind (fun _ _ => trivial) fun _ _ => ?_
  refine (reads_true p).bind ?_ fun condition _ => ?_
  · rintro _ rfl
    exact endsLevel_name (by decide) (by decide) 0
  refine (reads_expectKeyword (by decide)).bind (fun _ _ => trivial) fun _ _ => ?_
  refine .remaining fun fuel hfuel => ?_
  have hpositive : 1 ≤ fuel := (Nat.succ_le_succ (Nat.zero_le _)).trans hfuel
  refine (reads_statements hv hnesting hfree hpositive).bind ?_ fun statements hstatements => ?_
  · rintro _ rfl
    decide
  refine (reads_expectKeyword (by decide)).bind (fun _ _ => trivial) fun _ _ => ?_
  exact reads_pure ⟨hname, hstatements⟩

/-- The rule is a source of its own. -/
theorem reads_source (hfree : isReserved name = false) {fuel : Nat} (hfuel : 1 ≤ fuel) :
    Reads (declarations registry fuel) (binding rule name v).lexemes (· = .eof) fun found =>
      ∃ r : Rule, found = [.rule r] ∧ r.name = rule ∧
        ∃ s : Statement, r.statements = [s] ∧ s.Gives name v := by
  obtain ⟨fuel, rfl⟩ : ∃ n, fuel = n + 1 := ⟨fuel - 1, by omega⟩
  have hend : Reads (declarations registry fuel) [] (· = .eof) (· = []) := by
    intro tokens rest hls hends
    obtain rfl := List.map_eq_nil_iff.mp hls
    exact ⟨[], declarations_of_eof registry hends fuel, rfl⟩
  have hdeclaration : Reads (declaration registry) (binding rule name v).lexemes (fun _ => True)
      fun found => ∃ r : Rule, found = .rule r ∧ r.name = rule ∧
        ∃ s : Statement, r.statements = [s] ∧ s.Gives name v := by
    refine .atKeyword ?_
    rw [if_pos (by decide)]
    exact (reads_binding hv hnesting hfree).map fun r hr => ⟨r, rfl, hr⟩
  refine .peek ?_
  rw [if_neg (by simp)]
  have hfirst : Reads (attempt (declaration registry)) _ (· = .eof) _ :=
    hdeclaration.attempt.imp (fun _ _ => trivial) fun _ h => h
  refine hfirst.finish fun _ hbuilt => ?_
  obtain ⟨_, rfl, r, rfl, hr⟩ := hbuilt
  refine hend.map ?_
  rintro _ rfl
  exact ⟨r, rfl, hr⟩

theorem printable_binding (hplain : Text.isPlainName name.toList = true)
    (hfree : isReserved name = false) : (binding rule name v).Printable registry := by
  have hclean : (binding rule name v).Accepted registry := by
    refine ⟨⟨clean_ofValue _ trivial, Nat.zero_lt_succ 127, fun _ => rfl, fun _ h => (nomatch h)⟩,
      ⟨⟨Value.accepted_toExpr _ v hv, ?_, fun h => (nomatch h), fun _ h => (nomatch h)⟩, ?_⟩,
      trivial⟩
    · exact (Value.room_toExpr v).2.trans hnesting
    · rintro _ _ _ _ ⟨⟩
      exact ⟨(Value.type_toExpr v (hv v v.self_mem_parts)).symm, onOneLine_of_plain hplain, hfree⟩
  refine ⟨hclean, ?_⟩
  simpa [binding, Statement.isPlain] using hplain

end Reading

end Rule

/-- Literals are read back. Over every registry, a variable that a rule binds to the literal of a
value, with the integers above the least one, finite floats and what nests below the limit, has this
value in every state, and nothing is wrong with the rule. -/
theorem Value.literal_reads_back {v : Value} (hv : ∀ part ∈ v.parts, part.HasLiteral)
    (hnesting : v.nesting < maxNesting) (registry : Registry) (rule : String) {name : String}
    (hplain : Text.isPlainName name.toList = true) (hfree : isReserved name = false) :
    ∃ r e p, parseSource (Rule.bindingSource rule name v) registry = ⟨[.rule r], []⟩ ∧
      r.name = rule ∧ r.statements = [.bind name v.type e p] ∧
        ∀ c, e.eval.runOn c = (.ok v, c) := by
  have hprintable : (Rule.binding rule name v).Printable registry :=
    Rule.printable_binding hv hnesting hplain hfree
  have hscans := Rule.scansTo hprintable (endsRun_nil _)
  rw [Rule.text_binding] at hscans
  obtain ⟨tokens, q, htokenize, hlexemes⟩ := hscans.tokenize
  have hfuel : 1 ≤ (tokens ++ [Token.mk .eof q]).length := by simp
  obtain ⟨found, hreply, r, rfl, hname, s, hstatements, e, p, rfl, heval⟩ :=
    @Rule.reads_source registry rule name v hv hnesting hfree _ hfuel tokens [⟨.eof, q⟩]
      hlexemes rfl
  refine ⟨r, e, p, ?_, hname, hstatements, heval⟩
  simp only [parseSource, Parse.run, htokenize, hreply]
  rfl

/-- A map under a key that is no name, with a list of the least integer that can be written, a float
with a sign and an exponent, and a string that has to be escaped. -/
def nestedValue : Value :=
  .map [("a \"b\"", .list [.long (-9223372036854775807), .double (.ofDecimal true 15 299),
    .string "\n\"\\"]), ("x", .map []), ("y", .boolean false)]

theorem Value.literal_reads_back_nestedValue :
    ∃ r e p, parseSource (Rule.bindingSource "read\nback" "it" nestedValue) .empty =
        ⟨[.rule r], []⟩ ∧ r.name = "read\nback" ∧ r.statements = [.bind "it" .map e p] ∧
          ∀ c, e.eval.runOn c = (.ok nestedValue, c) := by
  have hparts : ∀ part ∈ nestedValue.parts, part.HasLiteral := by
    simp only [nestedValue, parts, partsEntries, partsItems, List.append_nil, List.cons_append,
      List.nil_append, List.forall_mem_cons, HasLiteral, Writable]
    refine ⟨?_, trivial, by decide, by decide +kernel, trivial, .nil, trivial, by simp⟩
    rw [Entries.Sorted, List.pairwise_cons, List.pairwise_cons]
    refine ⟨?_, ?_, List.pairwise_singleton _ _⟩ <;> simp only [List.forall_mem_cons] <;> decide
  exact literal_reads_back hparts (by decide) .empty "read\nback" (by decide) (by decide)

/-- The digits of the least integer are out of range, whatever sign stands before them. -/
theorem Value.least_not_read_back :
    (Value.long Int64.minValue).literal = "-9223372036854775808" ∧
      (parseSource (Rule.bindingSource "r" "x" (.long Int64.minValue)) .empty).errors.map
        Diagnostic.problem =
          [.syntactic "integer literal '9223372036854775808' out of range"] ∧
      ∀ r ∈ (parseSource (Rule.bindingSource "r" "x" (.long Int64.minValue)) .empty).rules,
        ∀ s ∈ r.statements,
          (s.expression.eval.runOn (.start (.empty .nil .epoch))).1.toOption.bind Value.asLong? =
            some 0 := by
  decide +kernel

end LogRules
