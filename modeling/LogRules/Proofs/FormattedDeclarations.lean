import LogRules.Proofs.RereadDeclarations

/-!
The text of a declaration is a source that holds this declaration and nothing else.
-/
namespace LogRules

open Grammar

/-- The variable that a statement binds. -/
def Statement.binding? : Statement → Option String
  | perform _ => none
  | bind name _ _ _ => some name

namespace Declaration

/-- What a declaration says, but for its expressions and its places. -/
inductive Outline
  /-- For each statement the variable that it binds, if any. -/
  | rule (name : String) (bindings : List (Option String))
  | pipeline (name : String) (stages : List (Int × MatchPolicy × List String))
deriving DecidableEq, Repr

def outline : Declaration → Outline
  | rule r => .rule r.name (r.statements.map Statement.binding?)
  | pipeline p => .pipeline p.name (p.stages.map fun s => (s.number, s.policy, s.refs))

/-- Whether variables are bound under names that can be written as they are. -/
def isPlain : Declaration → Bool
  | rule r => r.statements.all Statement.isPlain
  | pipeline _ => true

theorem Rereads.outline_eq {found d : Declaration} (h : found.Rereads d) :
    found.outline = d.outline := by
  cases h with
  | rule h =>
    rw [outline, outline, h.name, map_eq_of_forall₂ h.statements fun _ _ _ h => ?_]
    cases h <;> rfl
  | pipeline h =>
    rw [outline, outline, h.name, map_eq_of_forall₂ h.stages fun _ _ _ h => ?_]
    rw [h.number, h.policy, h.refs]

variable {registry : Registry} {d : Declaration}

/-- A text that is not said to nest too deep holds the declaration and nothing else. -/
theorem parseSource_text (h : d.Printable registry)
    (hroom : ∀ x ∈ (parseSource d.text registry).errors, ¬ x.IsTooDeep) :
    ∃ found, parseSource d.text registry = ⟨[found], []⟩ ∧ found.Rereads d := by
  have htext : (ParsedSource.mk [d] []).text = d.text := String.intercalate_singleton
  have hprintable : ∀ d' ∈ (ParsedSource.mk [d] []).declarations, d'.Printable registry := by
    simpa using h
  have hread := ParsedSource.text_reread_or_tooDeep hprintable
  rw [htext] at hread
  obtain ⟨hscan, ⟨x, hx, hdeep⟩ | ⟨rest, found, hreply, hfound⟩⟩ := hread
  · refine absurd hdeep (hroom x ?_)
    simp only [parseSource, Diagnostic.mem_arrange]
    exact List.mem_append_right _ hx
  · obtain ⟨found, tail, hfirst, hrest, rfl⟩ := List.forall₂_cons_right_iff.mp hfound
    obtain rfl := List.forall₂_nil_right_iff.mp hrest
    refine ⟨found, ?_, hfirst⟩
    simp only [parseSource, Parse.run, hreply, hscan]
    rfl

end Declaration

/-- Formatted declarations are accepted. Where every variable is bound under a plain name, the text
of a declaration of a source without errors, unless it is said to nest too deep, holds one
declaration with the same name, statements and variables or stages. -/
theorem formatted_declaration_accepted {source : String} {registry : Registry}
    (hfree : registry.Unreserved) (hclean : (parseSource source registry).isClean)
    {d : Declaration} (hd : d ∈ (parseSource source registry).declarations) (hplain : d.isPlain)
    (hroom : ∀ x ∈ (parseSource d.text registry).errors, ¬ x.IsTooDeep) :
    ∃ found, parseSource d.text registry = ⟨[found], []⟩ ∧ found.outline = d.outline := by
  have haccepted := declarations_clean hfree.names hclean d hd
  have hprintable : d.Printable registry := by
    cases d with
    | rule r => exact ⟨haccepted, List.all_eq_true.mp hplain⟩
    | pipeline p => exact haccepted
  obtain ⟨found, hparse, hfound⟩ := Declaration.parseSource_text hprintable hroom
  exact ⟨found, hparse, hfound.outline_eq⟩

/-- Names with quotes, accents, a line break and a keyword, and stages that are out of order. -/
def awkwardSource : String :=
  "rule \"\\\"no\\\"\\n`x`\" when not $message.`a``b` " ++
    "then let `x` = \x7b\"a b\": -1.5, rule: []\x7d end " ++
    "pipeline \"\" stage 0 match either rule \"when\" stage -1 match pass end"

theorem formatted_declaration_accepted_awkwardSource :
    (parseSource awkwardSource .empty).declarations.map Declaration.outline =
        [.rule "\"no\"\n`x`" [some "x"],
          .pipeline "" [(-1, .pass, []), (0, .either, ["when"])]] ∧
      ∀ d ∈ (parseSource awkwardSource .empty).declarations,
        ∃ found, parseSource d.text .empty = ⟨[found], []⟩ ∧ found.outline = d.outline := by
  have hsource : (parseSource awkwardSource .empty).isClean = true ∧
      (parseSource awkwardSource .empty).declarations.map Declaration.outline =
        [.rule "\"no\"\n`x`" [some "x"],
          .pipeline "" [(-1, .pass, []), (0, .either, ["when"])]] ∧
      ∀ d ∈ (parseSource awkwardSource .empty).declarations,
        d.isPlain = true ∧ (parseSource d.text .empty).errors.isEmpty = true := by
    decide +kernel
  have hfree : Registry.empty.Unreserved := fun _ h => absurd h List.not_mem_nil
  obtain ⟨hclean, houtlines, hall⟩ := hsource
  refine ⟨houtlines, fun d hd => ?_⟩
  obtain ⟨hplain, hempty⟩ := hall d hd
  refine formatted_declaration_accepted hfree hclean hd hplain fun x hx => ?_
  rw [List.isEmpty_iff.mp hempty] at hx
  cases hx

/-- A source without errors and the text of a declaration in it that has errors, although nothing in
it nests too deep. -/
def Unacceptable (registry : Registry) (source : String) : Prop :=
  (parseSource source registry).isClean = true ∧
    ∃ d ∈ (parseSource source registry).declarations,
      (parseSource d.text registry).errors.map Diagnostic.problem =
        [.syntactic "expected '=', found 'name'"]

instance (registry : Registry) (source : String) : Decidable (Unacceptable registry source) :=
  inferInstanceAs (Decidable (_ ∧ _))

def spacedNameSource : String := "rule \"r\" when true then let `my name` = 1; end"

/-- A quoted name that is written without quotes cannot be read back. -/
theorem formatted_declaration_refused : Unacceptable .empty spacedNameSource := by
  decide +kernel

end LogRules
