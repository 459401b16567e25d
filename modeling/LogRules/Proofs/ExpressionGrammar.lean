import LogRules.Proofs.DerivedTrees
import LogRules.Proofs.TakenPhrases

/-!
Parsing expressions implements their grammar. What is consumed derives the tree that is returned,
what derives a tree is consumed to its end, and no two trees are derived by the same lexemes.
-/
namespace LogRules.Grammar

open Parse

/-- The grammar is not ambiguous. -/
theorem Derives.unique {registry : Registry} {ls : List Lexeme} {s t : Expr}
    (hs : Derives registry ls s) (ht : Derives registry ls t) : s = t := by
  have htakes {e : Expr} (h : Derives registry ls e) :=
    @expression_takes ⟨registry, [], false⟩ ls e h (ls.map fun l => ⟨l, .nowhere⟩) []
      (by simp [Function.comp_def]) (.inl (endsLevel_eof 0))
  obtain ⟨-, found, hfound, rfl⟩ := htakes hs
  obtain ⟨-, other, hother, rfl⟩ := htakes ht
  rw [Option.some.inj (hfound.symm.trans hother)]

/-- An expression is parsed by the grammar. Whatever the tokens are and whatever is wrong with what
they say, a tree that is returned is derived by the tokens that were consumed for it, within the
limits of nesting. Where tokens in front derive a tree within the limits and the next one does not
go on with them, they are consumed, all of them and no others, and this is the tree, up to places
and types. It is the only one that they derive. -/
theorem expression_grammatical (env : Env) (tokens : List Token) :
    (∀ e ∈ (expression env tokens).result, ∃ used, tokens = used ++ (expression env tokens).rest ∧
      Derives env.registry (used.map Token.lexeme) e.bare) ∧
    (∀ used rest t, tokens = used ++ rest → Derives env.registry (used.map Token.lexeme) t →
      Follows env.registry 0 1 (used.map Token.lexeme) (tokenAt 0 rest) →
      (∃ e ∈ (expression env tokens).result, e.bare = t) ∧ (expression env tokens).rest = rest ∧
        ∀ other, Derives env.registry (used.map Token.lexeme) other → other = t) := by
  refine ⟨expression_derives env tokens trivial, ?_⟩
  rintro used rest t rfl hderives hfollows
  obtain ⟨hrest, e, hresult, he⟩ := expression_takes hderives used rest rfl hfollows
  exact ⟨⟨e, hresult, he⟩, hrest, fun other hother => hother.unique hderives⟩

/-- Lexemes that say `f(-1, b.c)`. -/
def callLexemes : List Lexeme :=
  [.name "f", .symbol .leftParen, .symbol .minus, .integer 1, .symbol .comma, .name "b",
    .symbol .dot, .name "c", .symbol .rightParen]

def callItems : List Item :=
  [⟨none, [.symbol .minus, .integer 1], .literal .blank (.long (-1))⟩,
    ⟨none, [.name "b", .symbol .dot, .name "c"], .access .blank (.var .blank "b") "c"⟩]

def callTree : Expr :=
  (Registry.builtin 0).callTree "f" (callItems.map fun i => ⟨i.key?, i.tree⟩)

theorem callTree_derived : Phrase (.builtin 0) 1 10 callLexemes callTree := by
  have hcall : Bracketed (.builtin 0) [.name "f", .symbol .leftParen] .rightParen callItems
      callTree := .call (by decide) (by simp [callItems])
  refine .list hcall (fun _ => Nat.one_pos) ?_
  have hnumber : Phrase (.builtin 0) 0 10 [.symbol .minus, .integer 1]
      (.literal .blank (.long (-1))) :=
    .atom (@Atom.negative (.integer 1) (.long 1) rfl)
  have hminus : Phrase (.builtin 0) 0 1 [.symbol .minus, .integer 1]
      (.literal .blank (.long (-1))) := hnumber.loosen (by decide) (by decide)
  have hobject : Phrase (.builtin 0) 0 9 [.name "b"] (.var .blank "b") :=
    .ofVariable (by decide) (by decide)
  have hfield : Phrase (.builtin 0) 0 9 [.name "b", .symbol .dot, .name "c"]
      (.access .blank (.var .blank "b") "c") := .access rfl hobject
  have haccess : Phrase (.builtin 0) 0 1 [.name "b", .symbol .dot, .name "c"]
      (.access .blank (.var .blank "b") "c") := hfield.loosen (by decide) (by decide)
  simpa [callItems] using And.intro hminus haccess

/-- Lexemes that say `not f(-1, b.c) and x`. -/
def guardLexemes : List Lexeme := .name "not" :: callLexemes ++ [.name "and", .name "x"]

def guardTokens : List Token := guardLexemes.map fun l => ⟨l, .nowhere⟩

def guardTree : Expr :=
  .binary .blank .and (.unary .blank .not callTree) (.var .blank "x")

theorem guardTree_derived : Derives (.builtin 0) (guardTokens.map Token.lexeme) guardTree := by
  have hcall : Phrase (.builtin 0) 1 3 callLexemes callTree :=
    callTree_derived.loosen (by decide) (by decide)
  have hnot : Phrase (.builtin 0) 2 2 (.name "not" :: callLexemes) (.unary .blank .not callTree) :=
    .up (.sign (.word (by decide)) hcall) (by simp)
  have hvar : Phrase (.builtin 0) 2 3 [.name "x"] (.var .blank "x") :=
    .ofVariable (by decide) (by decide)
  have hand : Phrase (.builtin 0) 2 1 guardLexemes guardTree :=
    .up (.join (by decide) rfl hnot hvar) (by simp)
  exact ⟨⟨2, by decide, hand⟩, by decide +kernel⟩

/-- The words before `then` are a whole expression, and `then` is left. -/
theorem expression_grammatical_guardTokens :
    let env : Env := ⟨.builtin 0, [], true⟩
    let tokens := guardTokens ++ [⟨.name "then", .nowhere⟩]
    ∃ e ∈ (expression env tokens).result, e.bare = guardTree ∧
      (expression env tokens).rest = [⟨.name "then", .nowhere⟩] ∧
      Derives (.builtin 0) (guardTokens.map Token.lexeme) e.bare := by
  intro env tokens
  have hends : (Lexeme.name "then").EndsLevel 0 := by
    refine endsLevel_of_none (fun j => ?_) (by simp) 0
    refine Option.eq_none_iff_forall_not_mem.mpr fun op hop => ?_
    cases (operatorAt?_eq_some.mp hop).1
  obtain ⟨hderived, htaken⟩ := expression_grammatical env tokens
  obtain ⟨⟨e, hresult, he⟩, hrest, -⟩ :=
    htaken guardTokens [⟨.name "then", .nowhere⟩] guardTree rfl guardTree_derived (.inl hends)
  obtain ⟨used, hused, hphrase⟩ := hderived e hresult
  rw [hrest] at hused
  rw [← List.append_cancel_right hused] at hphrase
  exact ⟨e, hresult, he, hrest, hphrase⟩

end LogRules.Grammar
