import LogRules.Proofs.Answers

/-!
What parsers consume on the way to a result, whether or not they report anything.
-/
namespace LogRules

namespace Parse

variable {α β : Type} {F F' : List Token → Prop} {p : Parse α} {f : α → Parse β}
  {Q Q' : List Lexeme → α → Prop} {R : List Lexeme → β → Prop}

/-- Where `F` is true of the tokens, the parser consumes lexemes that go with its result. -/
def Consumes (F : List Token → Prop) (p : Parse α) (Q : List Lexeme → α → Prop) : Prop :=
  ∀ tokens, F tokens → ∀ a ∈ (p tokens).result,
    ∃ used, tokens = used ++ (p tokens).rest ∧ Q (used.map Token.lexeme) a

/-- Wherever a parser starts, it consumes lexemes that go with its result. -/
abbrev AlwaysConsumes (p : Parse α) (Q : List Lexeme → α → Prop) : Prop :=
  Consumes (fun _ => True) p Q

theorem Consumes.mono (hp : Consumes F p Q) (hF : ∀ tokens, F' tokens → F tokens)
    (hQ : ∀ ls a, Q ls a → Q' ls a) : Consumes F' p Q' := by
  intro tokens htokens a ha
  obtain ⟨used, hused, h⟩ := hp tokens (hF tokens htokens) a ha
  exact ⟨used, hused, hQ _ a h⟩

theorem AlwaysConsumes.anywhere (hp : AlwaysConsumes p Q) : Consumes F p Q :=
  hp.mono (fun _ _ => trivial) fun _ _ h => h

theorem consumes_pure {a : α} (h : Q [] a) : Consumes F (pure a) Q := by
  intro tokens _ b hb
  cases hb
  exact ⟨[], rfl, h⟩

theorem consumes_none (h : ∀ tokens, (p tokens).result = none) : Consumes F p Q := by
  intro tokens _ a ha
  rw [h] at ha
  cases ha

theorem consumes_unexpected (expected : String) : Consumes F (unexpected expected) Q :=
  consumes_none fun _ => rfl

theorem Consumes.bind (hp : Consumes F p Q)
    (hf : ∀ ls a, Q ls a → AlwaysConsumes (f a) fun ls' => R (ls ++ ls')) :
    Consumes F (p >>= f) R := by
  intro tokens htokens b hb
  have hbind : (p >>= f) tokens = Parse.bind p f tokens := rfl
  rw [hbind, Parse.bind] at hb ⊢
  cases ha : (p tokens).result with
  | none =>
    rw [ha] at hb
    cases hb
  | some a =>
    rw [ha] at hb
    obtain ⟨used, hused, hQ⟩ := hp tokens htokens a ha
    obtain ⟨more, hmore, hR⟩ := hf _ a hQ (p tokens).rest trivial b hb
    refine ⟨used ++ more, ?_, by rwa [List.map_append]⟩
    rw [List.append_assoc, ← hmore]
    exact hused

theorem Consumes.map {g : α → β} (hp : Consumes F p Q) (h : ∀ ls a, Q ls a → R ls (g a)) :
    Consumes F (do return g (← p)) R :=
  hp.bind fun ls a ha => consumes_pure (by
    rw [List.append_nil]
    exact h ls a ha)

/-- The first lexeme that is consumed is the first one that stands there. -/
theorem AlwaysConsumes.first {G : Lexeme → Prop} (hp : AlwaysConsumes p Q)
    (hF : ∀ tokens, F tokens → G (tokenAt 0 tokens)) :
    Consumes F p fun ls a => Q ls a ∧ ∀ l ∈ ls.head?, G l := by
  intro tokens htokens a ha
  obtain ⟨used, hused, hQ⟩ := hp tokens trivial a ha
  refine ⟨used, hused, hQ, fun l hl => ?_⟩
  have hfirst := hF tokens htokens
  obtain _ | ⟨t, used⟩ := used
  · cases hl
  · obtain rfl : t.lexeme = l := by simpa using hl
    rwa [hused] at hfirst

theorem consumes_here {f : Position → Parse β} (h : ∀ p, Consumes F (f p) R) :
    Consumes F (here >>= f) R :=
  fun tokens htokens => h (positionOf tokens) tokens htokens

theorem consumes_remaining {f : Nat → Parse β} (h : ∀ n, Consumes F (f n) R) :
    Consumes F (remaining >>= f) R :=
  fun tokens htokens => h tokens.length tokens htokens

theorem consumes_peek {n : Nat} {f : Lexeme → Parse β}
    (h : ∀ l, Consumes (fun tokens => F tokens ∧ tokenAt n tokens = l) (f l) R) :
    Consumes F (peek n >>= f) R :=
  fun tokens htokens => h (tokenAt n tokens) tokens ⟨htokens, rfl⟩

/-- One lexeme, which is known already, is consumed. -/
theorem consumes_advance {l : Lexeme} {f : Unit → Parse β}
    (hF : ∀ tokens, F tokens → tokenAt 0 tokens = l) (hl : l ≠ .eof)
    (h : Consumes (fun rest => ∃ t, F (t :: rest)) (f ()) fun ls => R (l :: ls)) :
    Consumes F (advance >>= f) R := by
  intro tokens htokens b hb
  have hfirst := hF tokens htokens
  obtain _ | ⟨t, rest⟩ := tokens
  · exact absurd hfirst.symm hl
  rw [tokenAt_zero_cons] at hfirst
  have hadvance : advance (t :: rest) = ⟨[], rest, some ()⟩ := by
    rw [advance, behind, if_neg (by rwa [hfirst])]
  rw [bind_eq hadvance] at hb ⊢
  obtain ⟨used, hused, hR⟩ := h rest ⟨t, htokens⟩ b hb
  refine ⟨t :: used, ?_, ?_⟩
  · rw [List.cons_append, ← hused]
  · rwa [List.map_cons, hfirst]

theorem consumes_eatIf {test : Lexeme → Bool} {f : Bool → Parse β} (heof : test .eof = false)
    (htrue : ∀ l, test l = true → AlwaysConsumes (f true) fun ls => R (l :: ls))
    (hfalse : Consumes (fun tokens => F tokens ∧ test (tokenAt 0 tokens) = false) (f false) R) :
    Consumes F (eatIf test >>= f) R := by
  intro tokens htokens b hb
  by_cases htest : test (tokenAt 0 tokens) = true
  · obtain _ | ⟨t, rest⟩ := tokens
    · exact absurd (heof.symm.trans htest) Bool.false_ne_true
    rw [tokenAt_zero_cons] at htest
    have hne : t.lexeme ≠ .eof := by
      intro h
      rw [h, heof] at htest
      cases htest
    have heat : eatIf test (t :: rest) = ⟨[], rest, some true⟩ := by
      rw [eatIf_eq, tokenAt_zero_cons, if_pos htest, behind, if_neg hne]
    rw [bind_eq heat] at hb ⊢
    obtain ⟨used, hused, hR⟩ := htrue _ htest rest trivial b hb
    exact ⟨t :: used, by rw [List.cons_append, ← hused], hR⟩
  · have heat : eatIf test tokens = ⟨[], tokens, some false⟩ := by
      rw [eatIf_eq, if_neg htest]
    rw [bind_eq heat] at hb ⊢
    exact hfalse tokens ⟨htokens, (Bool.not_eq_true _).mp htest⟩ b hb

theorem consumes_eat {symbol : Symbol} {f : Bool → Parse β}
    (htrue : AlwaysConsumes (f true) fun ls => R (.symbol symbol :: ls))
    (hfalse : Consumes F (f false) R) : Consumes F (eat symbol >>= f) R := by
  refine consumes_eatIf rfl (fun l hl => ?_) (hfalse.mono (fun _ h => h.1) fun _ _ h => h)
  obtain rfl : l = .symbol symbol := by simpa using hl
  exact htrue

theorem consumes_expect (symbol : Symbol) (expected : String) :
    AlwaysConsumes (expect symbol expected) fun ls _ => ls = [.symbol symbol] :=
  consumes_eat (consumes_pure rfl) (consumes_unexpected expected)

theorem consumes_expectName (expected : String) :
    AlwaysConsumes (expectName expected) fun ls name =>
      ls = [.name name] ∨ ls = [.quotedName name] := by
  refine consumes_peek fun l => ?_
  split
  · exact consumes_advance (fun _ h => h.2) (by simp) (consumes_pure (.inl rfl))
  · exact consumes_advance (fun _ h => h.2) (by simp) (consumes_pure (.inr rfl))
  · exact consumes_unexpected expected

section Lists

variable {γ δ : Type} {item : Parse α} {text : γ → List Lexeme} {P : γ → Prop} {f : γ → δ}
  {g : α → δ} (hitem : AlwaysConsumes item fun ls a => ∃ x, text x = ls ∧ P x ∧ f x = g a)

include hitem

theorem consumes_separatedLoop (close : Symbol) (expected : String) (fuel : Nat) :
    AlwaysConsumes (separatedLoop item close expected fuel) fun ls as => ∃ xs : List γ, xs ≠ [] ∧
      ls = [.symbol .comma].intercalate (xs.map text) ++ [.symbol close] ∧ (∀ x ∈ xs, P x) ∧
      xs.map f = as.map g := by
  induction fuel with
  | zero => exact consumes_unexpected expected
  | succ fuel ih =>
    refine hitem.bind ?_
    rintro _ a ⟨x, rfl, hx, hfg⟩
    refine consumes_eat ?_ ?_
    · exact consumes_pure ⟨[x], by simp, by simp, by simpa using hx, by simpa using hfg⟩
    · refine (consumes_expect .comma expected).bind fun _ _ hcomma => ih.map ?_
      rintro ls rest ⟨xs, hxs, rfl, hmore, hrest⟩
      obtain ⟨y, ys, rfl⟩ := List.exists_cons_of_ne_nil hxs
      refine ⟨x :: y :: ys, by simp, ?_, List.forall_mem_cons.mpr ⟨hx, hmore⟩, ?_⟩
      · simp only [hcomma, List.map_cons, List.intercalate_cons_cons, List.append_assoc]
      · rw [List.map_cons, hrest, hfg, List.map_cons]

/-- A list between brackets is consumed item by item. -/
theorem consumes_separated (close : Symbol) (expected : String) :
    AlwaysConsumes (separated item close expected) fun ls as => ∃ xs : List γ,
      ls = [.symbol .comma].intercalate (xs.map text) ++ [.symbol close] ∧ (∀ x ∈ xs, P x) ∧
      xs.map f = as.map g := by
  refine consumes_eat (consumes_pure ⟨[], rfl, by simp, rfl⟩) (consumes_remaining fun fuel => ?_)
  refine (consumes_separatedLoop hitem close expected fuel).mono (fun _ h => h) ?_
  rintro ls as ⟨xs, -, h⟩
  exact ⟨xs, h⟩

end Lists

end Parse

end LogRules
