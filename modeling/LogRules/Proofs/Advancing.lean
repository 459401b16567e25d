import LogRules.Grammar.Declaration
import LogRules.Proofs.Tracking

/-!
What is left of the tokens behind a parser. The end of the tokens is never consumed, whatever stands
before it, and some replies are found only behind a token that was.
-/
namespace LogRules

/-- Tokens up to an end. Others may stand before it, ends among them. -/
def Ended (tokens : List Token) : Prop := ∃ last ∈ tokens.getLast?, last.lexeme = .eof

/-- What is left of tokens when parsing goes on: a part behind, with the end. -/
def Remains (rest tokens : List Token) : Prop := rest <:+ tokens ∧ rest ≠ []

section Remains

variable {tokens rest left : List Token} {t : Token}

theorem Ended.ne_nil (h : Ended tokens) : tokens ≠ [] := by
  rintro rfl
  obtain ⟨_, hlast, -⟩ := h
  cases hlast

theorem Ended.remains (h : Ended tokens) : Remains tokens tokens :=
  ⟨List.suffix_refl _, h.ne_nil⟩

theorem Ended.of_remains (h : Ended tokens) (hrest : Remains rest tokens) : Ended rest := by
  obtain ⟨last, hlast, heof⟩ := h
  obtain ⟨used, rfl⟩ := hrest.1
  exact ⟨last, by rwa [List.getLast?_append_of_ne_nil _ hrest.2] at hlast, heof⟩

theorem Ended.tail (h : Ended (t :: rest)) (ht : t.lexeme ≠ .eof) : Remains rest (t :: rest) := by
  refine ⟨List.suffix_cons t rest, ?_⟩
  rintro rfl
  obtain ⟨last, hlast, heof⟩ := h
  obtain rfl := Option.some.inj hlast
  exact ht heof

theorem Remains.trans (h : Remains rest left) (h' : Remains left tokens) : Remains rest tokens :=
  ⟨h.1.trans h'.1, h.2⟩

theorem Remains.length_le (h : Remains rest tokens) : rest.length ≤ tokens.length :=
  h.1.length_le

end Remains

namespace Parse

variable {α β : Type} {F : Lexeme → Prop} {p : Parse α} {f : α → Parse β} {Q : Option α → Prop}
  {R : Option β → Prop}

/-- Where the first lexeme is in `F`, the parser goes on with a rest of the tokens. Where the result
has the property `Q`, at least one token was consumed. -/
def Advances (F : Lexeme → Prop) (p : Parse α) (Q : Option α → Prop) : Prop :=
  ∀ tokens, Ended tokens → F (tokenAt 0 tokens) → Remains (p tokens).rest tokens ∧
    (Q (p tokens).result → (p tokens).rest.length < tokens.length)

/-- A parser that goes on with a rest of the tokens. -/
abbrev Proceeds (p : Parse α) : Prop := Advances (fun _ => True) p fun _ => False

/-- A parser that has a result only behind a token that it has consumed. -/
abbrev Eats (p : Parse α) : Prop := Advances (fun _ => True) p (·.isSome)

theorem Advances.mono {F' : Lexeme → Prop} {Q' : Option α → Prop} (hp : Advances F p Q)
    (hF : ∀ l, F' l → F l) (hQ : ∀ r, Q' r → Q r) : Advances F' p Q' := fun tokens h hfirst =>
  (hp tokens h (hF _ hfirst)).imp_right fun hless hresult => hless (hQ _ hresult)

theorem Proceeds.anywhere (hp : Proceeds p) : Advances F p fun _ => False :=
  hp.mono (fun _ _ => trivial) fun _ h => h

theorem Eats.proceeds (hp : Eats p) : Proceeds p := hp.mono (fun _ h => h) fun _ h => h.elim

theorem advances_pure (a : α) (h : ¬ Q (some a)) : Advances F (pure a) Q :=
  fun _ hended _ => ⟨hended.remains, fun hresult => absurd hresult h⟩

theorem proceeds_pure (a : α) : Proceeds (pure a : Parse α) := advances_pure a id

/-- What counts as consuming behind the first parser need not count there any more where the first
has consumed something. -/
theorem Advances.bind (hp : Advances F p Q) (hnone : R none → Q none)
    (hf : ∀ a, Advances (fun _ => True) (f a) fun r => R r ∧ ¬ Q (some a)) :
    Advances F (p >>= f) R := by
  intro tokens hended hfirst
  have hbind : (p >>= f) tokens = Parse.bind p f tokens := rfl
  obtain ⟨hrest, hless⟩ := hp tokens hended hfirst
  rw [hbind, Parse.bind]
  cases hresult : (p tokens).result with
  | none =>
    rw [hresult] at hless
    exact ⟨hrest, fun h => hless (hnone h)⟩
  | some a =>
    rw [hresult] at hless
    obtain ⟨hrest', hless'⟩ := hf a _ (hended.of_remains hrest) trivial
    refine ⟨hrest'.trans hrest, fun h => ?_⟩
    by_cases ha : Q (some a)
    · exact Nat.lt_of_le_of_lt hrest'.length_le (hless ha)
    · exact Nat.lt_of_lt_of_le (hless' ⟨h, ha⟩) hrest.length_le

theorem Proceeds.bind (hp : Proceeds p) (hf : ∀ a, Proceeds (f a)) : Proceeds (p >>= f) :=
  Advances.bind hp id fun a => (hf a).mono (fun _ h => h) fun _ h => h.1

/-- Behind a parser that goes on, where a failure of it does not count. -/
theorem Proceeds.after (hp : Proceeds p) (hnone : ¬ R none)
    (hf : ∀ a, Advances (fun _ => True) (f a) R) : Advances F (p >>= f) R :=
  hp.anywhere.bind hnone fun a => (hf a).mono (fun _ h => h) fun _ h => h.1

/-- Behind a parser that eats, where a failure of it does not count. -/
theorem Eats.after (hp : Eats p) (hnone : ¬ R none) (hf : ∀ a, Proceeds (f a)) :
    Advances F (p >>= f) R :=
  (hp.mono (fun _ _ => trivial) fun _ h => h).bind (fun h => absurd h hnone) fun a =>
    (hf a).mono (fun _ h => h) fun _ h => h.2 rfl

theorem Eats.bind (hp : Eats p) (hf : ∀ a, Proceeds (f a)) : Eats (p >>= f) :=
  hp.after (by simp) hf

/-- Behind a parser that consumes something in any case. -/
theorem Advances.always (hp : Advances F p fun _ => True) (hf : ∀ a, Proceeds (f a)) :
    Advances F (p >>= f) R :=
  hp.bind (fun _ => trivial) fun a => (hf a).mono (fun _ h => h) fun _ h => h.2 trivial

theorem Advances.attempt {Q : Option (Option α) → Prop} (hp : Advances F p fun r => Q (some r)) :
    Advances F (attempt p) Q :=
  hp

theorem peek_eq (tokens : List Token) : peek 0 tokens = ⟨[], tokens, some (tokenAt 0 tokens)⟩ := rfl

theorem atKeyword_eq (word : String) (tokens : List Token) :
    atKeyword word tokens = ⟨[], tokens, some ((tokenAt 0 tokens).isKeyword word)⟩ := rfl

theorem attempt_eq {tokens rest : List Token} {errors : List Diagnostic} {result : Option α}
    (h : p tokens = ⟨errors, rest, result⟩) : attempt p tokens = ⟨errors, rest, some result⟩ := by
  rw [Parse.attempt, h]

section Steps

theorem advances_here {f : Position → Parse β} (h : ∀ p, Advances F (f p) R) :
    Advances F (here >>= f) R :=
  fun tokens => h (positionOf tokens) tokens

theorem advances_remaining {f : Nat → Parse β} (h : ∀ n, Advances F (f n) R) :
    Advances F (remaining >>= f) R :=
  fun tokens => h tokens.length tokens

theorem advances_peek {f : Lexeme → Parse β} (h : ∀ l, F l → Advances (· = l) (f l) R) :
    Advances F (peek 0 >>= f) R :=
  fun tokens hended hfirst => h (tokenAt 0 tokens) hfirst tokens hended rfl

theorem advances_peekSecond {f : Lexeme → Parse β} (h : ∀ l, Advances F (f l) R) :
    Advances F (peek 1 >>= f) R :=
  fun tokens => h (tokenAt 1 tokens) tokens

theorem advances_atKeyword {word : String} {f : Bool → Parse β}
    (h : ∀ found, Advances (fun l => F l ∧ l.isKeyword word = found) (f found) R) :
    Advances F (atKeyword word >>= f) R :=
  fun tokens hended hfirst => h _ tokens hended ⟨hfirst, rfl⟩

theorem advances_advance : Advances (· ≠ .eof) advance fun _ => True := by
  intro tokens hended hfirst
  cases tokens with
  | nil => exact absurd rfl hended.ne_nil
  | cons t rest =>
    have hbehind : behind (t :: rest) = rest := if_neg hfirst
    rw [advance, hbehind]
    exact ⟨hended.tail hfirst, fun _ => Nat.lt_succ_self _⟩

theorem proceeds_advance : Proceeds advance := by
  intro tokens hended _
  by_cases hfirst : tokenAt 0 tokens = .eof
  · have hstays : behind tokens = tokens := by
      cases tokens with
      | nil => rfl
      | cons t rest => exact if_pos hfirst
    rw [advance, hstays]
    exact ⟨hended.remains, False.elim⟩
  · exact ⟨(advances_advance tokens hended hfirst).1, False.elim⟩

theorem advances_step {f : Unit → Parse β} (hF : ∀ l, F l → l ≠ .eof) (hf : Proceeds (f ())) :
    Advances F (advance >>= f) R :=
  (advances_advance.mono hF fun _ h => h).always fun _ => hf

theorem proceeds_reportAll (errors : List Diagnostic) : Proceeds (reportAll errors) :=
  fun _ hended _ => ⟨hended.remains, False.elim⟩

theorem eats_failAt (position : Position) (problem : Problem) :
    Eats (failAt position problem : Parse α) :=
  fun _ hended _ => ⟨hended.remains, fun h => by cases h⟩

theorem eats_unexpected (expected : String) : Eats (unexpected expected : Parse α) :=
  fun _ hended _ => ⟨hended.remains, fun h => by cases h⟩

theorem proceeds_skip {s : List Token → List Token}
    (h : ∀ tokens, Ended tokens → Remains (s tokens) tokens) : Proceeds (Grammar.skip s) :=
  fun tokens hended _ => ⟨h tokens hended, False.elim⟩

theorem advances_eatIf {test : Lexeme → Bool} {f : Bool → Parse β} (heof : test .eof = false)
    (htrue : Proceeds (f true)) (hfalse : Advances (fun l => F l ∧ test l = false) (f false) R) :
    Advances F (eatIf test >>= f) R := by
  intro tokens hended hfirst
  by_cases htest : test (tokenAt 0 tokens) = true
  · have heat : eatIf test tokens = ⟨[], behind tokens, some true⟩ := by
      rw [eatIf_eq, if_pos htest]
    have hne : tokenAt 0 tokens ≠ .eof := by
      intro h
      rw [h, heof] at htest
      cases htest
    obtain ⟨hrest, hless⟩ := advances_advance tokens hended hne
    obtain ⟨hrest', -⟩ := htrue _ (hended.of_remains hrest) trivial
    rw [bind_eq heat]
    exact ⟨hrest'.trans hrest, fun _ => Nat.lt_of_le_of_lt hrest'.length_le (hless trivial)⟩
  · have heat : eatIf test tokens = ⟨[], tokens, some false⟩ := by
      rw [eatIf_eq, if_neg htest]
    rw [bind_eq heat]
    exact hfalse tokens hended ⟨hfirst, (Bool.not_eq_true _).mp htest⟩

theorem proceeds_eatIf (test : Lexeme → Bool) : Proceeds (eatIf test) := by
  refine advances_peek fun l _ => ?_
  split
  · exact (proceeds_advance.bind fun _ => proceeds_pure true).anywhere
  · exact (proceeds_pure false).anywhere

theorem eats_expect (symbol : Symbol) (expected : String) : Eats (expect symbol expected) :=
  advances_eatIf rfl (proceeds_pure ()) ((eats_unexpected expected).mono (fun _ _ => trivial)
    fun _ h => h)

theorem eats_expectKeyword (word : String) : Eats (expectKeyword word) :=
  advances_eatIf rfl (proceeds_pure ()) ((eats_unexpected _).mono (fun _ _ => trivial)
    fun _ h => h)

/-- A word that stands there is consumed. -/
theorem advances_expectKeyword (word : String) :
    Advances (·.isKeyword word = true) (expectKeyword word) fun _ => True := by
  refine advances_eatIf rfl (proceeds_pure ()) fun tokens _ hfirst => ?_
  exact absurd (hfirst.1.symm.trans hfirst.2) (by decide)

theorem eats_expectString (expected : String) : Eats (expectString expected) := by
  refine advances_peek fun l _ => ?_
  split
  · refine advances_step ?_ (proceeds_pure _)
    rintro _ rfl
    simp
  · exact (eats_unexpected expected).mono (fun _ _ => trivial) fun _ h => h

theorem eats_expectName (expected : String) : Eats (expectName expected) := by
  refine advances_peek fun l _ => ?_
  split
  iterate 2
    · refine advances_step ?_ (proceeds_pure _)
      rintro _ rfl
      simp
  · exact (eats_unexpected expected).mono (fun _ _ => trivial) fun _ h => h

end Steps

end Parse

end LogRules
