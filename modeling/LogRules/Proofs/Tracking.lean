import LogRules.Proofs.Answers
import LogRules.Proofs.Relocation

/-!
Parsing the same tokens twice: once before the end of a source, and once at another place, where
other tokens may follow. Both answers are the same up to the places, if the same end follows, or if
nothing is wrong and enough tokens are left over that what follows them was not looked at.
-/
namespace LogRules

/-- Tokens of which none is an end. -/
def Inner (tokens : List Token) : Prop := ∀ t ∈ tokens, t.lexeme ≠ .eof

theorem Inner.suffix {tokens left : List Token} (h : Inner tokens) (hleft : left <:+ tokens) :
    Inner left :=
  fun t ht => h t (hleft.mem ht)

namespace Parse

variable {α β α' β' : Type} {move : Position → Position}

theorem errors_bind {p : Parse α} {f : α → Parse β} {tokens : List Token}
    (h : ((p >>= f) tokens).errors = []) : (p tokens).errors = [] ∧
      ∀ a, (p tokens).result = some a → (f a (p tokens).rest).errors = [] := by
  have hbind : (p >>= f) tokens = Parse.bind p f tokens := rfl
  rw [hbind, Parse.bind] at h
  cases hresult : (p tokens).result with
  | none =>
    simp only [hresult] at h
    exact ⟨h, fun a ha => by cases ha⟩
  | some a =>
    simp only [hresult, List.append_eq_nil_iff] at h
    refine ⟨h.1, fun b hb => ?_⟩
    cases hb
    exact h.2

/-- Parser `p` on the tokens before an end, and parser `q` on the moved tokens before anything. If
`p` reports nothing, it has a result; if it has a result and `eats`, it has consumed a token. With
the tokens left over, `sure` says that what follows them does not matter, and `g` moves a result. -/
def Tracks (move : Position → Position) (g : α → α') (sure : List Token → Prop) (eats : Prop)
    (p : Parse α) (q : Parse α') (tokens : List Token) : Prop :=
  ∀ (last : Token) (behind : List Token), Inner tokens → last.lexeme = .eof → behind ≠ [] →
    ∃ errors left result, p (tokens ++ [last]) = ⟨errors, left ++ [last], result⟩ ∧
      left <:+ tokens ∧ (errors = [] → result.isSome) ∧
      (result.isSome → eats → left.length < tokens.length) ∧
      (behind = [last.relocate move] ∨ errors = [] ∧ sure left →
        q (tokens.map (Token.relocate move) ++ behind) =
          ⟨errors.map (Diagnostic.relocate move), left.map (Token.relocate move) ++ behind,
            result.map g⟩)

theorem Tracks.rest {g : α → α'} {sure : List Token → Prop} {eats : Prop} {p : Parse α}
    {q : Parse α'} {tokens : List Token} (h : Tracks move g sure eats p q tokens)
    (hinner : Inner tokens) {last : Token} (hlast : last.lexeme = .eof) :
    ∃ left, (p (tokens ++ [last])).rest = left ++ [last] ∧ left <:+ tokens := by
  obtain ⟨errors, left, result, hp, hleft, -⟩ := h last [last] hinner hlast (by simp)
  exact ⟨left, by rw [hp], hleft⟩

theorem result_bind {p : Parse α} {f : α → Parse β} {tokens : List Token} {a : α}
    (h : (p tokens).result = some a) :
    ((p >>= f) tokens).result = (f a (p tokens).rest).result := by
  have hbind : (p >>= f) tokens = Parse.bind p f tokens := rfl
  rw [hbind, Parse.bind, h]

theorem bind_pure_eq (p : Parse α) (f : α → β) (tokens : List Token) :
    (p >>= fun a => pure (f a)) tokens =
      ⟨(p tokens).errors, (p tokens).rest, (p tokens).result.map f⟩ := by
  have hbind : (p >>= fun a => pure (f a)) tokens =
    Parse.bind p (fun a => Parse.pure (f a)) tokens := rfl
  rw [hbind, Parse.bind]
  cases (p tokens).result with
  | none => rfl
  | some a => simp only [Parse.pure, List.append_nil, Option.map_some]

theorem bind_congr_left {p q : Parse α} {tokens tokens' : List Token} (h : p tokens = q tokens')
    (f : α → Parse β) : (p >>= f) tokens = (q >>= f) tokens' := by
  have hbind (p : Parse α) (tokens : List Token) : (p >>= f) tokens = Parse.bind p f tokens := rfl
  rw [hbind, hbind, Parse.bind, Parse.bind, h]

/-- One more token has to be left over. -/
abbrev OneMore (left : List Token) : Prop := left ≠ []

section Steps

variable {g : β → β'} {sure sure' : List Token → Prop} {eats eats' : Prop} {tokens : List Token}

theorem Tracks.mono {p : Parse β} {q : Parse β'} (h : Tracks move g sure' eats' p q tokens)
    (hsure : ∀ left, sure left → sure' left) (heats : eats → eats') :
    Tracks move g sure eats p q tokens := by
  intro last behind hinner hlast hbehind
  obtain ⟨errors, left, result, hp, hleft, hsome, heaten, hq⟩ := h last behind hinner hlast hbehind
  refine ⟨errors, left, result, hp, hleft, hsome, fun hr h => heaten hr (heats h), fun h => hq ?_⟩
  exact h.imp_right fun h => ⟨h.1, hsure left h.2⟩

theorem Tracks.of_eats {p : Parse β} {q : Parse β'} (h : Tracks move g sure True p q tokens) :
    Tracks move g sure eats p q tokens :=
  h.mono (fun _ h => h) fun _ => trivial

theorem tracks_pure {a : β} {b : β'} (h : g a = b) :
    Tracks move g sure False (pure a) (pure b) tokens := by
  intro last behind hinner hlast hbehind
  refine ⟨[], tokens, some a, rfl, List.suffix_refl _, fun _ => rfl, fun _ h => h.elim, fun _ => ?_⟩
  rw [← h]
  rfl

/-- A parser behind another one. The second has to eat, or to ask for more tokens behind it, where
the first is not sure of its answer. -/
theorem Tracks.bind_of {h : α → α'} {p : Parse α} {q : Parse α'} {f : α → Parse β}
    {f' : α' → Parse β'} (hp : Tracks move h sure' eats' p q tokens)
    (hf : ∀ a left, left <:+ tokens → (eats' → left.length < tokens.length) →
      Tracks move g sure eats (f a) (f' (h a)) left)
    (hsure : ∀ left left' : List Token, left' <:+ left → (eats → left'.length < left.length) →
      sure left' → sure' left) :
    Tracks move g sure (eats' ∨ eats) (p >>= f) (q >>= f') tokens := by
  intro last behind hinner hlast hbehind
  obtain ⟨errors, left, result, hpeq, hleft, hsome, heaten, hq⟩ :=
    hp last behind hinner hlast hbehind
  have hfirst : (p >>= f) (tokens ++ [last]) = Parse.bind p f (tokens ++ [last]) := rfl
  have hsecond : (q >>= f') (tokens.map (Token.relocate move) ++ behind) =
      Parse.bind q f' (tokens.map (Token.relocate move) ++ behind) := rfl
  rw [hfirst, hsecond, Parse.bind, Parse.bind, hpeq]
  cases result with
  | none =>
    refine ⟨errors, left, none, rfl, hleft, fun h => hsome h, fun h => (by cases h), fun h => ?_⟩
    rw [hq (h.imp_right fun h => absurd (hsome h.1) (by simp))]
    rfl
  | some a =>
    have heaten : eats' → left.length < tokens.length := heaten rfl
    obtain ⟨errors', left', result', hfeq, hleft', hsome', heaten', hq'⟩ :=
      hf a left hleft heaten last behind (hinner.suffix hleft) hlast hbehind
    refine ⟨errors ++ errors', left', result', ?_, hleft'.trans hleft, ?_, ?_, fun h => ?_⟩
    · simp only [hfeq]
    · intro h
      exact hsome' (List.append_eq_nil_iff.mp h).2
    · intro hr h
      have hlength := hleft.length_le
      have hlength' := hleft'.length_le
      obtain h | h := h
      · have := heaten h
        omega
      · have := heaten' hr h
        omega
    · have hclean : errors ++ errors' = [] ∧ sure left' → errors = [] ∧ sure' left := by
        intro h
        have hnil := List.append_eq_nil_iff.mp h.1
        exact ⟨hnil.1, hsure left left' hleft' (heaten' (hsome' hnil.2)) h.2⟩
      rw [hq (h.imp_right hclean)]
      simp only [Option.map_some]
      rw [hq' (h.imp_right fun h => ⟨(List.append_eq_nil_iff.mp h.1).2, h.2⟩), List.map_append]

/-- The usual case: neither of the parsers looks further than one token ahead. -/
theorem Tracks.bind {h : α → α'} {p : Parse α} {q : Parse α'} {f : α → Parse β}
    {f' : α' → Parse β'} (hp : Tracks move h OneMore eats p q tokens)
    (hf : ∀ a left, left <:+ tokens → (eats → left.length < tokens.length) →
      Tracks move g OneMore False (f a) (f' (h a)) left) :
    Tracks move g OneMore eats (p >>= f) (q >>= f') tokens := by
  refine (hp.bind_of hf fun left left' hleft _ hmore hnil => ?_).mono (fun _ h => h) .inl
  subst hnil
  exact hmore (List.eq_nil_of_suffix_nil hleft)

/-- A parser behind one that eats has fewer tokens. -/
theorem Tracks.after {h : α → α'} {p : Parse α} {q : Parse α'} {f : α → Parse β}
    {f' : α' → Parse β'} (hp : Tracks move h OneMore True p q tokens)
    (hf : ∀ a left, left <:+ tokens → left.length < tokens.length →
      Tracks move g OneMore False (f a) (f' (h a)) left) :
    Tracks move g OneMore eats (p >>= f) (q >>= f') tokens :=
  (hp.bind fun a left hleft heaten => hf a left hleft (heaten trivial)).of_eats

/-- A parser that is sure of its answer before any other one. -/
theorem Tracks.bind_sure {h : α → α'} {p : Parse α} {q : Parse α'} {f : α → Parse β}
    {f' : α' → Parse β'} (hp : Tracks move h (fun _ => True) eats p q tokens)
    (hf : ∀ a left, left <:+ tokens → Tracks move g sure False (f a) (f' (h a)) left) :
    Tracks move g sure eats (p >>= f) (q >>= f') tokens :=
  (hp.bind_of (fun a left hleft _ => hf a left hleft) fun _ _ _ _ _ => trivial).mono
    (fun _ h => h) .inl

/-- A parser before one that eats, so that the token that the first looks at is eaten. -/
theorem Tracks.before {h : α → α'} {p : Parse α} {q : Parse α'} {f : α → Parse β}
    {f' : α' → Parse β'} (hp : Tracks move h OneMore False p q tokens)
    (hf : ∀ a left, left <:+ tokens → Tracks move g sure True (f a) (f' (h a)) left) :
    Tracks move g sure eats (p >>= f) (q >>= f') tokens := by
  refine (hp.bind_of (fun a left hleft _ => hf a left hleft) ?_).mono (fun _ h => h)
    fun _ => .inr trivial
  rintro left left' - heaten - rfl
  exact absurd (heaten trivial) (Nat.not_lt_zero _)

section Looking

variable {tokens : List Token} {last : Token}

theorem tokenAt_append_end (n : Nat) (hlast : last.lexeme = .eof) :
    tokenAt n (tokens ++ [last]) = tokenAt n tokens := by
  obtain h | h | h := Nat.lt_trichotomy n tokens.length
  · rw [tokenAt, tokenAt, List.getElem?_append_left h]
  · simp [tokenAt, h, hlast]
  · simp [tokenAt, List.getElem?_eq_none (Nat.le_of_lt h),
      List.getElem?_eq_none (show (tokens ++ [last]).length ≤ n by simp; omega)]

theorem tokenAt_relocate (move : Position → Position) (n : Nat) (tokens : List Token) :
    tokenAt n (tokens.map (Token.relocate move)) = tokenAt n tokens := by
  rw [tokenAt, tokenAt, List.getElem?_map]
  cases tokens[n]? <;> rfl

theorem tokenAt_append {n : Nat} (h : n < tokens.length) (behind : List Token) :
    tokenAt n (tokens.map (Token.relocate move) ++ behind) = tokenAt n tokens := by
  rw [← tokenAt_relocate move n tokens, tokenAt, tokenAt,
    List.getElem?_append_left (by simpa using h)]

theorem map_append_end (move : Position → Position) (tokens : List Token) (last : Token) :
    tokens.map (Token.relocate move) ++ [last.relocate move] =
      (tokens ++ [last]).map (Token.relocate move) := by
  rw [List.map_append, List.map_singleton]

theorem lt_of_tokenAt {l : Lexeme} {n : Nat} (h : l = tokenAt n tokens) (hl : l ≠ .eof) :
    n < tokens.length := by
  by_contra hlength
  rw [tokenAt, List.getElem?_eq_none (by omega)] at h
  exact hl h

theorem ne_nil_of_tokenAt {l : Lexeme} (h : l = tokenAt 0 tokens) (hl : l ≠ .eof) :
    tokens ≠ [] :=
  List.ne_nil_of_length_pos (lt_of_tokenAt h hl)

end Looking

/-- A parser that looks at the tokens and leaves them, before another one. -/
theorem Tracks.look {h : α → α'} {p : Parse α} {q : Parse α'} {f : α → Parse β}
    {f' : α' → Parse β'} {a : Token → α} (enough : Prop)
    (hp : ∀ last, last.lexeme = .eof →
      p (tokens ++ [last]) = ⟨[], tokens ++ [last], some (a last)⟩)
    (hq : ∀ last behind, last.lexeme = .eof → behind = [last.relocate move] ∨ enough →
      q (tokens.map (Token.relocate move) ++ behind) =
        ⟨[], tokens.map (Token.relocate move) ++ behind, some (h (a last))⟩)
    (hsure : ∀ left, left <:+ tokens → (eats → left.length < tokens.length) → sure left → enough)
    (hf : ∀ last, Tracks move g sure eats (f (a last)) (f' (h (a last))) tokens) :
    Tracks move g sure eats (p >>= f) (q >>= f') tokens := by
  intro last behind hinner hlast hbehind
  obtain ⟨errors, left, result, hfeq, hleft, hsome, heaten, hq'⟩ :=
    hf last last behind hinner hlast hbehind
  refine ⟨errors, left, result, ?_, hleft, hsome, heaten, fun hcase => ?_⟩
  · rw [bind_eq (hp last hlast), hfeq]
  · have henough : behind = [last.relocate move] ∨ enough :=
      hcase.imp_right fun h => hsure left hleft (heaten (hsome h.1)) h.2
    rw [bind_eq (hq last behind hlast henough), hq' hcase]

theorem ne_nil_of_sure (hsure : sure [] → eats) {left : List Token} (hleft : left <:+ tokens)
    (heats : eats → left.length < tokens.length) (h : sure left) : tokens ≠ [] := by
  rintro rfl
  obtain rfl := List.eq_nil_of_suffix_nil hleft
  exact absurd (heats (hsure h)) (Nat.lt_irrefl _)

theorem Tracks.here {f : Position → Parse β} {f' : Position → Parse β'} (hsure : sure [] → eats)
    (hf : ∀ p, Tracks move g sure eats (f p) (f' (move p)) tokens) :
    Tracks move g sure eats (here >>= f) (here >>= f') tokens := by
  refine .look (tokens ≠ []) (fun last _ => rfl) (fun last behind _ hcase => ?_)
    (fun left => ne_nil_of_sure hsure) fun last => hf (positionOf (tokens ++ [last]))
  cases tokens with
  | nil =>
    obtain rfl : behind = [last.relocate move] := by simpa using hcase
    rfl
  | cons t tokens => rfl

theorem Tracks.peekAt {f : Lexeme → Parse β} {f' : Lexeme → Parse β'} (n : Nat)
    (hsure : ∀ left, left <:+ tokens → (eats → left.length < tokens.length) → sure left →
      n < tokens.length)
    (hf : ∀ l, l = tokenAt n tokens → Tracks move g sure eats (f l) (f' l) tokens) :
    Tracks move g sure eats (Parse.peek n >>= f) (Parse.peek n >>= f') tokens := by
  refine .look (h := id) (a := fun _ => tokenAt n tokens) _ (fun last hlast => ?_)
    (fun last behind hlast hcase => ?_) hsure fun _ => hf _ rfl
  · rw [Parse.peek, tokenAt_append_end n hlast]
  · rw [Parse.peek]
    obtain rfl | h := hcase
    · rw [map_append_end, tokenAt_relocate, tokenAt_append_end n hlast]
      rfl
    · rw [tokenAt_append h]
      rfl

theorem Tracks.peek {f : Lexeme → Parse β} {f' : Lexeme → Parse β'} (hsure : sure [] → eats)
    (hf : ∀ l, l = tokenAt 0 tokens → Tracks move g sure eats (f l) (f' l) tokens) :
    Tracks move g sure eats (Parse.peek 0 >>= f) (Parse.peek 0 >>= f') tokens :=
  .peekAt 0 (fun _ hleft heats h => List.length_pos_iff.mpr (ne_nil_of_sure hsure hleft heats h)) hf

theorem Tracks.peekSecond {f : Lexeme → Parse β} {f' : Lexeme → Parse β'}
    (hf : ∀ l, l = tokenAt 1 tokens → Tracks move g OneMore True (f l) (f' l) tokens) :
    Tracks move g OneMore eats (Parse.peek 1 >>= f) (Parse.peek 1 >>= f') tokens := by
  refine (Tracks.peekAt 1 (fun left hleft heats h => ?_) hf).of_eats
  have hlength := heats trivial
  have hpos := List.length_pos_iff.mpr h
  omega

theorem Tracks.remaining {f : Nat → Parse β} {f' : Nat → Parse β'}
    (hf : ∀ fuel fuel', tokens.length < fuel → tokens.length < fuel' →
      Tracks move g sure eats (f fuel) (f' fuel') tokens) :
    Tracks move g sure eats (remaining >>= f) (remaining >>= f') tokens := by
  intro last behind hinner hlast hbehind
  have hfuel' : tokens.length < (tokens.map (Token.relocate move) ++ behind).length := by
    have := List.length_pos_iff.mpr hbehind
    simp only [List.length_append, List.length_map]
    omega
  exact hf (tokens ++ [last]).length _ (by simp) hfuel' last behind hinner hlast hbehind

theorem Tracks.advance {f : Unit → Parse β} {f' : Unit → Parse β'} (hne : tokens ≠ [])
    (hf : ∀ left, left <:+ tokens → left.length + 1 = tokens.length →
      Tracks move g sure False (f ()) (f' ()) left) :
    Tracks move g sure eats (advance >>= f) (advance >>= f') tokens := by
  obtain ⟨t, rest, rfl⟩ := List.exists_cons_of_ne_nil hne
  intro last behind hinner hlast hbehind
  have ht : t.lexeme ≠ .eof := hinner t (by simp)
  have hrest : rest <:+ t :: rest := List.suffix_cons t rest
  have hfirst : Parse.advance (t :: rest ++ [last]) = ⟨[], rest ++ [last], some ()⟩ := by
    rw [Parse.advance, List.cons_append, Parse.behind, if_neg ht]
  have hsecond : Parse.advance ((t :: rest).map (Token.relocate move) ++ behind) =
      ⟨[], rest.map (Token.relocate move) ++ behind, some ()⟩ := by
    have ht' : (t.relocate move).lexeme ≠ .eof := ht
    rw [Parse.advance, List.map_cons, List.cons_append, Parse.behind, if_neg ht']
  obtain ⟨errors, left, result, hfeq, hleft, hsome, heaten, hq⟩ :=
    hf rest hrest rfl last behind (hinner.suffix hrest) hlast hbehind
  refine ⟨errors, left, result, ?_, hleft.trans hrest, hsome, fun _ _ => ?_, fun hcase => ?_⟩
  · rw [bind_eq hfirst, hfeq]
  · exact Nat.lt_succ_of_le hleft.length_le
  · rw [bind_eq hsecond, hq hcase]

/-- A test of the next token is a look at it, which may be followed by a step. -/
theorem eatIf_bind (test : Lexeme → Bool) (f : Bool → Parse β) :
    (eatIf test >>= f) = (Parse.peek 0 >>= fun l =>
      if test l then Parse.advance >>= fun _ => f true else f false) := by
  funext tokens
  have hpeek : Parse.peek 0 tokens = ⟨[], tokens, some (tokenAt 0 tokens)⟩ := rfl
  have hadvance : Parse.advance tokens = ⟨[], behind tokens, some ()⟩ := rfl
  rw [bind_eq hpeek]
  split
  · next h =>
    have heat : eatIf test tokens = ⟨[], behind tokens, some true⟩ := by rw [eatIf_eq, if_pos h]
    rw [bind_eq heat, bind_eq hadvance]
  · next h =>
    have heat : eatIf test tokens = ⟨[], tokens, some false⟩ := by rw [eatIf_eq, if_neg h]
    rw [bind_eq heat]

theorem Tracks.eatIf {test : Lexeme → Bool} {f : Bool → Parse β} {f' : Bool → Parse β'}
    (htest : test .eof = false) (hsure : sure [] → eats)
    (htrue : ∀ left, left <:+ tokens → left.length + 1 = tokens.length →
      Tracks move g sure False (f true) (f' true) left)
    (hfalse : Tracks move g sure eats (f false) (f' false) tokens) :
    Tracks move g sure eats (eatIf test >>= f) (eatIf test >>= f') tokens := by
  rw [eatIf_bind, eatIf_bind]
  refine .peek hsure fun l hl => ?_
  split
  · next h =>
    refine .advance (ne_nil_of_tokenAt hl ?_) htrue
    rintro rfl
    simp [htest] at h
  · exact hfalse

theorem Tracks.atKeyword {f : Bool → Parse β} {f' : Bool → Parse β'} {word : String}
    (hsure : sure [] → eats)
    (hf : ∀ found, found = (tokenAt 0 tokens).isKeyword word →
      Tracks move g sure eats (f found) (f' found) tokens) :
    Tracks move g sure eats (atKeyword word >>= f) (atKeyword word >>= f') tokens :=
  .peek hsure fun _ hl => hf _ (by rw [hl])

theorem tracks_reportAll (errors : List Diagnostic) :
    Tracks move id sure False (reportAll errors)
      (reportAll (errors.map (Diagnostic.relocate move))) tokens := by
  intro last behind _ _ _
  exact ⟨errors, tokens, some (), rfl, List.suffix_refl _, fun _ => rfl, fun _ h => h.elim,
    fun _ => rfl⟩

theorem Tracks.reportAll {errors errors' : List Diagnostic} {f : Unit → Parse β}
    {f' : Unit → Parse β'} (herrors : errors' = errors.map (Diagnostic.relocate move))
    (hf : ∀ left, left <:+ tokens → Tracks move g sure eats (f ()) (f' ()) left) :
    Tracks move g sure eats (reportAll errors >>= f) (reportAll errors' >>= f') tokens := by
  subst herrors
  have hp : Tracks move id (fun _ => True) False (Parse.reportAll errors)
      (Parse.reportAll (errors.map (Diagnostic.relocate move))) tokens := tracks_reportAll errors
  refine (hp.bind_of (fun _ left hleft _ => hf left hleft) fun _ _ _ _ _ => trivial).mono
    (fun _ h => h) .inr

theorem tracks_failAt (p : Position) (problem : Problem) :
    Tracks move g sure eats (failAt p problem) (failAt (move p) problem) tokens := by
  intro last behind _ _ _
  exact ⟨_, tokens, none, rfl, List.suffix_refl _, (by simp), (by simp), fun _ => rfl⟩

theorem tracks_unexpected (expected : String) :
    Tracks move g sure eats (unexpected expected) (unexpected expected) tokens := by
  have hfails : Tracks move g sure True (unexpected expected) (unexpected expected) tokens :=
    .peek (fun _ => trivial) fun l _ => .here (fun _ => trivial) fun p => tracks_failAt p _
  exact hfails.of_eats

/-- A parser that may fail, and what is done behind the failure. Something has been reported then,
so that nothing but the same end may follow. -/
theorem Tracks.attempt {h : α → α'} {p : Parse α} {q : Parse α'} {f : Option α → Parse β}
    {f' : Option α' → Parse β'} (hp : Tracks move h OneMore eats p q tokens)
    (hsome : ∀ a left, left <:+ tokens → (eats → left.length < tokens.length) →
      Tracks move g OneMore False (f (some a)) (f' (some (h a))) left)
    (hnone : ∀ left last, left <:+ tokens → Inner tokens → last.lexeme = .eof →
      (p (tokens ++ [last])).rest = left ++ [last] →
      Tracks move g (fun _ => False) False (f none) (f' none) left) :
    Tracks move g OneMore False (attempt p >>= f) (attempt q >>= f') tokens := by
  intro last behind hinner hlast hbehind
  obtain ⟨errors, left, result, hpeq, hleft, hresult, heaten, hq⟩ :=
    hp last behind hinner hlast hbehind
  have hfirst : (Parse.attempt p >>= f) (tokens ++ [last]) =
      ⟨errors ++ (f result (left ++ [last])).errors, (f result (left ++ [last])).rest,
        (f result (left ++ [last])).result⟩ := by
    have hattempt : (Parse.attempt p >>= f) (tokens ++ [last]) =
      Parse.bind (Parse.attempt p) f (tokens ++ [last]) := rfl
    simp only [hattempt, Parse.bind, Parse.attempt, hpeq]
  have hnext : ∃ errors' left' result', f result (left ++ [last]) =
      ⟨errors', left' ++ [last], result'⟩ ∧ left' <:+ left ∧ (errors' = [] → result'.isSome) ∧
      (behind = [last.relocate move] ∨ errors ++ errors' = [] ∧ OneMore left' →
        f' (result.map h) (left.map (Token.relocate move) ++ behind) =
          ⟨errors'.map (Diagnostic.relocate move), left'.map (Token.relocate move) ++ behind,
            result'.map g⟩) := by
    cases result with
    | some a =>
      obtain ⟨errors', left', result', heq, hleft', hresult', -, hq'⟩ :=
        hsome a left hleft (heaten rfl) last behind (hinner.suffix hleft) hlast hbehind
      refine ⟨errors', left', result', heq, hleft', hresult', fun hcase => hq' ?_⟩
      exact hcase.imp_right fun h => ⟨(List.append_eq_nil_iff.mp h.1).2, h.2⟩
    | none =>
      have hrest : (p (tokens ++ [last])).rest = left ++ [last] := by rw [hpeq]
      obtain ⟨errors', left', result', heq, hleft', hresult', -, hq'⟩ :=
        hnone left last hleft hinner hlast hrest last behind (hinner.suffix hleft) hlast hbehind
      refine ⟨errors', left', result', heq, hleft', hresult', fun hcase => hq' (.inl ?_)⟩
      refine hcase.resolve_right fun h => ?_
      exact absurd (hresult (List.append_eq_nil_iff.mp h.1).1) (by simp)
  obtain ⟨errors', left', result', heq, hleft', hresult', hq'⟩ := hnext
  refine ⟨errors ++ errors', left', result', ?_, hleft'.trans hleft, ?_, fun _ h => h.elim,
    fun hcase => ?_⟩
  · rw [hfirst, heq]
  · exact fun h => hresult' (List.append_eq_nil_iff.mp h).2
  · have hmore : errors ++ errors' = [] ∧ OneMore left' → errors = [] ∧ OneMore left := by
      rintro ⟨hnil, hmore⟩
      refine ⟨(List.append_eq_nil_iff.mp hnil).1, ?_⟩
      rintro rfl
      exact hmore (List.eq_nil_of_suffix_nil hleft')
    have hattempt : (Parse.attempt q >>= f') (tokens.map (Token.relocate move) ++ behind) =
      Parse.bind (Parse.attempt q) f' (tokens.map (Token.relocate move) ++ behind) := rfl
    simp only [hattempt, Parse.bind, Parse.attempt, hq (hcase.imp_right hmore), hq' hcase,
      List.map_append]

theorem tracks_eatIf {test : Lexeme → Bool} (htest : test .eof = false) :
    Tracks move id OneMore False (eatIf test) (eatIf test) tokens := by
  refine .peek (fun hmore => absurd rfl hmore) fun l hl => ?_
  split
  · next h =>
    refine .advance (ne_nil_of_tokenAt hl ?_) fun _ _ _ => tracks_pure rfl
    rintro rfl
    simp [htest] at h
  · exact tracks_pure rfl

theorem tracks_expect (symbol : Symbol) (expected : String) :
    Tracks move id sure eats (expect symbol expected) (expect symbol expected) tokens := by
  have h : Tracks move id sure True (expect symbol expected) (expect symbol expected) tokens :=
    .eatIf (by simp) (fun _ => trivial) (fun left _ _ => tracks_pure rfl) (tracks_unexpected _)
  exact h.of_eats

theorem tracks_expectKeyword (word : String) :
    Tracks move id sure eats (expectKeyword word) (expectKeyword word) tokens := by
  have h : Tracks move id sure True (expectKeyword word) (expectKeyword word) tokens :=
    .eatIf rfl (fun _ => trivial) (fun left _ _ => tracks_pure rfl) (tracks_unexpected _)
  exact h.of_eats

theorem tracks_expectString (expected : String) :
    Tracks move id sure eats (expectString expected) (expectString expected) tokens := by
  have h : Tracks move id sure True (expectString expected) (expectString expected) tokens := by
    refine .peek (fun _ => trivial) fun l hl => ?_
    split
    · exact .advance (ne_nil_of_tokenAt hl (by simp)) fun _ _ _ => tracks_pure rfl
    · exact tracks_unexpected _
  exact h.of_eats

theorem tracks_expectName (expected : String) :
    Tracks move id sure eats (expectName expected) (expectName expected) tokens := by
  have h : Tracks move id sure True (expectName expected) (expectName expected) tokens := by
    refine .peek (fun _ => trivial) fun l hl => ?_
    split
    · exact .advance (ne_nil_of_tokenAt hl (by simp)) fun _ _ _ => tracks_pure rfl
    · exact .advance (ne_nil_of_tokenAt hl (by simp)) fun _ _ _ => tracks_pure rfl
    · exact tracks_unexpected _
  exact h.of_eats

section Lists

variable {h : α → α'} {item : Parse α} {item' : Parse α'}

theorem tracks_separatedLoop (hitem : ∀ tokens, Tracks move h OneMore False item item' tokens)
    (close : Symbol) (expected : String) {fuel fuel' : Nat} (hfuel : tokens.length < fuel)
    (hfuel' : tokens.length < fuel') :
    Tracks move (List.map h) OneMore False (separatedLoop item close expected fuel)
      (separatedLoop item' close expected fuel') tokens := by
  induction fuel generalizing fuel' tokens with
  | zero => omega
  | succ fuel ih =>
    obtain ⟨fuel', rfl⟩ : ∃ n, fuel' = n + 1 := ⟨fuel' - 1, by omega⟩
    refine (hitem tokens).bind fun first left hleft _ => ?_
    have hlength := hleft.length_le
    refine .eatIf (by simp) (fun hmore => absurd rfl hmore) (fun _ _ _ => tracks_pure rfl) ?_
    refine (tracks_expect .comma expected).after fun _ left' _ hlength' => ?_
    exact (ih (by omega) (by omega)).bind fun rest _ _ _ => tracks_pure rfl

theorem tracks_separated (hitem : ∀ tokens, Tracks move h OneMore False item item' tokens)
    (close : Symbol) (expected : String) :
    Tracks move (List.map h) OneMore False (separated item close expected)
      (separated item' close expected) tokens := by
  refine .eatIf (by simp) (fun hmore => absurd rfl hmore) (fun _ _ _ => tracks_pure rfl) ?_
  exact .remaining fun _ _ hfuel hfuel' => tracks_separatedLoop hitem close expected hfuel hfuel'

end Lists

end Steps

end Parse

end LogRules
