import LogRules.Proofs.Answers
import LogRules.Proofs.Levels
import LogRules.Proofs.UnknownNames

/-!
Parsing that keeps account of unknown names. As long as nothing breaks it off, every parser of the
grammar reports an unknown name once for each node that uses it in what it builds, each time at the
place of another token that it consumes.
-/
namespace LogRules

/-- Whether parsing gives up a construct for the problem. -/
def Problem.breaksOff : Problem → Bool
  | .syntactic _ | .nestingTooDeep _ => true
  | _ => false

/-- Errors behind which parsing goes on. -/
def Unbroken (errors : List Diagnostic) : Prop := ∀ d ∈ errors, d.problem.breaksOff = false

theorem unbroken_append {errors more : List Diagnostic} :
    Unbroken (errors ++ more) ↔ Unbroken errors ∧ Unbroken more := by
  simp only [Unbroken, List.mem_append, or_imp, forall_and]

namespace Parse

/-- The places of tokens, each as often as it is there. -/
def places (tokens : List Token) : Multiset Position := ↑(tokens.map Token.position)

theorem places_cons (t : Token) (tokens : List Token) :
    places (t :: tokens) = t.position ::ₘ places tokens :=
  rfl

theorem places_append (tokens more : List Token) :
    places (tokens ++ more) = places tokens + places more := by
  rw [places, List.map_append, ← Multiset.coe_add]
  rfl

variable {α β : Type} {problem : Problem} {spare : Multiset Position} {F : List Token → Prop}
  {p : Parse α} {f : α → Parse β} {Q : α → Nat → Prop} {R : β → Nat → Prop} {G : α → Prop}

/-- Where `F` is true of the tokens and nothing breaks it off, the parser has a result. It reports
the problem at some of the `spare` places and of the tokens that it consumes, and how often it does
goes with the result. -/
def Accounts (problem : Problem) (spare : Multiset Position) (F : List Token → Prop) (p : Parse α)
    (Q : α → Nat → Prop) : Prop :=
  ∀ tokens, F tokens → Unbroken (p tokens).errors → ∃ a used,
    (p tokens).result = some a ∧ tokens = used ++ (p tokens).rest ∧
      problem.sites (p tokens).errors ≤ spare + places used ∧
      Q a (problem.sites (p tokens).errors).card

/-- Unless it is broken off, the parser has a result with a property and does not report the
problem. -/
abbrev Silent (problem : Problem) (p : Parse α) (G : α → Prop) : Prop :=
  Accounts problem 0 (fun _ => True) p fun a n => G a ∧ n = 0

theorem Accounts.mono {F' : List Token → Prop} {Q' : α → Nat → Prop}
    (hp : Accounts problem spare F p Q) (hF : ∀ tokens, F' tokens → F tokens)
    (hQ : ∀ a n, Q a n → Q' a n) : Accounts problem spare F' p Q' := by
  intro tokens htokens hunbroken
  obtain ⟨a, used, ha, hused, hsites, h⟩ := hp tokens (hF tokens htokens) hunbroken
  exact ⟨a, used, ha, hused, hsites, hQ _ _ h⟩

theorem Accounts.anywhere (hp : Accounts problem spare (fun _ => True) p Q) :
    Accounts problem spare F p Q :=
  hp.mono (fun _ _ => trivial) fun _ _ h => h

theorem accounts_pure {a : α} (h : Q a 0) : Accounts problem spare F (pure a) Q :=
  fun _ _ _ => ⟨a, [], rfl, rfl, Multiset.zero_le _, h⟩

theorem Accounts.bind (hp : Accounts problem 0 F p Q)
    (hf : ∀ a n, Q a n → Accounts problem spare (fun _ => True) (f a) fun b m => R b (n + m)) :
    Accounts problem spare F (p >>= f) R := by
  intro tokens htokens hunbroken
  have hbind : (p >>= f) tokens = Parse.bind p f tokens := rfl
  rw [hbind, Parse.bind] at hunbroken ⊢
  cases hresult : (p tokens).result with
  | none =>
    rw [hresult] at hunbroken
    obtain ⟨a, -, ha, -⟩ := hp tokens htokens hunbroken
    rw [hresult] at ha
    cases ha
  | some a =>
    simp only [hresult] at hunbroken ⊢
    obtain ⟨hfirst, hsecond⟩ := unbroken_append.mp hunbroken
    obtain ⟨_, used, ha, hused, hsites, hQ⟩ := hp tokens htokens hfirst
    obtain rfl := Option.some.inj (hresult.symm.trans ha)
    obtain ⟨b, more, hb, hmore, hsites', hR⟩ := hf a _ hQ _ trivial hsecond
    refine ⟨b, used ++ more, hb, ?_, ?_, ?_⟩
    · rw [List.append_assoc, ← hmore]
      exact hused
    · rw [Problem.sites_append, places_append, add_left_comm, ← zero_add (places used)]
      exact add_le_add hsites hsites'
    · rwa [Problem.sites_append, Multiset.card_add]

theorem Silent.bind (hp : Silent problem p G)
    (hf : ∀ a, G a → Accounts problem spare (fun _ => True) (f a) R) :
    Accounts problem spare F (p >>= f) R := by
  refine Accounts.bind (hp.mono (fun _ _ => trivial) fun _ _ h => h) ?_
  rintro a _ ⟨ha, rfl⟩
  simpa only [Nat.zero_add] using hf a ha

theorem Accounts.map {g : α → β} (hp : Accounts problem 0 F p Q) (h : ∀ a n, Q a n → R (g a) n) :
    Accounts problem 0 F (do return g (← p)) R :=
  hp.bind fun a n ha => accounts_pure (h a n ha)

theorem accounts_here {f : Position → Parse β}
    (h : ∀ place, Accounts problem spare (fun tokens => F tokens ∧ positionOf tokens = place)
      (f place) R) : Accounts problem spare F (here >>= f) R :=
  fun tokens htokens => h (positionOf tokens) tokens ⟨htokens, rfl⟩

theorem accounts_peek {n : Nat} {f : Lexeme → Parse β}
    (h : ∀ l, Accounts problem spare (fun tokens => F tokens ∧ tokenAt n tokens = l) (f l) R) :
    Accounts problem spare F (peek n >>= f) R :=
  fun tokens htokens => h (tokenAt n tokens) tokens ⟨htokens, rfl⟩

theorem accounts_remaining {f : Nat → Parse β} (h : ∀ n, Accounts problem spare F (f n) R) :
    Accounts problem spare F (remaining >>= f) R :=
  fun tokens htokens => h tokens.length tokens htokens

/-- The place of a token that is consumed can be reported later. -/
theorem accounts_advance {l : Lexeme} {place : Position} {f : Unit → Parse β}
    (hF : ∀ tokens, F tokens → tokenAt 0 tokens = l ∧ positionOf tokens = place) (hl : l ≠ .eof)
    (h : Accounts problem (place ::ₘ spare) (fun _ => True) (f ()) R) :
    Accounts problem spare F (advance >>= f) R := by
  intro tokens htokens hunbroken
  obtain ⟨hlexeme, hplace⟩ := hF tokens htokens
  cases tokens with
  | nil => exact absurd hlexeme.symm hl
  | cons t rest =>
    have ht : t.lexeme ≠ .eof := by rwa [show t.lexeme = l from hlexeme]
    have hadvance : advance (t :: rest) = ⟨[], rest, some ()⟩ := by
      rw [advance, behind, if_neg ht]
    rw [bind_eq hadvance] at hunbroken ⊢
    obtain ⟨b, used, hb, hused, hsites, hR⟩ := h rest trivial hunbroken
    refine ⟨b, t :: used, hb, by rw [List.cons_append, ← hused], ?_, hR⟩
    rwa [places_cons, show t.position = place from hplace, Multiset.add_cons, ← Multiset.cons_add]

theorem silent_reportAll {errors : List Diagnostic} (h : problem.sites errors = 0) :
    Silent problem (reportAll errors) fun _ => True := by
  intro tokens _ _
  refine ⟨(), [], rfl, rfl, h.trans_le (Multiset.zero_le _), trivial, ?_⟩
  exact Multiset.card_eq_zero.mpr h

theorem accounts_failAt (position : Position) {reason : Problem} (h : reason.breaksOff = true) :
    Accounts problem spare F (failAt position reason) Q := by
  intro tokens _ hunbroken
  rw [hunbroken _ (List.mem_singleton_self _)] at h
  cases h

theorem accounts_unexpected (expected : String) :
    Accounts problem spare F (unexpected expected) Q :=
  accounts_peek fun _ => accounts_here fun p => accounts_failAt p rfl

/-- A parser that reports a problem of syntax is broken off. -/
theorem accounts_refusal (position : Position) (message : String) {f : Unit → Parse β} :
    Accounts problem spare F (report position (.syntactic message) >>= f) R := by
  intro tokens _ hunbroken
  cases hunbroken ⟨position, .syntactic message⟩ List.mem_cons_self

theorem Accounts.attempt (hp : Accounts problem spare F p Q) :
    Accounts problem spare F (attempt p) fun found n => ∃ a, found = some a ∧ Q a n := by
  intro tokens htokens hunbroken
  obtain ⟨a, used, ha, hused, hsites, hQ⟩ := hp tokens htokens hunbroken
  exact ⟨some a, used, congrArg some ha, hused, hsites, a, rfl, hQ⟩

theorem Silent.attempt (hp : Silent problem p G) :
    Silent problem (attempt p) fun found => ∃ a, found = some a ∧ G a :=
  (Accounts.attempt hp).mono (fun _ h => h) fun _ _ ⟨a, ha, hG, hn⟩ => ⟨⟨a, ha, hG⟩, hn⟩

theorem silent_advance : Silent problem advance fun _ => True := by
  intro tokens _ _
  cases tokens with
  | nil => exact ⟨(), [], rfl, rfl, le_rfl, trivial, rfl⟩
  | cons t rest =>
    by_cases ht : t.lexeme = .eof
    · refine ⟨(), [], rfl, ?_, le_rfl, trivial, rfl⟩
      rw [advance, behind, if_pos ht, List.nil_append]
    · refine ⟨(), [t], rfl, ?_, Multiset.zero_le _, trivial, rfl⟩
      rw [advance, behind, if_neg ht, List.singleton_append]

theorem silent_eatIf (test : Lexeme → Bool) : Silent problem (eatIf test) fun _ => True := by
  refine accounts_peek fun l => ?_
  split
  · exact silent_advance.bind fun _ _ => accounts_pure ⟨trivial, rfl⟩
  · exact accounts_pure ⟨trivial, rfl⟩

theorem silent_atKeyword (word : String) : Silent problem (atKeyword word) fun _ => True :=
  accounts_peek fun _ => accounts_pure ⟨trivial, rfl⟩

theorem silent_expect (symbol : Symbol) (expected : String) :
    Silent problem (expect symbol expected) fun _ => True := by
  refine (silent_eatIf _).bind fun found _ => ?_
  split
  exacts [accounts_pure ⟨trivial, rfl⟩, accounts_unexpected expected]

theorem silent_expectKeyword (word : String) :
    Silent problem (expectKeyword word) fun _ => True := by
  refine (silent_eatIf _).bind fun found _ => ?_
  split
  exacts [accounts_pure ⟨trivial, rfl⟩, accounts_unexpected _]

theorem silent_expectString (expected : String) :
    Silent problem (expectString expected) fun _ => True := by
  refine accounts_peek fun l => ?_
  split
  · exact silent_advance.bind fun _ _ => accounts_pure ⟨trivial, rfl⟩
  · exact accounts_unexpected expected

theorem silent_expectName (expected : String) :
    Silent problem (expectName expected) fun _ => True := by
  refine accounts_peek fun l => ?_
  split
  · exact silent_advance.bind fun _ _ => accounts_pure ⟨trivial, rfl⟩
  · exact silent_advance.bind fun _ _ => accounts_pure ⟨trivial, rfl⟩
  · exact accounts_unexpected expected

section Lists

variable {item : Parse α} {count : α → Nat}
  (hitem : Accounts problem 0 (fun _ => True) item fun a n => n = count a)

include hitem

theorem accounts_separatedLoop (close : Symbol) (expected : String) (fuel : Nat) :
    Accounts problem 0 (fun _ => True) (separatedLoop item close expected fuel)
      fun items n => n = (items.map count).sum := by
  induction fuel with
  | zero => exact accounts_unexpected expected
  | succ fuel ih =>
    refine hitem.bind ?_
    rintro first _ rfl
    refine (silent_eatIf _).bind fun closed _ => ?_
    split
    · exact accounts_pure (by simp)
    · refine (silent_expect .comma expected).bind fun _ _ => ih.map ?_
      rintro rest _ rfl
      rw [List.map_cons, List.sum_cons]

/-- A list reports what its items report. -/
theorem accounts_separated (close : Symbol) (expected : String) :
    Accounts problem 0 (fun _ => True) (separated item close expected)
      fun items n => n = (items.map count).sum := by
  refine (silent_eatIf _).bind fun closed _ => ?_
  split
  · exact accounts_pure rfl
  · exact accounts_remaining fun fuel => accounts_separatedLoop hitem close expected fuel

end Lists

end Parse

end LogRules
