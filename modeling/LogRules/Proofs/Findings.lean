import LogRules.Proofs.Answers

/-!
What parsers leave and return before known lexemes, whatever they report on the way.
-/
namespace LogRules

namespace Parse

variable {α β : Type} {p : Parse α} {f : α → Parse β} {l : Lexeme} {ls ls' : List Lexeme}
  {ends ends' : Lexeme → Prop} {Q : α → Prop}

/-- What a parser leaves and returns is as it should be, whatever it reports. -/
def Finds (p : Parse α) (ls : List Lexeme) (ends : Lexeme → Prop)
    (goal : List Token → List Token → Option α → Prop) : Prop :=
  Answers p ls ends fun rest reply => goal rest reply.rest reply.result

/-- A parser consumes exactly these lexemes and has such a result. -/
abbrev Takes (p : Parse α) (ls : List Lexeme) (ends : Lexeme → Prop) (Q : α → Prop) : Prop :=
  Finds p ls ends fun rest more result => more = rest ∧ ∃ a ∈ result, Q a

theorem Reads.takes (h : Reads p ls ends Q) : Takes p ls ends Q := by
  intro tokens rest hls hends
  obtain ⟨a, hreply, hQ⟩ := h tokens rest hls hends
  rw [hreply]
  exact ⟨rfl, a, rfl, hQ⟩

theorem bind_result {tokens rest : List Token} {a : α} (hrest : (p tokens).rest = rest)
    (ha : (p tokens).result = some a) :
    ((p >>= f) tokens).rest = (f a rest).rest ∧ ((p >>= f) tokens).result = (f a rest).result := by
  have hbind : (p >>= f) tokens = Parse.bind p f tokens := rfl
  rw [hbind, Parse.bind, ha, hrest]
  exact ⟨rfl, rfl⟩

section Steps

variable {goal : List Token → List Token → Option β → Prop}

theorem Finds.here {f : Position → Parse β} (hf : ∀ p, Finds (f p) ls ends goal) :
    Finds (here >>= f) ls ends goal := Answers.here hf

theorem Finds.peek {f : Lexeme → Parse β} (hf : Finds (f l) (l :: ls) ends goal) :
    Finds (peek 0 >>= f) (l :: ls) ends goal := Answers.peek hf

theorem Finds.peekSecond {f : Lexeme → Parse β}
    (hf : ∀ second, First ends ls second → Finds (f second) (l :: ls) ends goal) :
    Finds (Parse.peek 1 >>= f) (l :: ls) ends goal := Answers.peekSecond hf

theorem Finds.advance {f : Unit → Parse β} (hl : l ≠ .eof) (hf : Finds (f ()) ls ends goal) :
    Finds (advance >>= f) (l :: ls) ends goal := Answers.advance hl hf

theorem Finds.eatIf {test : Lexeme → Bool} {f : Bool → Parse β} (hl : l ≠ .eof)
    (htest : test l = true) (hf : Finds (f true) ls ends goal) :
    Finds (eatIf test >>= f) (l :: ls) ends goal := Answers.eatIf hl htest hf

theorem Finds.eatIf_not {test : Lexeme → Bool} {f : Bool → Parse β} (htest : test l = false)
    (hf : Finds (f false) (l :: ls) ends goal) :
    Finds (Parse.eatIf test >>= f) (l :: ls) ends goal := Answers.eatIf_not htest hf

theorem Takes.bind (hp : Takes p ls ends Q) (hnext : ∀ l, First ends' ls' l → ends l)
    (hf : ∀ a, Q a → Finds (f a) ls' ends' goal) : Finds (p >>= f) (ls ++ ls') ends' goal := by
  intro tokens rest hls hends
  obtain ⟨before, behind, rfl, hbefore, hbehind⟩ := List.map_eq_append_iff.mp hls
  have hfirst : First ends' ls' (tokenAt 0 (behind ++ rest)) := first_tokenAt ends' hbehind hends
  obtain ⟨hrest, a, ha, hQ⟩ := hp before (behind ++ rest) hbefore (hnext _ hfirst)
  obtain ⟨hmore, hresult⟩ := bind_result (f := f) hrest ha
  rw [List.append_assoc, hmore, hresult]
  exact hf a hQ behind rest hbehind hends

/-- What follows reads nothing more. -/
theorem Takes.finish (hp : Takes p ls ends Q) (hnext : ∀ l, ends' l → ends l)
    (hf : ∀ a, Q a → Finds (f a) [] ends' goal) : Finds (p >>= f) ls ends' goal := by
  have h : Finds (p >>= f) (ls ++ []) ends' goal := hp.bind hnext hf
  rwa [List.append_nil] at h

end Steps

theorem takes_pure {a : α} (h : Q a) : Takes (pure a : Parse α) [] ends Q := (reads_pure h).takes

theorem Takes.imp {Q' : α → Prop} (hp : Takes p ls ends Q) (hends : ∀ l, ends' l → ends l)
    (hQ : ∀ a, Q a → Q' a) : Takes p ls ends' Q' := by
  intro tokens rest hls hrest
  obtain ⟨hmore, a, ha, hQa⟩ := hp tokens rest hls (hends _ hrest)
  exact ⟨hmore, a, ha, hQ a hQa⟩

theorem Takes.map {g : α → β} {R : β → Prop} (hp : Takes p ls ends Q) (h : ∀ a, Q a → R (g a)) :
    Takes (do return g (← p)) ls ends R :=
  hp.finish (fun _ h => h) fun a ha => takes_pure (h a ha)

section Lists

/-- The same parser, which keeps what it finds wrong to itself. -/
def silent (p : Parse α) : Parse α := fun tokens => ⟨[], (p tokens).rest, (p tokens).result⟩

theorem Takes.silent (hp : Takes p ls ends Q) : Reads p.silent ls ends Q := by
  intro tokens rest hls hends
  obtain ⟨hmore, a, ha, hQ⟩ := hp tokens rest hls hends
  exact ⟨a, by rw [Parse.silent, hmore, ha], hQ⟩

theorem Takes.of_silent {q : Parse α} (hq : Takes q ls ends Q) (h : p.silent = q.silent) :
    Takes p ls ends Q := by
  intro tokens rest hls hends
  have hsame : p.silent (tokens ++ rest) = q.silent (tokens ++ rest) := congrFun h _
  simp only [Parse.silent, Reply.mk.injEq, true_and] at hsame
  rw [hsame.1, hsame.2]
  exact hq tokens rest hls hends

theorem silent_bind (p : Parse α) (f : α → Parse β) :
    (p >>= f).silent = p.silent >>= fun a => (f a).silent := by
  funext tokens
  have hbind {γ : Type} (q : Parse γ) (g : γ → Parse β) :
      (q >>= g) tokens = Parse.bind q g tokens := rfl
  rw [silent, hbind, hbind, Parse.bind, Parse.bind]
  cases h : (p tokens).result with
  | none => simp only [silent, h]
  | some a => simp only [silent, h, List.append_nil]

theorem silent_separatedLoop (item : Parse α) (close : Symbol) (expected : String) (fuel : Nat) :
    (separatedLoop item close expected fuel).silent =
      (separatedLoop item.silent close expected fuel).silent := by
  induction fuel with
  | zero => rfl
  | succ fuel ih =>
    simp only [separatedLoop, silent_bind]
    congr 1
    funext first
    congr 1
    funext closed
    cases closed with
    | true => rfl
    | false => simp only [Bool.false_eq_true, if_false, silent_bind, ih]

theorem takes_separated {γ δ : Type} {item : Parse α} {text : γ → List Lexeme} {f : γ → δ}
    {g : α → δ} {xs : List γ} {close : Symbol}
    (hitem : ∀ x ∈ xs, Takes item (text x) (fun l => l = .symbol .comma ∨ l = .symbol close)
      fun a => g a = f x)
    (hfirst : ∀ x ∈ xs, ∃ l more, text x = l :: more ∧ l ≠ .symbol close)
    (hclose : close ≠ .comma) (expected : String) :
    Takes (separated item close expected)
      ([.symbol .comma].intercalate (xs.map text) ++ [.symbol close]) (fun _ => True)
      fun as => as.map g = xs.map f := by
  -- items may report faults, so lists that are read without any speak of the silent parser alone
  have hsilent : (separated item close expected).silent =
      (separated item.silent close expected).silent := by
    simp only [separated, silent_bind]
    congr 1
    funext closed
    cases closed with
    | true => rfl
    | false =>
      simp only [Bool.false_eq_true, if_false, silent_bind]
      congr 1
      funext fuel
      exact silent_separatedLoop item close expected fuel
  refine ((reads_separated (fun x hx => (hitem x hx).silent) hfirst hclose
    expected).takes.of_silent hsilent).imp (fun _ h => h) fun as has => ?_
  clear hitem hfirst
  induction has with
  | nil => rfl
  | cons hx hrest ih => rw [List.map_cons, List.map_cons, hx, ih]

end Lists

end Parse

end LogRules
