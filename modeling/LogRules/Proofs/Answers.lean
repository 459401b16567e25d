import LogRules.Grammar.Expression
import Mathlib.Data.List.Forall2

/-!
What a parser answers before known lexemes. The steps of a parser consume them one by one; the
places of the tokens may be any.
-/
namespace LogRules

namespace Parse

variable {α β : Type} {l : Lexeme} {ls ls' : List Lexeme} {ends ends' : Lexeme → Prop}

/-- On tokens with these lexemes, before something that may follow, the answer is as it should be.
What it should be may depend on the tokens that follow. -/
def Answers (p : Parse α) (ls : List Lexeme) (ends : Lexeme → Prop)
    (goal : List Token → Reply α → Prop) : Prop :=
  ∀ tokens rest, tokens.map Token.lexeme = ls → ends (tokenAt 0 rest) →
    goal rest (p (tokens ++ rest))

/-- A parser consumes exactly these lexemes, finds nothing wrong, and has such a result. -/
def Reads (p : Parse α) (ls : List Lexeme) (ends : Lexeme → Prop) (Q : α → Prop) : Prop :=
  Answers p ls ends fun rest reply => ∃ a, reply = ⟨[], rest, some a⟩ ∧ Q a

/-- What stands first: a lexeme, or what may follow all of them. -/
def First (ends : Lexeme → Prop) : List Lexeme → Lexeme → Prop
  | [] => ends
  | l :: _ => (· = l)

theorem first_tokenAt (ends : Lexeme → Prop) {tokens rest : List Token}
    (hls : tokens.map Token.lexeme = ls) (hends : ends (tokenAt 0 rest)) :
    First ends ls (tokenAt 0 (tokens ++ rest)) := by
  subst hls
  cases tokens with
  | nil => exact hends
  | cons t tokens => exact rfl

@[simp] theorem tokenAt_zero_cons (t : Token) (tokens : List Token) :
    tokenAt 0 (t :: tokens) = t.lexeme :=
  rfl

theorem bind_eq {p : Parse α} {f : α → Parse β} {tokens rest : List Token} {a : α}
    (h : p tokens = ⟨[], rest, some a⟩) : (p >>= f) tokens = f a rest := by
  have hbind : (p >>= f) tokens = Parse.bind p f tokens := rfl
  rw [hbind, Parse.bind, h]
  rfl

theorem bind_lift {p : Parse α} {f : α → Parse β} {tokens rest : List Token} {a : α}
    (h : p tokens = ⟨[], rest, some a⟩) : ((liftM p : Parse α) >>= f) tokens = f a rest :=
  bind_eq h

theorem bind_found {p : Parse α} {f : α → Parse β} {tokens rest : List Token} {a : α}
    {errors : List Diagnostic} (h : p tokens = ⟨errors, rest, some a⟩) : (p >>= f) tokens =
      ⟨errors ++ (f a rest).errors, (f a rest).rest, (f a rest).result⟩ := by
  have hbind : (p >>= f) tokens = Parse.bind p f tokens := rfl
  rw [hbind, Parse.bind, h]

theorem bind_failed {p : Parse α} {f : α → Parse β} {tokens rest : List Token}
    {errors : List Diagnostic} (h : p tokens = ⟨errors, rest, none⟩) :
    (p >>= f) tokens = ⟨errors, rest, none⟩ := by
  have hbind : (p >>= f) tokens = Parse.bind p f tokens := rfl
  rw [hbind, Parse.bind, h]

section Steps

variable {goal : List Token → Reply β → Prop}

theorem Reads.bind {p : Parse α} {f : α → Parse β} {Q : α → Prop} (hp : Reads p ls ends Q)
    (hnext : ∀ l, First ends' ls' l → ends l) (hf : ∀ a, Q a → Answers (f a) ls' ends' goal) :
    Answers (p >>= f) (ls ++ ls') ends' goal := by
  intro tokens rest hls hends
  obtain ⟨before, behind, rfl, hbefore, hbehind⟩ := List.map_eq_append_iff.mp hls
  have hfirst : First ends' ls' (tokenAt 0 (behind ++ rest)) := first_tokenAt ends' hbehind hends
  obtain ⟨a, ha, hQ⟩ := hp before (behind ++ rest) hbefore (hnext _ hfirst)
  rw [List.append_assoc, bind_eq ha]
  exact hf a hQ behind rest hbehind hends

theorem Answers.silent {p : Parse α} {f : α → Parse β} {a : α}
    (hp : ∀ tokens, p tokens = ⟨[], tokens, some a⟩) (hf : Answers (f a) ls ends goal) :
    Answers (p >>= f) ls ends goal := by
  intro tokens rest hls hends
  rw [bind_eq (hp _)]
  exact hf tokens rest hls hends

theorem Answers.here {f : Position → Parse β} (hf : ∀ p, Answers (f p) ls ends goal) :
    Answers (here >>= f) ls ends goal :=
  fun tokens rest hls hends => hf (positionOf (tokens ++ rest)) tokens rest hls hends

theorem Answers.remaining {f : Nat → Parse β}
    (hf : ∀ fuel, ls.length ≤ fuel → Answers (f fuel) ls ends goal) :
    Answers (remaining >>= f) ls ends goal := by
  intro tokens rest hls hends
  refine hf (tokens ++ rest).length ?_ tokens rest hls hends
  rw [← hls, List.length_map, List.length_append]
  omega

theorem Answers.peek {f : Lexeme → Parse β} (hf : Answers (f l) (l :: ls) ends goal) :
    Answers (peek 0 >>= f) (l :: ls) ends goal := by
  intro tokens rest hls hends
  obtain ⟨t, tokens, rfl, rfl, hrest⟩ := List.map_eq_cons_iff.mp hls
  exact hf (t :: tokens) rest hls hends

theorem Answers.peekSecond {f : Lexeme → Parse β}
    (hf : ∀ second, First ends ls second → Answers (f second) (l :: ls) ends goal) :
    Answers (Parse.peek 1 >>= f) (l :: ls) ends goal := by
  intro tokens rest hls hends
  obtain ⟨t, tokens, rfl, rfl, hrest⟩ := List.map_eq_cons_iff.mp hls
  have hfirst := first_tokenAt ends hrest hends
  exact hf (tokenAt 0 (tokens ++ rest)) hfirst (t :: tokens) rest hls hends

theorem Answers.advance {f : Unit → Parse β} (hl : l ≠ .eof) (hf : Answers (f ()) ls ends goal) :
    Answers (advance >>= f) (l :: ls) ends goal := by
  intro tokens rest hls hends
  obtain ⟨t, tokens, rfl, rfl, hrest⟩ := List.map_eq_cons_iff.mp hls
  have hbehind : behind (t :: tokens ++ rest) = tokens ++ rest := if_neg hl
  have hadvance : Parse.advance (t :: tokens ++ rest) = ⟨[], tokens ++ rest, some ()⟩ := by
    rw [Parse.advance, hbehind]
  rw [bind_eq hadvance]
  exact hf tokens rest hrest hends

theorem eatIf_eq (test : Lexeme → Bool) (tokens : List Token) :
    eatIf test tokens = if test (tokenAt 0 tokens) then ⟨[], behind tokens, some true⟩
      else ⟨[], tokens, some false⟩ := by
  have hstep : eatIf test tokens = (if test (tokenAt 0 tokens) then advance >>= fun _ => pure true
    else pure false : Parse Bool) tokens := rfl
  rw [hstep]
  split <;> rfl

theorem Answers.eatIf {test : Lexeme → Bool} {f : Bool → Parse β} (hl : l ≠ .eof)
    (htest : test l = true) (hf : Answers (f true) ls ends goal) :
    Answers (eatIf test >>= f) (l :: ls) ends goal := by
  intro tokens rest hls hends
  obtain ⟨t, tokens, rfl, rfl, hrest⟩ := List.map_eq_cons_iff.mp hls
  have hbehind : behind (t :: tokens ++ rest) = tokens ++ rest := if_neg hl
  have heat : Parse.eatIf test (t :: tokens ++ rest) = ⟨[], tokens ++ rest, some true⟩ := by
    rw [eatIf_eq, hbehind]
    exact if_pos htest
  rw [bind_eq heat]
  exact hf tokens rest hrest hends

theorem Answers.eatIf_not {test : Lexeme → Bool} {f : Bool → Parse β} (htest : test l = false)
    (hf : Answers (f false) (l :: ls) ends goal) :
    Answers (Parse.eatIf test >>= f) (l :: ls) ends goal := by
  intro tokens rest hls hends
  obtain ⟨t, tokens, rfl, rfl, hrest⟩ := List.map_eq_cons_iff.mp hls
  have heat : Parse.eatIf test (t :: tokens ++ rest) = ⟨[], t :: tokens ++ rest, some false⟩ := by
    rw [eatIf_eq]
    exact if_neg (Bool.eq_false_iff.mp htest)
  rw [bind_eq heat]
  exact hf (t :: tokens) rest hls hends

end Steps

theorem reads_pure {a : α} {Q : α → Prop} (h : Q a) : Reads (pure a : Parse α) [] ends Q := by
  intro tokens rest hls _
  rw [List.map_eq_nil_iff.mp hls]
  exact ⟨a, rfl, h⟩

theorem reads_expect (symbol : Symbol) (expected : String) :
    Reads (expect symbol expected) [.symbol symbol] (fun _ => True) fun _ => True :=
  .eatIf (by simp) (by simp) (reads_pure trivial)

theorem reads_expectName {name : String} (hl : l = .name name ∨ l = .quotedName name)
    (expected : String) : Reads (expectName expected) [l] (fun _ => True) (· = name) := by
  obtain rfl | rfl := hl
  · exact .peek (.advance (by simp) (reads_pure rfl))
  · exact .peek (.advance (by simp) (reads_pure rfl))

theorem Reads.imp {p : Parse α} {Q R : α → Prop} (hp : Reads p ls ends Q)
    (hends : ∀ l, ends' l → ends l) (hQ : ∀ a, Q a → R a) : Reads p ls ends' R := by
  intro tokens rest hls hrest
  obtain ⟨a, ha, hQa⟩ := hp tokens rest hls (hends _ hrest)
  exact ⟨a, ha, hQ a hQa⟩

theorem Reads.map {p : Parse α} {f : α → β} {Q : α → Prop} {R : β → Prop}
    (hp : Reads p ls ends Q) (hR : ∀ a, Q a → R (f a)) :
    Reads (do return f (← p)) ls ends R := by
  intro tokens rest hls hrest
  obtain ⟨a, ha, hQa⟩ := hp tokens rest hls hrest
  exact ⟨f a, bind_eq ha, hR a hQa⟩

/-- What follows reads nothing more. -/
theorem Reads.finish {p : Parse α} {f : α → Parse β} {Q : α → Prop} {R : β → Prop}
    (hp : Reads p ls ends Q) (hf : ∀ a, Q a → Reads (f a) [] ends R) :
    Reads (p >>= f) ls ends R := by
  have h : Reads (p >>= f) (ls ++ []) ends R := hp.bind (fun _ h => h) hf
  rwa [List.append_nil] at h

theorem Reads.attempt {p : Parse α} {Q : α → Prop} (hp : Reads p ls ends Q) :
    Reads (attempt p) ls ends fun found => ∃ a, found = some a ∧ Q a := by
  intro tokens rest hls hends
  obtain ⟨a, ha, hQ⟩ := hp tokens rest hls hends
  exact ⟨some a, by rw [Parse.attempt, ha], a, rfl, hQ⟩

section Lists

variable {γ : Type} {item : Parse α} {text : γ → List Lexeme} {Q : γ → α → Prop} {xs : List γ}
  {close : Symbol}

theorem reads_separatedLoop
    (hitem : ∀ x ∈ xs, Reads item (text x) (fun l => l = .symbol .comma ∨ l = .symbol close) (Q x))
    (hclose : close ≠ .comma) (hxs : xs ≠ []) (expected : String) {fuel : Nat}
    (hfuel : xs.length ≤ fuel) :
    Reads (separatedLoop item close expected fuel)
      ([.symbol .comma].intercalate (xs.map text) ++ [.symbol close]) (fun _ => True)
      (List.Forall₂ Q xs) := by
  induction xs generalizing fuel with
  | nil => exact absurd rfl hxs
  | cons x xs ih =>
    obtain ⟨fuel, rfl⟩ : ∃ n, fuel = n + 1 := ⟨fuel - 1, by simp at hfuel; omega⟩
    have hx := hitem x (by simp)
    cases xs with
    | nil =>
      rw [List.map_singleton, List.intercalate_singleton]
      refine hx.bind (by rintro _ rfl; exact .inr rfl) fun a ha => ?_
      exact .eatIf (by simp) (by simp) (reads_pure (by simpa using ha))
    | cons y ys =>
      have hmore : Reads (separatedLoop item close expected fuel) _ _ (List.Forall₂ Q (y :: ys)) :=
        ih (fun z hz => hitem z (by simp [hz])) (by simp) (by simp at hfuel ⊢; omega)
      rw [List.map_cons, List.map_cons, List.intercalate_cons_cons, List.append_assoc,
        List.append_assoc]
      refine hx.bind (by rintro _ rfl; exact .inl rfl) fun a ha => ?_
      refine .eatIf_not (by simpa using hclose.symm) ?_
      refine (reads_expect .comma expected).bind (fun _ _ => trivial) fun _ _ => ?_
      exact hmore.map fun rest hrest => .cons ha hrest

/-- A list between brackets is read item by item. -/
theorem reads_separated
    (hitem : ∀ x ∈ xs, Reads item (text x) (fun l => l = .symbol .comma ∨ l = .symbol close) (Q x))
    (hfirst : ∀ x ∈ xs, ∃ l more, text x = l :: more ∧ l ≠ .symbol close)
    (hclose : close ≠ .comma) (expected : String) :
    Reads (separated item close expected)
      ([.symbol .comma].intercalate (xs.map text) ++ [.symbol close]) (fun _ => True)
      (List.Forall₂ Q xs) := by
  have hlength : xs.length ≤
      ([Lexeme.symbol .comma].intercalate (xs.map text) ++ [Lexeme.symbol close]).length := by
    clear hitem
    induction xs with
    | nil => simp
    | cons x xs ih =>
      have hmore := ih fun y hy => hfirst y (by simp [hy])
      cases xs with
      | nil => simp
      | cons y ys =>
        rw [List.map_cons, List.map_cons, List.intercalate_cons_cons]
        simp at hmore ⊢
        omega
  cases xs with
  | nil => exact .eatIf (by simp) (by simp) (reads_pure .nil)
  | cons x xs =>
    have hloop (fuel : Nat) (hfuel : (x :: xs).length ≤ fuel) :=
      reads_separatedLoop hitem hclose (by simp) expected hfuel
    obtain ⟨l, more, htext, hl⟩ := hfirst x (by simp)
    have hcons : ∃ tail, [Lexeme.symbol .comma].intercalate ((x :: xs).map text) ++
        [.symbol close] = l :: tail := by
      cases xs with
      | nil => exact ⟨more ++ [.symbol close], by simp [htext]⟩
      | cons y ys =>
        rw [List.map_cons, List.map_cons, List.intercalate_cons_cons, htext]
        exact ⟨_, rfl⟩
    obtain ⟨tail, htail⟩ := hcons
    rw [htail] at hlength hloop ⊢
    refine .eatIf_not (by simpa using hl) (.remaining fun fuel hfuel => ?_)
    exact hloop fuel (by omega)

end Lists

end Parse

namespace Grammar

theorem accept_of_clean {checked : Checked} (h : checked.errors = []) (tokens : List Token) :
    accept checked tokens = ⟨[], tokens, some checked.expr⟩ := by
  have haccept : accept checked tokens = ⟨checked.errors ++ [], tokens, some checked.expr⟩ := rfl
  rw [haccept, h]
  rfl

theorem checkDepth_of_le {e : Expr} (h : e.depth ≤ maxNesting) (tokens : List Token) :
    checkDepth e tokens = ⟨[], tokens, some e⟩ := by
  rw [checkDepth, if_neg (by omega)]
  rfl

end Grammar

end LogRules
