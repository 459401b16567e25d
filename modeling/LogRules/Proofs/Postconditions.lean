import LogRules.Proofs.Answers

/-!
Properties of what parsers build, whether or not they report anything on the way.
-/
namespace LogRules

namespace Parse

variable {α β : Type} {F : Lexeme → Prop} {p : Parse α} {f : α → Parse β} {Q : α → Prop}
  {R : β → Prop}

/-- Where the first lexeme is in `F`, a result of the parser has a property. -/
def Builds (F : Lexeme → Prop) (p : Parse α) (Q : α → Prop) : Prop :=
  ∀ tokens, F (tokenAt 0 tokens) → ∀ a ∈ (p tokens).result, Q a

/-- Wherever a parser starts, its result has a property. -/
abbrev AlwaysBuilds (p : Parse α) (Q : α → Prop) : Prop := Builds (fun _ => True) p Q

theorem Builds.mono {F' : Lexeme → Prop} {Q' : α → Prop} (hp : Builds F p Q)
    (hF : ∀ l, F' l → F l) (hQ : ∀ a, Q a → Q' a) : Builds F' p Q' :=
  fun tokens hfirst a ha => hQ a (hp tokens (hF _ hfirst) a ha)

theorem builds_pure {a : α} (h : Q a) : Builds F (pure a) Q := by
  intro tokens _ b hb
  cases hb
  exact h

theorem builds_none (h : ∀ tokens, (p tokens).result = none) : Builds F p Q := by
  intro tokens _ a ha
  rw [h] at ha
  cases ha

theorem builds_unexpected (expected : String) : Builds F (unexpected expected) Q :=
  builds_none fun _ => rfl

theorem Builds.bind (hp : Builds F p Q) (hf : ∀ a, Q a → AlwaysBuilds (f a) R) :
    Builds F (p >>= f) R := by
  intro tokens hfirst b hb
  have hbind : (p >>= f) tokens = Parse.bind p f tokens := rfl
  rw [hbind, Parse.bind] at hb
  cases ha : (p tokens).result with
  | none =>
    rw [ha] at hb
    cases hb
  | some a =>
    rw [ha] at hb
    exact hf a (hp tokens hfirst a ha) _ trivial b hb

theorem Builds.map {g : α → β} (hp : Builds F p Q) (h : ∀ a, Q a → R (g a)) :
    Builds F (do return g (← p)) R :=
  hp.bind fun a ha => builds_pure (h a ha)

theorem Builds.attempt (hp : Builds F p Q) :
    Builds F (attempt p) fun found => ∀ a ∈ found, Q a := by
  rintro tokens hfirst _ ⟨⟩
  exact hp tokens hfirst

/-- Whatever came before. -/
theorem builds_after (p : Parse α) (hf : ∀ a, AlwaysBuilds (f a) R) : Builds F (p >>= f) R :=
  Builds.bind (Q := fun _ => True) (fun _ _ _ _ => trivial) fun a _ => hf a

theorem builds_here {f : Position → Parse β} (h : ∀ p, Builds F (f p) R) :
    Builds F (here >>= f) R :=
  fun tokens => h (positionOf tokens) tokens

theorem builds_peek {f : Lexeme → Parse β} (h : ∀ l, F l → Builds F (f l) R) :
    Builds F (peek 0 >>= f) R :=
  fun tokens hfirst => h (tokenAt 0 tokens) hfirst tokens hfirst

theorem builds_peekSecond {f : Lexeme → Parse β} (h : ∀ l, Builds F (f l) R) :
    Builds F (peek 1 >>= f) R :=
  fun tokens => h (tokenAt 1 tokens) tokens

theorem builds_eatIf {test : Lexeme → Bool} {f : Bool → Parse β} (htrue : AlwaysBuilds (f true) R)
    (hfalse : Builds (fun l => F l ∧ test l = false) (f false) R) :
    Builds F (eatIf test >>= f) R := by
  intro tokens hfirst
  by_cases htest : test (tokenAt 0 tokens) = true
  · have heat : eatIf test tokens = ⟨[], behind tokens, some true⟩ := by
      rw [eatIf_eq, if_pos htest]
    rw [bind_eq heat]
    exact htrue (behind tokens) trivial
  · have heat : eatIf test tokens = ⟨[], tokens, some false⟩ := by
      rw [eatIf_eq, if_neg htest]
    rw [bind_eq heat]
    exact hfalse tokens ⟨hfirst, (Bool.not_eq_true _).mp htest⟩

theorem builds_separatedLoop {item : Parse α} (h : AlwaysBuilds item Q) (close : Symbol)
    (expected : String) (fuel : Nat) :
    AlwaysBuilds (separatedLoop item close expected fuel) fun items => ∀ a ∈ items, Q a := by
  induction fuel with
  | zero => exact builds_unexpected expected
  | succ fuel ih =>
    refine h.bind fun first hfirst => builds_after _ fun closed => ?_
    split
    · exact builds_pure (by simpa using hfirst)
    · refine builds_after _ fun _ => ih.bind fun rest hrest => builds_pure ?_
      exact List.forall_mem_cons.mpr ⟨hfirst, hrest⟩

theorem builds_separated {item : Parse α} (h : AlwaysBuilds item Q) (close : Symbol)
    (expected : String) :
    AlwaysBuilds (separated item close expected) fun items => ∀ a ∈ items, Q a := by
  refine builds_after _ fun closed => ?_
  split
  · exact builds_pure (by simp)
  · exact builds_after _ fun fuel => builds_separatedLoop h close expected fuel

end Parse

end LogRules
