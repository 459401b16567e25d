import LogRules.Grammar.Expression

/-!
Room for nesting. A parser with more room answers as one with less, unless the latter has reported
that an expression nests too deep.
-/
namespace LogRules

/-- Says that an expression nests too deep. -/
def Diagnostic.IsTooDeep (d : Diagnostic) : Prop := d.problem = .nestingTooDeep maxNesting

namespace Parse

variable {α β : Type}

/-- A parser that answers as another one, unless it reports that an expression nests too deep. -/
def Refines (p q : Parse α) : Prop :=
  ∀ tokens, p tokens = q tokens ∨ ∃ d ∈ (p tokens).errors, d.IsTooDeep

theorem Refines.refl (p : Parse α) : Refines p p := fun _ => .inl rfl

theorem Refines.bind {p q : Parse α} {f g : α → Parse β} (hp : Refines p q)
    (hf : ∀ a, Refines (f a) (g a)) : Refines (p >>= f) (q >>= g) := by
  intro tokens
  have hbind (p : Parse α) (f : α → Parse β) : (p >>= f) tokens = Parse.bind p f tokens := rfl
  rw [hbind, hbind, Parse.bind, Parse.bind]
  obtain heq | ⟨d, hd, hdeep⟩ := hp tokens
  · rw [← heq]
    cases hresult : (p tokens).result with
    | none => exact .inl rfl
    | some a =>
      simp only
      obtain heq' | ⟨d, hd, hdeep⟩ := hf a (p tokens).rest
      · left
        rw [heq']
      · exact .inr ⟨d, List.mem_append_right _ hd, hdeep⟩
  · right
    cases hresult : (p tokens).result with
    | none => exact ⟨d, by simpa only [hresult] using hd, hdeep⟩
    | some a => exact ⟨d, List.mem_append_left _ hd, hdeep⟩

theorem Refines.after (p : Parse α) {f g : α → Parse β} (hf : ∀ a, Refines (f a) (g a)) :
    Refines (p >>= f) (p >>= g) :=
  (Refines.refl p).bind hf

theorem Refines.before {p q : Parse α} (hp : Refines p q) (f : α → Parse β) :
    Refines (p >>= f) (q >>= f) :=
  hp.bind fun a => Refines.refl (f a)

theorem Refines.separatedLoop {item item' : Parse α} (h : Refines item item') (close : Symbol)
    (expected : String) (fuel : Nat) :
    Refines (separatedLoop item close expected fuel) (separatedLoop item' close expected fuel) := by
  induction fuel with
  | zero => exact .refl _
  | succ fuel ih =>
    refine h.bind fun first => .after _ fun closed => ?_
    split
    · exact .refl _
    · exact .after _ fun _ => ih.before _

theorem Refines.separated {item item' : Parse α} (h : Refines item item') (close : Symbol)
    (expected : String) :
    Refines (separated item close expected) (separated item' close expected) := by
  refine .after _ fun closed => ?_
  split
  · exact .refl _
  · exact .after _ fun fuel => h.separatedLoop close expected fuel

end Parse

namespace Grammar

open Parse

/-- Parsers of one level deeper that answer alike while there is room. -/
structure Deeper.Refines (d d' : Deeper Parse) : Prop where
  expression : d.expression.Refines d'.expression
  negated : d.negated.Refines d'.negated
  signed : d.signed.Refines d'.signed

section Levels

variable {env : Env} {d d' : Deeper Parse}

theorem refines_chain {operand operand' : Parse Expr} (h : operand.Refines operand')
    (operator? : Lexeme → Option BinaryOp)
    (join : BinaryOp → Expr → Expr → Position → Checked) :
    (chain operand operator? join).Refines (chain operand' operator? join) := by
  have hloop (fuel : Nat) (left : Expr) : (chainLoop operand operator? join fuel left).Refines
      (chainLoop operand' operator? join fuel left) := by
    induction fuel generalizing left with
    | zero => exact .refl _
    | succ fuel ih =>
      refine .after _ fun p => .after _ fun l => ?_
      split
      · exact .refl _
      · exact .after _ fun _ => h.bind fun right => .after _ fun joined =>
          .after _ fun next => ih next
  exact h.bind fun first => .after _ fun fuel => hloop fuel first

theorem refines_argument (h : d.Refines d') : (argument d).Refines (argument d') := by
  refine .after _ fun second => ?_
  split
  · refine .after _ fun l => ?_
    split
    · exact .after _ fun _ => .after _ fun _ => h.expression.before _
    · exact .after _ fun _ => .after _ fun _ => h.expression.before _
    · exact h.expression.before _
  · exact h.expression.before _

theorem refines_entry (h : d.Refines d') : (entry d).Refines (entry d') := by
  refine .after _ fun l => ?_
  split
  · exact .after _ fun _ => .after _ fun _ => h.expression.before _
  · exact .after _ fun _ => .after _ fun _ => h.expression.before _
  · exact .after _ fun _ => .after _ fun _ => h.expression.before _
  · exact .refl _

theorem refines_named (h : d.Refines d') (name : String) :
    (named env d name).Refines (named env d' name) := by
  refine .after _ fun p => ?_
  split
  · exact .refl _
  split
  · exact .refl _
  · refine .after _ fun second => ?_
    split
    · exact .after _ fun q => .after _ fun _ => .after _ fun _ =>
        ((refines_argument h).separated _ _).before _
    · exact .refl _

theorem refines_primary (h : d.Refines d') : (primary env d).Refines (primary env d') := by
  refine .after _ fun p => .after _ fun l => ?_
  cases l with
  | name name => exact refines_named h _
  | symbol s =>
    cases s with
    | leftParen => exact .after _ fun _ => h.expression.before _
    | leftBracket => exact .after _ fun _ => (h.expression.separated _ _).before _
    | leftBrace => exact .after _ fun _ => ((refines_entry h).separated _ _).before _
    | _ => exact .refl _
  | _ => exact .refl _

theorem refines_postfixTail (h : d.Refines d') (object : Expr) :
    (postfixTail d object).Refines (postfixTail d' object) := by
  refine .after _ fun fuel => ?_
  induction fuel generalizing object with
  | zero => exact .refl _
  | succ fuel ih =>
    refine .after _ fun p => .after _ fun dot => ?_
    split
    · exact .after _ fun name => .after _ fun found => .after _ fun next => ih next
    · refine .after _ fun bracket => ?_
      split
      · exact h.expression.bind fun key => .after _ fun _ => .after _ fun found =>
          .after _ fun next => ih next
      · exact .refl _

theorem refines_signLevel (h : d.Refines d') : (signLevel env d).Refines (signLevel env d') := by
  refine .after _ fun p => .after _ fun first => ?_
  split
  · exact (refines_primary h).bind fun object => refines_postfixTail h object
  · refine .after _ fun _ => .after _ fun l => ?_
    split
    · exact .after _ fun _ => refines_postfixTail h _
    · exact h.signed.before _

theorem refines_notLevel (h : d.Refines d') : (notLevel env d).Refines (notLevel env d') := by
  refine .after _ fun p => .after _ fun found => ?_
  split
  · exact h.negated.before _
  · exact refines_chain (refines_chain (refines_chain (refines_chain (refines_signLevel h)
      _ _) _ _) _ _) _ _

theorem refines_orLevel (h : d.Refines d') : (orLevel env d).Refines (orLevel env d') :=
  refines_chain (refines_chain (refines_notLevel h) _ _) _ _

end Levels

theorem refines_stop (q : Parse Expr) : Parse.Refines (do tooDeep (← here)) q :=
  fun _ => .inr ⟨_, List.mem_singleton_self _, rfl⟩

/-- More room changes no answer but that an expression nests too deep. -/
theorem refines_nested (env : Env) {room room' : Nat} (h : room ≤ room') :
    (nested env room).Refines (nested env room') := by
  induction room generalizing room' with
  | zero => exact ⟨refines_stop _, refines_stop _, refines_stop _⟩
  | succ room ih =>
    obtain ⟨room', rfl⟩ : ∃ n, room' = n + 1 := ⟨room' - 1, by omega⟩
    have hdeeper := ih (show room ≤ room' by omega)
    exact ⟨(refines_orLevel hdeeper).before _, (refines_notLevel hdeeper).before _,
      (refines_signLevel hdeeper).before _⟩

end Grammar

end LogRules
