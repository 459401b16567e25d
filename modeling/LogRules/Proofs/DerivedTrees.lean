import LogRules.Proofs.Consumption
import LogRules.Proofs.Phrases

/-!
Trees that are derived by what was consumed for them. Each production consumes a phrase of its level
for the tree that it returns, whatever it finds wrong with it.
-/
namespace LogRules.Grammar

open Parse

/-- With one level of nesting fewer, the lexemes derive the tree. -/
def Below (registry : Registry) (room k : Nat) (ls : List Lexeme) (t : Expr) : Prop :=
  ∃ inner, room = inner + 1 ∧ Phrase registry inner k ls t

/-- The parsers of one level deeper consume phrases that nest one level less. -/
structure Deeper.Derives (registry : Registry) (room : Nat) (deeper : Deeper Parse) : Prop where
  expression : AlwaysConsumes deeper.expression fun ls e => Below registry room 1 ls e.bare
  negated : AlwaysConsumes deeper.negated fun ls e => Below registry room 3 ls e.bare
  signed : AlwaysConsumes deeper.signed fun ls e => Below registry room 8 ls e.bare

section Productions

variable {env : Env} {deeper : Deeper Parse} {room k : Nat} {F : List Token → Prop}

theorem consumes_accept {checked : Checked} {Q : List Lexeme → Expr → Prop}
    (h : Q [] checked.expr) : Consumes F (accept checked) Q :=
  fun tokens htokens => consumes_pure h tokens htokens

theorem consumes_checkDepth {e : Expr} {Q : List Lexeme → Expr → Prop}
    (h : e.depth ≤ maxNesting → Q [] e) : Consumes F (checkDepth e) Q := by
  rw [checkDepth]
  split
  · exact consumes_none fun _ => rfl
  · next hdepth => exact consumes_pure (h (Nat.le_of_not_lt hdepth))

/-- A construct that was built is checked, and a loop goes on with it. -/
theorem consumes_step {checked : Checked} {next : Expr → Parse Expr}
    {Q : List Lexeme → Expr → Prop} (h : AlwaysConsumes (next checked.expr) Q) :
    AlwaysConsumes (do next (← checkDepth (← accept checked))) Q := by
  refine (consumes_accept (Q := fun ls e => ls = [] ∧ e = checked.expr) ⟨rfl, rfl⟩).bind ?_
  rintro _ _ ⟨rfl, rfl⟩
  refine (consumes_checkDepth (Q := fun ls e => ls = [] ∧ e = checked.expr) fun _ =>
    ⟨rfl, rfl⟩).bind ?_
  rintro _ _ ⟨rfl, rfl⟩
  exact h

/-- What an item is for one that a parser has found: its label is of a kind, and its expression is
derived by what stands behind that. -/
structure Item.Fits (registry : Registry) (room : Nat) (kind : Option Lexeme → Prop) (i : Item) :
    Prop where
  label : kind i.label
  body : Below registry room 1 i.body i.tree

/-- Lexemes are an item of a kind, of which a parser has read something. -/
abbrev Item.Found {γ : Type} (registry : Registry) (room : Nat) (kind : Option Lexeme → Prop)
    (reading : Item → γ) (ls : List Lexeme) (found : γ) : Prop :=
  ∃ i : Item, i.lexemes = ls ∧ i.Fits registry room kind ∧ reading i = found

theorem phrase_of_items {registry : Registry} {opening : List Lexeme} {close : Symbol}
    {items : List Item} {t : Expr} (h : Bracketed registry opening close items t)
    (hitems : ∀ i ∈ items, Below registry room 1 i.body i.tree) :
    Phrase registry room 10 (opening ++ (listed items ++ [.symbol close])) t := by
  refine .list h (fun hne => ?_) fun i hi => ?_
  · obtain ⟨i, hi⟩ := List.exists_mem_of_ne_nil items hne
    obtain ⟨inner, rfl, -⟩ := hitems i hi
    exact Nat.succ_pos inner
  · obtain ⟨inner, rfl, hphrase⟩ := hitems i hi
    exact hphrase

def IsParameter (label : Option Lexeme) : Prop := ∀ l ∈ label, l.identifier?.isSome

def IsKey (label : Option Lexeme) : Prop := (label.bind Lexeme.key?).isSome

theorem consumes_argument (h : deeper.Derives env.registry room) :
    AlwaysConsumes (argument deeper) fun ls arg => Item.Found env.registry room IsParameter
      (fun i => (⟨i.key?, i.tree⟩ : Typing.RawArg)) ls (arg.mapValue Expr.bare) := by
  have halone : AlwaysConsumes (do return (⟨none, ← deeper.expression⟩ : Typing.RawArg))
      fun ls arg => Item.Found env.registry room IsParameter
        (fun i => (⟨i.key?, i.tree⟩ : Typing.RawArg)) ls (arg.mapValue Expr.bare) :=
    h.expression.map fun ls e he => ⟨⟨none, ls, e.bare⟩, rfl, ⟨by simp [IsParameter], he⟩, rfl⟩
  refine consumes_peek fun second => ?_
  split
  · next hsecond =>
    have hlabelled {l : Lexeme} {name : String} (hname : l.identifier? = some name)
        (hkey : l.key? = some name) (hl : l ≠ .eof) :
        Consumes (fun tokens => (True ∧ tokenAt 1 tokens = second) ∧ tokenAt 0 tokens = l) (do
          advance
          advance
          return (⟨some name, ← deeper.expression⟩ : Typing.RawArg)) fun ls arg =>
            Item.Found env.registry room IsParameter
              (fun i => (⟨i.key?, i.tree⟩ : Typing.RawArg)) ls (arg.mapValue Expr.bare) := by
      refine consumes_advance (fun _ hF => hF.2) hl ?_
      refine consumes_advance (l := .symbol .colon) ?_ (by simp) ?_
      · rintro tokens ⟨t, ⟨-, hF⟩, -⟩
        exact hF.trans hsecond
      · exact h.expression.anywhere.map fun ls e he => ⟨⟨some l, ls, e.bare⟩, rfl,
          ⟨by simp [IsParameter, hname], he⟩, by simp [Item.key?, hkey, Typing.RawArg.mapValue]⟩
    refine consumes_peek fun l => ?_
    split
    · exact hlabelled rfl rfl (by simp)
    · exact hlabelled rfl rfl (by simp)
    · exact halone.anywhere
  · exact halone.anywhere

theorem consumes_element (h : deeper.Derives env.registry room) :
    AlwaysConsumes deeper.expression fun ls e =>
      Item.Found env.registry room (· = none) Item.tree ls e.bare :=
  h.expression.mono (fun _ h => h) fun ls e he => ⟨⟨none, ls, e.bare⟩, rfl, ⟨rfl, he⟩, rfl⟩

theorem consumes_entry (h : deeper.Derives env.registry room) :
    AlwaysConsumes (entry deeper) fun ls entry => Item.Found env.registry room IsKey
      (fun i => (i.key?.getD "", i.tree)) ls (entry.1, entry.2.bare) := by
  have hlabelled {l : Lexeme} {key : String} (hkey : l.key? = some key) :
      AlwaysConsumes (do
        expect .colon "':'"
        return (key, ← deeper.expression)) fun ls entry => Item.Found env.registry room IsKey
          (fun i => (i.key?.getD "", i.tree)) (l :: ls) (entry.1, entry.2.bare) := by
    refine (consumes_expect .colon "':'").bind ?_
    rintro _ _ rfl
    exact h.expression.map fun ls e he => ⟨⟨some l, ls, e.bare⟩, rfl, ⟨by simp [IsKey, hkey], he⟩,
      by simp [Item.key?, hkey]⟩
  refine consumes_peek fun l => ?_
  split
  · exact consumes_advance (fun _ hF => hF.2) (by simp) (hlabelled rfl).anywhere
  · exact consumes_advance (fun _ hF => hF.2) (by simp) (hlabelled rfl).anywhere
  · exact consumes_advance (fun _ hF => hF.2) (by simp) (hlabelled rfl).anywhere
  · exact consumes_unexpected _

theorem consumes_call (h : deeper.Derives env.registry room) {name : String}
    (hname : (Lexeme.name name).value? = none)
    (hF : ∀ tokens, F tokens → tokenAt 0 tokens = .name name) :
    Consumes F (call env deeper name) fun ls e => Phrase env.registry room 10 ls e.bare := by
  refine consumes_here fun p => consumes_advance hF (by simp) ?_
  refine (consumes_expect .leftParen "'('").anywhere.bind ?_
  rintro _ _ rfl
  refine (consumes_separated (consumes_argument h) .rightParen "',' or ')'").bind ?_
  rintro _ raw ⟨items, rfl, hfits, hraw⟩
  refine consumes_accept ?_
  rw [Typing.bare_call, ← hraw, List.append_nil]
  exact phrase_of_items (.call hname fun i hi => (hfits i hi).label) fun i hi => (hfits i hi).body

theorem consumes_named (h : deeper.Derives env.registry room) {name : String}
    (hF : ∀ tokens, F tokens → tokenAt 0 tokens = .name name) :
    Consumes F (named env deeper name) fun ls e => Phrase env.registry room 10 ls e.bare := by
  cases hvalue : (Lexeme.name name).value? with
  | some value =>
    rw [named_of_value? hvalue]
    refine consumes_here fun p => consumes_advance hF (by simp) (consumes_pure ?_)
    rw [Typing.bare_ofValue]
    exact .atom (.literal hvalue)
  | none =>
    rw [named_of_no_value hvalue]
    refine consumes_here fun p => consumes_peek fun second => ?_
    split
    · exact consumes_call h hvalue fun tokens h => hF tokens h.1
    split
    · exact consumes_unexpected _
    · next hreserved =>
      refine consumes_advance (fun tokens h => hF tokens h.1) (by simp) (consumes_accept ?_)
      rw [Typing.bare_variableIn]
      exact .atom (.var (by simpa using hreserved))

theorem consumes_messageField (p : Position) :
    AlwaysConsumes (messageField p) fun ls e =>
      Phrase env.registry room 10 (.symbol .dollar :: ls) e.bare := by
  refine consumes_peek fun word => ?_
  split
  · next hword =>
    have hne : word ≠ .eof := by
      rintro rfl
      cases hword
    refine consumes_advance (fun _ h => h.2) hne ?_
    refine (consumes_expect .dot "'.'").anywhere.bind ?_
    rintro _ _ rfl
    refine (consumes_expectName "field name").map ?_
    rintro _ name (rfl | rfl)
    · exact .atom (.field hword rfl)
    · exact .atom (.field hword rfl)
  · exact consumes_unexpected _

theorem consumes_primary (h : deeper.Derives env.registry room) :
    AlwaysConsumes (primary env deeper) fun ls e => Phrase env.registry room 10 ls e.bare := by
  refine consumes_here fun p => consumes_peek fun l => ?_
  cases l with
  | name name => exact consumes_named h fun _ h => h.2
  | integer | float | string =>
    exact consumes_advance (fun _ h => h.2) (by simp) (consumes_pure (.atom (.literal rfl)))
  | symbol s =>
    cases s with
    | dollar =>
      exact consumes_advance (fun _ h => h.2) (by simp) (consumes_messageField p).anywhere
    | leftParen =>
      refine consumes_advance (fun _ h => h.2) (by simp) (h.expression.anywhere.bind ?_)
      rintro ls inner ⟨room, rfl, hinner⟩
      refine (consumes_expect .rightParen "')'").map ?_
      rintro _ _ rfl
      rw [Expr.bare_moveTo]
      exact .parens hinner
    | leftBracket =>
      refine consumes_advance (fun _ h => h.2) (by simp) ?_
      refine (consumes_separated (consumes_element h) _ _).anywhere.map ?_
      rintro _ elements ⟨items, rfl, hfits, htrees⟩
      rw [Expr.bare, Expr.bareItems_eq, ← htrees]
      exact phrase_of_items (.array fun i hi => (hfits i hi).label) fun i hi => (hfits i hi).body
    | leftBrace =>
      refine consumes_advance (fun _ h => h.2) (by simp) ?_
      refine (consumes_separated (consumes_entry h) _ _).anywhere.map ?_
      rintro _ entries ⟨items, rfl, hfits, htrees⟩
      rw [Expr.bare, Expr.bareEntries_eq, Typing.mapArgs, ← htrees]
      exact phrase_of_items (.map fun i hi => (hfits i hi).label) fun i hi => (hfits i hi).body
    | _ => exact consumes_unexpected _
  | _ => exact consumes_unexpected _

theorem consumes_postfixLoop (h : deeper.Derives env.registry room) (fuel : Nat) {object : Expr}
    {before : List Lexeme} (hobject : Phrase env.registry room 9 before object.bare) :
    AlwaysConsumes (postfixLoop deeper fuel object) fun ls e =>
      Phrase env.registry room 9 (before ++ ls) e.bare := by
  induction fuel generalizing object before with
  | zero => exact consumes_pure (by rwa [List.append_nil])
  | succ fuel ih =>
    refine consumes_here fun p => consumes_eat ?_ (consumes_eat ?_ ?_)
    · refine (consumes_expectName "field name").bind ?_
      rintro _ name hls
      obtain ⟨l, rfl, hl⟩ : ∃ l, _ = [l] ∧ l.identifier? = some name :=
        hls.elim (fun hls => ⟨_, hls, rfl⟩) fun hls => ⟨_, hls, rfl⟩
      refine consumes_step ?_
      have hfound := Phrase.access hl hobject
      rw [← Typing.bare_access p] at hfound
      simpa using ih hfound
    · refine h.expression.bind ?_
      rintro ls key ⟨room, rfl, hkey⟩
      refine (consumes_expect .rightBracket "']'").bind ?_
      rintro _ _ rfl
      refine consumes_step ?_
      have hfound := Phrase.index hobject hkey
      rw [← Typing.bare_index p] at hfound
      simpa using ih hfound
    · exact consumes_pure (by rwa [List.append_nil])

theorem consumes_postfixTail (h : deeper.Derives env.registry room) {object : Expr}
    {before : List Lexeme} (hobject : Phrase env.registry room 10 before object.bare) :
    AlwaysConsumes (postfixTail deeper object) fun ls e =>
      Phrase env.registry room 8 (before ++ ls) e.bare := by
  refine consumes_remaining fun fuel => ?_
  exact (consumes_postfixLoop h fuel (.up hobject (by simp))).mono (fun _ h => h)
    fun _ _ hfound => .up hfound (by simp)

theorem consumes_signLevel (h : deeper.Derives env.registry room) :
    AlwaysConsumes (signLevel env deeper) fun ls e => Phrase env.registry room 8 ls e.bare := by
  refine consumes_here fun p => consumes_peek fun l => ?_
  split
  · exact (consumes_primary h).anywhere.bind fun ls object hobject =>
      consumes_postfixTail h hobject
  · next op hop =>
    have hl : l ≠ .eof := by
      rintro rfl
      cases hop
    refine consumes_advance (fun _ h => h.2) hl (consumes_peek fun next => ?_)
    split
    · next value hvalue =>
      have hnext : next ≠ .eof := by
        rintro rfl
        cases hvalue
      have hminus : l = .symbol .minus := by
        rw [signOperator?.eq_def] at hop
        split at hop
        · rfl
        · cases hop
        · cases hop
      refine consumes_advance (fun _ h => h.2) hnext ?_
      have hnumber : Phrase env.registry room 10 [.symbol .minus, next]
          (Expr.ofValue p (negateNumber value)).bare := by
        rw [Typing.bare_ofValue]
        exact .atom (.negative hvalue)
      rw [hminus]
      exact (consumes_postfixTail h hnumber).anywhere
    · next hnumber =>
      refine (h.signed.first (G := (· = next)) fun rest hrest => hrest.2).bind ?_
      rintro ls operand ⟨⟨room, rfl, hoperand⟩, hfirst⟩
      refine consumes_accept ?_
      rw [Typing.bare_signed, List.append_nil]
      refine .sign ?_ hoperand
      rw [signOperator?.eq_def] at hop
      split at hop
      · cases hop
        -- the operand starts with the lexeme that was looked at, and that is no number
        refine .minus fun l hl => ?_
        rw [hfirst l hl]
        exact Option.eq_none_iff_forall_not_mem.mpr fun value hvalue => hnumber value hvalue rfl
      · cases hop
        exact .plus
      · cases hop

theorem consumes_chainLoop {operand : Parse Expr}
    (hoperand : AlwaysConsumes operand fun ls e => Phrase env.registry room (k + 1) ls e.bare)
    (fuel : Nat) {left : Expr} {before : List Lexeme}
    (hleft : Phrase env.registry room k before left.bare) :
    AlwaysConsumes (chainLoop operand (operatorAt? k) Typing.join fuel left) fun ls e =>
      Phrase env.registry room k (before ++ ls) e.bare := by
  induction fuel generalizing left before with
  | zero => exact consumes_pure (by rwa [List.append_nil])
  | succ fuel ih =>
    refine consumes_here fun p => consumes_peek fun l => ?_
    split
    · exact consumes_pure (by rwa [List.append_nil])
    · next op hop =>
      have hbinary := (operatorAt?_eq_some.mp hop).1
      have hl : l ≠ .eof := by
        rintro rfl
        cases hbinary
      refine consumes_advance (fun _ h => h.2) hl (hoperand.anywhere.bind ?_)
      intro ls right hright
      refine consumes_step ?_
      have hjoined := Phrase.join hbinary (precedence_of_operatorAt? hop) hleft hright
      rw [← Typing.bare_join p] at hjoined
      simpa using ih hjoined

theorem consumes_levelChain (hk : IsChain k)
    (hoperand : AlwaysConsumes (level env deeper (k + 1)) fun ls e =>
      Phrase env.registry room (k + 1) ls e.bare) :
    AlwaysConsumes (level env deeper k) fun ls e => Phrase env.registry room k ls e.bare := by
  have hloose : k ≠ 3 := by
    rw [IsChain] at hk
    omega
  rw [level_chain env deeper hk]
  exact hoperand.bind fun ls first hfirst => consumes_remaining fun fuel =>
    consumes_chainLoop hoperand fuel (.up hfirst fun h => absurd h hloose)

theorem consumes_notLevel (h : deeper.Derives env.registry room)
    (hequality : AlwaysConsumes (level env deeper 4) fun ls e =>
      Phrase env.registry room 4 ls e.bare) :
    AlwaysConsumes (notLevel env deeper) fun ls e => Phrase env.registry room 3 ls e.bare := by
  refine consumes_here fun p => consumes_eatIf rfl (fun l hl => ?_) ?_
  · refine h.negated.bind ?_
    rintro ls operand ⟨room, rfl, hoperand⟩
    refine consumes_accept ?_
    rw [Typing.bare_negation, List.append_nil]
    refine .sign ?_ hoperand
    obtain hword | hbang := Bool.or_eq_true_iff.mp hl
    · exact .word hword
    · obtain rfl : l = .symbol .bang := by simpa using hbang
      exact .bang
  · refine (hequality.first (G := fun l => l.isKeyword "not" = false) fun tokens htokens =>
      (Bool.or_eq_false_iff.mp htokens.2).1).mono (fun _ h => h) ?_
    rintro ls e ⟨hphrase, hfirst⟩
    exact .up hphrase fun _ => hfirst

theorem consumes_levels (h : deeper.Derives env.registry room) :
    AlwaysConsumes (orLevel env deeper) (fun ls e => Phrase env.registry room 1 ls e.bare) ∧
      AlwaysConsumes (notLevel env deeper) (fun ls e => Phrase env.registry room 3 ls e.bare) ∧
      AlwaysConsumes (signLevel env deeper) fun ls e => Phrase env.registry room 8 ls e.bare := by
  have h8 : AlwaysConsumes (level env deeper 8) _ := consumes_signLevel h
  have h7 := consumes_levelChain (k := 7) (by simp [IsChain]) h8
  have h6 := consumes_levelChain (k := 6) (by simp [IsChain]) h7
  have h5 := consumes_levelChain (k := 5) (by simp [IsChain]) h6
  have h4 := consumes_levelChain (k := 4) (by simp [IsChain]) h5
  have h3 : AlwaysConsumes (level env deeper 3) _ := consumes_notLevel h h4
  have h2 := consumes_levelChain (k := 2) (by simp [IsChain]) h3
  have h1 := consumes_levelChain (k := 1) (by simp [IsChain]) h2
  exact ⟨h1, h3, h8⟩

end Productions

/-- A parser with some room consumes phrases that nest no deeper. -/
theorem nested_derives (env : Env) (room : Nat) :
    (nested env room).Derives env.registry room := by
  induction room with
  | zero =>
    have hstop {Q : List Lexeme → Expr → Prop} : AlwaysConsumes (do tooDeep (← here)) Q :=
      consumes_none fun _ => rfl
    exact ⟨hstop, hstop, hstop⟩
  | succ room ih =>
    obtain ⟨hor, hnot, hsign⟩ := @consumes_levels env _ _ ih
    have hchecked {p : Parse Expr} {k : Nat}
        (hp : AlwaysConsumes p fun ls e => Phrase env.registry room k ls e.bare) :
        AlwaysConsumes (do checkDepth (← p)) fun ls e =>
          Below env.registry (room + 1) k ls e.bare :=
      hp.bind fun ls e he => consumes_checkDepth fun _ => ⟨room, rfl, by rwa [List.append_nil]⟩
    exact ⟨hchecked hor, hchecked hnot, hchecked hsign⟩

/-- Whatever is consumed on the way to a tree derives it, within the limits of nesting. -/
theorem expression_derives (env : Env) :
    AlwaysConsumes (expression env) fun ls e => Derives env.registry ls e.bare := by
  obtain ⟨hor, -, -⟩ := @consumes_levels env _ _ (nested_derives env 127)
  have hexpression : expression env = (do checkDepth (← orLevel env (nested env 127))) := rfl
  rw [hexpression]
  exact hor.bind fun ls e he => consumes_checkDepth fun hdepth =>
    ⟨⟨127, by decide, by rwa [List.append_nil]⟩, by rwa [Expr.depth_bare]⟩

end LogRules.Grammar
