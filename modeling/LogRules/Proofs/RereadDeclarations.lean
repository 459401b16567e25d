import LogRules.Proofs.DeclaredText
import LogRules.Proofs.TrackedSources

/-!
Rules and pipelines are read back from the lexemes of their texts, unless an expression among them
is said to nest too deep.
-/
namespace LogRules

open Parse Grammar

namespace Parse

variable {α β : Type} {l : Lexeme} {ls ls' : List Lexeme} {ends ends' : Lexeme → Prop}
  {p : Parse α} {Q : α → Prop} {R : β → Prop}

/-- A parser reads these lexemes, or says that an expression nests too deep. -/
def Retrieves (p : Parse α) (ls : List Lexeme) (ends : Lexeme → Prop) (Q : α → Prop) : Prop :=
  Answers p ls ends fun rest reply =>
    (∃ d ∈ reply.errors, d.IsTooDeep) ∨ ∃ a, reply = ⟨[], rest, some a⟩ ∧ Q a

theorem Reads.retrieves (h : Reads p ls ends Q) : Retrieves p ls ends Q :=
  fun tokens rest hls hends => .inr (h tokens rest hls hends)

theorem Retrieves.bind {f : α → Parse β} (hp : Retrieves p ls ends Q)
    (hnext : ∀ l, First ends' ls' l → ends l) (hf : ∀ a, Q a → Retrieves (f a) ls' ends' R) :
    Retrieves (p >>= f) (ls ++ ls') ends' R := by
  intro tokens rest hls hends
  obtain ⟨before, behind, rfl, hbefore, hbehind⟩ := List.map_eq_append_iff.mp hls
  have hfirst : First ends' ls' (tokenAt 0 (behind ++ rest)) := first_tokenAt ends' hbehind hends
  rw [List.append_assoc]
  obtain ⟨d, hd, hdeep⟩ | ⟨a, ha, hQ⟩ := hp before (behind ++ rest) hbefore (hnext _ hfirst)
  · exact .inl ⟨d, mem_errors_bind f hd, hdeep⟩
  · rw [bind_eq ha]
    exact hf a hQ behind rest hbehind hends

/-- What follows reads nothing more. -/
theorem Retrieves.finish {f : α → Parse β} (hp : Retrieves p ls ends Q)
    (hf : ∀ a, Q a → Retrieves (f a) [] ends R) : Retrieves (p >>= f) ls ends R := by
  have h : Retrieves (p >>= f) (ls ++ []) ends R := hp.bind (fun _ h => h) hf
  rwa [List.append_nil] at h

theorem Retrieves.attempt (hp : Retrieves p ls ends Q) :
    Retrieves (attempt p) ls ends fun found => ∃ a, found = some a ∧ Q a := by
  intro tokens rest hls hends
  obtain hdeep | ⟨a, ha, hQ⟩ := hp tokens rest hls hends
  · exact .inl hdeep
  · refine .inr ⟨some a, ?_, a, rfl, hQ⟩
    rw [Parse.attempt, ha]

theorem retrieves_pure {a : α} (h : Q a) : Retrieves (pure a : Parse α) [] ends Q :=
  (reads_pure h).retrieves

theorem Answers.reportAll {goal : List Token → Reply β → Prop} {errors : List Diagnostic}
    {f : Unit → Parse β} (h : errors = []) (hf : Answers (f ()) ls ends goal) :
    Answers (reportAll errors >>= f) ls ends goal := by
  subst h
  exact .silent (fun _ => rfl) hf

theorem Answers.atKeyword {goal : List Token → Reply β → Prop} {word : String} {f : Bool → Parse β}
    (hf : Answers (f (l.isKeyword word)) (l :: ls) ends goal) :
    Answers (atKeyword word >>= f) (l :: ls) ends goal := by
  intro tokens rest hls hends
  obtain ⟨t, tokens, rfl, rfl, -⟩ := List.map_eq_cons_iff.mp hls
  exact hf (t :: tokens) rest hls hends

theorem Answers.atDeclaration {goal : List Token → Reply β → Prop} {f : Bool → Parse β}
    (hrule : l.isKeyword "rule" = false) (hpipeline : l.isKeyword "pipeline" = false)
    (hf : Answers (f false) (l :: ls) ends goal) :
    Answers (Grammar.atDeclaration >>= f) (l :: ls) ends goal := by
  intro tokens rest hls hends
  obtain ⟨t, tokens, rfl, rfl, -⟩ := List.map_eq_cons_iff.mp hls
  have hat : Grammar.atDeclaration (t :: tokens ++ rest) =
      ⟨[], t :: tokens ++ rest, some false⟩ := by
    rw [Grammar.atDeclaration, List.cons_append, startsDeclaration, tokenAt_zero_cons, hrule,
      hpipeline]
    rfl
  rw [bind_eq hat]
  exact hf (t :: tokens) rest hls hends

theorem reads_expectKeyword {word : String} (h : l.isKeyword word = true) :
    Reads (expectKeyword word) [l] (fun _ => True) fun _ => True := by
  refine .eatIf ?_ h (reads_pure trivial)
  rintro rfl
  cases h

theorem reads_expectString (text expected : String) :
    Reads (expectString expected) [.string text] (fun _ => True) (· = text) :=
  .peek (.advance (by simp) (reads_pure rfl))

end Parse

theorem endsLevel_name {word : String} (hand : Lexeme.sameWord word "and" = false)
    (hor : Lexeme.sameWord word "or" = false) (k : Nat) : (Lexeme.name word).EndsLevel k := by
  refine endsLevel_of_none (fun j => ?_) (by simp) k
  rw [operatorAt?.eq_def]
  split <;> simp [orOperator?, andOperator?, equalityOperator?, orderOperator?, sumOperator?,
    productOperator?, Lexeme.isKeyword, hand, hor]

theorem length_le_flatMap {α β : Type} {xs : List α} {f : α → List β} (h : ∀ x ∈ xs, f x ≠ []) :
    xs.length ≤ (xs.flatMap f).length := by
  induction xs with
  | nil => exact Nat.le_refl 0
  | cons x more ih =>
    have hfirst := List.length_pos_iff.mpr (h x (by simp))
    have hmore := ih fun y hy => h y (by simp [hy])
    simp only [List.flatMap_cons, List.length_cons, List.length_append]
    omega

theorem map_eq_of_forall₂ {α β γ : Type} {r : α → β → Prop} {xs : List α} {ys : List β}
    (h : List.Forall₂ r xs ys) {f : α → γ} {g : β → γ} (hfg : ∀ a, ∀ b ∈ ys, r a b → f a = g b) :
    xs.map f = ys.map g := by
  induction h with
  | nil => rfl
  | cons hfirst hrest ih =>
    rw [List.map_cons, List.map_cons, hfg _ _ (by simp) hfirst,
      ih fun a b hb => hfg a b (by simp [hb])]

section Rules

variable {registry : Registry} {scope : Typing.Scope} {s : Statement} {r : Rule}

/-- A statement is another one up to places and folded signs. -/
inductive Statement.Rereads : Statement → Statement → Prop
  | perform {found e : Expr} (expression : found.Rereads e) : Rereads (.perform found) (.perform e)
  | bind (name : String) (type : ValueType) {found value : Expr} (p q : Position)
      (expression : found.Rereads value) :
      Rereads (.bind name type found p) (.bind name type value q)

/-- A rule is another one up to places and folded signs. -/
structure Rule.Rereads (found r : Rule) : Prop where
  name : found.name = r.name
  condition : found.condition.Rereads r.condition
  statements : List.Forall₂ Statement.Rereads found.statements r.statements

theorem Place.Takes.retrieves {place : Place} {e : Expr} (h : place.Admits registry e) :
    Retrieves (expression (place.env registry)) e.lexemes (·.EndsLevel 0) (·.Rereads e) :=
  fun _ _ hls hends => h.expression_text hls hends

theorem retrieves_condition {e : Expr} (h : Place.condition.Admits registry e) (p : Position) :
    Retrieves (condition registry p) e.lexemes (·.EndsLevel 0) (·.Rereads e) := by
  refine h.retrieves.attempt.finish fun _ hfound => ?_
  obtain ⟨found, rfl, hfound⟩ := hfound
  have hboolean : Typing.checkBoolean found = [] :=
    (Typing.checkBoolean_congr hfound.type_eq).mpr (h.boolean rfl)
  exact .reportAll hboolean (retrieves_pure hfound)

theorem Statement.Clean.exists_first (h : s.Accepted registry scope) :
    ∃ name more, s.phrase = .name name :: more ∧
      ∀ word ∈ ["end", "rule", "pipeline"], Lexeme.sameWord name word = false := by
  cases s with
  | perform e =>
    obtain ⟨name, more, hlexemes, hname⟩ :=
      Place.exists_callName h.admits.accepted (h.admits.isCall scope rfl)
    refine ⟨name, more, hlexemes, fun word hword => hname word ?_⟩
    revert word
    decide
  | bind name type value p => exact ⟨"let", _, rfl, by decide⟩

theorem retrieves_statementBody (h : s.Accepted registry scope) :
    Retrieves (statementBody registry scope) s.phrase (·.EndsLevel 0) fun found =>
      found.1.Rereads s ∧ found.2 = s.scopeAfter scope := by
  cases s with
  | perform e =>
    have hadmits : (Place.call scope).Admits registry e := h.admits
    have hcall : e.isCall := hadmits.isCall scope rfl
    obtain ⟨name, more, hlexemes, hname⟩ := Place.exists_callName hadmits.accepted hcall
    have hexpression := hadmits.retrieves
    rw [hlexemes] at hexpression
    rw [Statement.phrase, hlexemes]
    refine .here fun p => .eatIf_not (hname "let" (by decide)) ?_
    refine hexpression.finish fun found hfound => ?_
    rw [hfound.isCall_eq, hcall]
    exact retrieves_pure ⟨.perform hfound, rfl⟩
  | bind name type value p =>
    obtain ⟨rfl, -, hfree⟩ := h.binds name type value p rfl
    refine .here fun p' => .eatIf (by simp) (by decide) (.here fun q => ?_)
    refine (reads_expectName (.inl rfl) _).bind (fun _ _ => trivial) fun _ hname => ?_
    rw [hname, hfree]
    refine (reads_expect .assign _).bind (fun _ _ => trivial) fun _ _ => ?_
    refine h.admits.retrieves.finish fun found hfound => retrieves_pure ?_
    rw [hfound.type_eq]
    exact ⟨.bind name value.type p' p hfound, rfl⟩

theorem reads_statementEnd :
    Reads statementEnd [.symbol .semicolon] (fun _ => True) fun _ => True :=
  .eatIf (by simp) (by simp) (reads_pure trivial)

theorem statements_of_end {tokens : List Token} (h : (tokenAt 0 tokens).isKeyword "end" = true)
    (fuel : Nat) : statements registry fuel scope tokens = ⟨[], tokens, some []⟩ := by
  cases fuel with
  | zero => rfl
  | succ fuel =>
    have hpeek : peek 0 tokens = ⟨[], tokens, some (tokenAt 0 tokens)⟩ := rfl
    have hword : atKeyword "end" tokens = ⟨[], tokens, some true⟩ := by
      rw [← h]
      rfl
    have heof : tokenAt 0 tokens ≠ .eof := by
      intro heof
      rw [heof] at h
      cases h
    rw [statements, statementsWith, bind_lift hpeek, if_neg heof, bind_lift hword]
    rfl

theorem retrieves_statements {ss : List Statement}
    (h : Statement.AllAccepted registry scope ss) {fuel : Nat} (hfuel : ss.length ≤ fuel) :
    Retrieves (statements registry fuel scope) (ss.flatMap Statement.lexemes)
      (·.isKeyword "end" = true) fun found => List.Forall₂ Statement.Rereads found ss := by
  induction ss generalizing scope fuel with
  | nil =>
    intro tokens rest hls hends
    obtain rfl := List.map_eq_nil_iff.mp hls
    exact .inr ⟨[], statements_of_end hends fuel, .nil⟩
  | cons s more ih =>
    obtain ⟨fuel, rfl⟩ : ∃ n, fuel = n + 1 := ⟨fuel - 1, by simp at hfuel; omega⟩
    obtain ⟨name, tail, hphrase, hname⟩ := h.1.exists_first
    have hbody := retrieves_statementBody h.1
    rw [hphrase] at hbody
    rw [List.flatMap_cons, Statement.lexemes, hphrase, List.append_assoc]
    refine .peek ?_
    rw [if_neg (show Lexeme.name name ≠ .eof by simp)]
    refine .atKeyword ?_
    rw [show (Lexeme.name name).isKeyword "end" = false from hname "end" (by decide),
      if_neg Bool.false_ne_true]
    refine .atDeclaration (hname "rule" (by decide)) (hname "pipeline" (by decide)) ?_
    rw [if_neg Bool.false_ne_true]
    refine hbody.attempt.bind ?_ fun _ hfound => ?_
    · rintro _ rfl
      exact endsLevel_closing (by simp) 0
    obtain ⟨⟨found, next⟩, rfl, hfound, rfl⟩ := hfound
    refine reads_statementEnd.retrieves.attempt.bind (fun _ _ => trivial) fun _ hended => ?_
    obtain ⟨⟨⟩, rfl, -⟩ := hended
    exact (ih h.2 (by simpa using hfuel)).finish fun _ hmore => retrieves_pure (.cons hfound hmore)

theorem retrieves_rule (h : r.Accepted registry) :
    Retrieves (rule registry) r.lexemes (fun _ => True) (·.Rereads r) := by
  refine .here fun p => ?_
  refine (reads_expectKeyword (by decide)).bind (fun _ _ => trivial) fun _ _ => ?_
  refine (reads_expectString r.name _).bind (fun _ _ => trivial) fun _ hname => ?_
  refine (reads_expectKeyword (by decide)).bind (fun _ _ => trivial) fun _ _ => ?_
  refine (retrieves_condition h.condition p).bind ?_ fun condition hcondition => ?_
  · rintro _ rfl
    exact endsLevel_name (by decide) (by decide) 0
  refine (reads_expectKeyword (by decide)).bind (fun _ _ => trivial) fun _ _ => ?_
  refine .remaining fun fuel hfuel => ?_
  have hlength : r.statements.length ≤ (r.statements.flatMap Statement.lexemes).length :=
    length_le_flatMap fun s _ => by simp [Statement.lexemes]
  have hprefix := (List.sublist_append_left _ [Lexeme.name "end"]).length_le.trans hfuel
  have hstatements := retrieves_statements h.statements (hlength.trans hprefix)
  refine hstatements.bind ?_ fun statements hstatements => ?_
  · rintro _ rfl
    decide
  refine (reads_expectKeyword (by decide)).bind (fun _ _ => trivial) fun _ _ => ?_
  exact retrieves_pure ⟨hname, hcondition, hstatements⟩

end Rules

section Pipelines

/-- A stage is another one up to its place, not linked yet. -/
structure Stage.Rereads (found s : Stage) : Prop where
  number : found.number = s.number
  policy : found.policy = s.policy
  refs : found.refs = s.refs
  rules : found.rules = []

/-- A pipeline is another one up to places, not linked yet. -/
structure Pipeline.Rereads (found p : Pipeline) : Prop where
  name : found.name = p.name
  stages : List.Forall₂ Stage.Rereads found.stages p.stages

theorem reads_stageNumber {number : Int} (h : IsStageNumber number) (p : Position) :
    Reads (stageNumber p) (stageNumberLexemes number) (fun _ => True) (· = number) := by
  have hrange {found : Int} (hfound : found = number) : Reads (do
      if leastStage ≤ found ∧ found ≤ greatestStage then return found
      else
        report p (.syntactic s!"stage number {found} out of range")
        return 0) [] (fun _ => True) (· = number) := by
    rw [if_pos (hfound ▸ h)]
    exact reads_pure hfound
  have hopposite : -(-Int64.ofInt number).toInt = number := by
    have hbounds := h.bounds
    rw [← Int64.ofInt_neg, Int64.toInt_ofInt_of_le (by omega) (by omega), neg_neg]
  rw [stageNumberLexemes, Value.pieces]
  split
  · exact .eatIf (by simp) (by simp) (.peek (.advance (by simp) (hrange hopposite)))
  · exact .eatIf_not (by simp) (.peek (.advance (by simp) (hrange h.toInt_ofInt)))

theorem reads_matchPolicy (policy : MatchPolicy) :
    Reads matchPolicy [.name policy.name] (fun _ => True) (· = policy) := by
  cases policy with
  | all => exact .eatIf (by simp) (by decide) (reads_pure rfl)
  | either => exact .eatIf_not (by decide) (.eatIf (by simp) (by decide) (reads_pure rfl))
  | pass =>
    exact .eatIf_not (by decide) (.eatIf_not (by decide) (.eatIf_not (by decide)
      (.eatIf (by simp) (by decide) (reads_pure rfl))))

theorem stageRefs_of_other {tokens : List Token}
    (h : (tokenAt 0 tokens).isKeyword "rule" = false) (fuel : Nat) :
    stageRefs fuel tokens = ⟨[], tokens, some []⟩ := by
  cases fuel with
  | zero => rfl
  | succ fuel =>
    have heat : eatKeyword "rule" tokens = ⟨[], tokens, some false⟩ := by
      rw [eatKeyword, eatIf_eq, if_neg (by simp [h])]
    rw [stageRefs, bind_eq heat]
    rfl

theorem reads_stageRefs (refs : List String) {fuel : Nat} (hfuel : refs.length ≤ fuel) :
    Reads (stageRefs fuel) (refs.flatMap Stage.refLexemes) (·.isKeyword "rule" = false)
      (· = refs) := by
  induction refs generalizing fuel with
  | nil =>
    intro tokens rest hls hends
    obtain rfl := List.map_eq_nil_iff.mp hls
    exact ⟨[], stageRefs_of_other hends fuel, rfl⟩
  | cons ref more ih =>
    obtain ⟨fuel, rfl⟩ : ∃ n, fuel = n + 1 := ⟨fuel - 1, by simp at hfuel; omega⟩
    refine .eatIf (by simp) (by decide) ?_
    refine (reads_expectString ref _).bind (fun _ _ => trivial) fun _ hname => ?_
    refine .eatIf (by simp) (by simp) ?_
    refine (ih (by simpa using hfuel)).map ?_
    rintro _ rfl
    rw [hname]

theorem reads_stage {s : Stage} (h : IsStageNumber s.number) :
    Reads stage s.lexemes (·.isKeyword "rule" = false) (·.Rereads s) := by
  refine .here fun p => ?_
  refine (reads_expectKeyword (by decide)).bind (fun _ _ => trivial) fun _ _ => ?_
  refine (reads_stageNumber h p).bind (fun _ _ => trivial) fun _ hnumber => ?_
  refine (reads_expectKeyword (by decide)).bind (fun _ _ => trivial) fun _ _ => ?_
  refine (reads_matchPolicy s.policy).bind (fun _ _ => trivial) fun _ hpolicy => ?_
  refine .remaining fun fuel hfuel => ?_
  have hle : s.refs.length ≤ (s.refs.flatMap Stage.refLexemes).length :=
    length_le_flatMap fun ref _ => by simp [Stage.refLexemes]
  exact (reads_stageRefs s.refs (hle.trans hfuel)).map fun _ hrefs => ⟨hnumber, hpolicy, hrefs, rfl⟩

theorem stages_of_end {tokens : List Token} (h : (tokenAt 0 tokens).isKeyword "end" = true)
    (fuel : Nat) : stages fuel tokens = ⟨[], tokens, some []⟩ := by
  cases fuel with
  | zero => rfl
  | succ fuel =>
    have hword : atKeyword "stage" tokens = ⟨[], tokens, some false⟩ := by
      rw [← Lexeme.isKeyword_ne h (show Lexeme.sameWord "end" "stage" = false by decide)]
      rfl
    rw [stages, bind_eq hword]
    rfl

theorem reads_stages {ss : List Stage} (h : ∀ s ∈ ss, IsStageNumber s.number) {fuel : Nat}
    (hfuel : ss.length ≤ fuel) :
    Reads (stages fuel) (ss.flatMap Stage.lexemes) (·.isKeyword "end" = true)
      fun found => List.Forall₂ Stage.Rereads found ss := by
  induction ss generalizing fuel with
  | nil =>
    intro tokens rest hls hends
    obtain rfl := List.map_eq_nil_iff.mp hls
    exact ⟨[], stages_of_end hends fuel, .nil⟩
  | cons s more ih =>
    obtain ⟨fuel, rfl⟩ : ∃ n, fuel = n + 1 := ⟨fuel - 1, by simp at hfuel; omega⟩
    have hmore := ih (fun t ht => h t (by simp [ht])) (by simpa using hfuel)
    have hnext : ∀ l, First (·.isKeyword "end" = true) (more.flatMap Stage.lexemes) l →
        l.isKeyword "rule" = false := by
      cases more with
      | nil => exact fun l hl => Lexeme.isKeyword_ne hl (by decide)
      | cons t more =>
        rintro _ rfl
        decide
    refine .atKeyword ?_
    rw [if_pos (by decide)]
    exact (reads_stage (h s (by simp))).bind hnext fun _ hfound =>
      hmore.map fun _ hmore => .cons hfound hmore

theorem stageErrors_cons_eq_nil {name : String} {s t : Stage} {more : List Stage} :
    stageErrors name (s :: t :: more) = [] ↔ (s.number ≠ t.number ∧
      t.number = min (s.number + 1) greatestStage) ∧ stageErrors name (t :: more) = [] := by
  rw [stageErrors, List.append_eq_nil_iff]
  refine and_congr_left fun _ => ?_
  by_cases hsame : s.number = t.number
  · simp [hsame, Typing.fault]
  · by_cases hnext : t.number = min (s.number + 1) greatestStage <;>
      simp [hsame, hnext, Typing.fault]

/-- Whether stages are contiguous is seen from their numbers alone. -/
theorem stageErrors_of_rereads {found ss : List Stage} {name name' : String}
    (hfound : List.Forall₂ Stage.Rereads found ss) (h : stageErrors name ss = []) :
    stageErrors name' found = [] := by
  induction hfound with
  | nil => rfl
  | cons hfirst hrest ih =>
    cases hrest with
    | nil => rfl
    | cons hsecond hrest =>
      rw [stageErrors_cons_eq_nil] at h ⊢
      rw [hfirst.number, hsecond.number]
      exact ⟨h.1, ih h.2⟩

/-- Contiguous stages are in order. -/
theorem pairwise_of_contiguous {ss : List Stage} {name : String}
    (hnumbers : ∀ s ∈ ss, IsStageNumber s.number) (h : stageErrors name ss = []) :
    ss.Pairwise fun s t => s.number ≤ t.number := by
  induction ss with
  | nil => exact .nil
  | cons s more ih =>
    cases more with
    | nil => exact List.pairwise_singleton _ s
    | cons t more =>
      rw [stageErrors_cons_eq_nil] at h
      have hmore := ih (fun u hu => hnumbers u (by simp [hu])) h.2
      have hfirst : s.number ≤ t.number := by
        have hbound := (hnumbers s (by simp)).2
        omega
      refine List.pairwise_cons.mpr ⟨fun u hu => ?_, hmore⟩
      cases hu with
      | head => exact hfirst
      | tail _ hu => exact hfirst.trans ((List.pairwise_cons.mp hmore).1 u hu)

theorem Pipeline.Formed.of_rereads {p : Pipeline} {found : List Stage} {name : String}
    (h : p.Formed) (hfound : List.Forall₂ Stage.Rereads found p.stages) (q : Position) :
    (Pipeline.mk name found q).Formed := by
  refine ⟨?_, ?_, stageErrors_of_rereads hfound h.contiguous⟩
  · have hnumbers := List.forall_mem_map.mpr h.numbers
    rw [← map_eq_of_forall₂ hfound fun _ _ _ h => h.number] at hnumbers
    exact List.forall_mem_map.mp hnumbers
  · rintro rfl
    exact h.ne_nil (List.forall₂_nil_left_iff.mp hfound)

theorem reads_pipeline {p : Pipeline} (h : p.Formed) :
    Reads pipeline p.lexemes (fun _ => True) (·.Rereads p) := by
  refine .here fun q => ?_
  refine (reads_expectKeyword (by decide)).bind (fun _ _ => trivial) fun _ _ => ?_
  refine (reads_expectString p.name _).bind (fun _ _ => trivial) fun name hname => ?_
  refine .remaining fun fuel hfuel => ?_
  have hlength : p.stages.length ≤ (p.stages.flatMap Stage.lexemes).length :=
    length_le_flatMap fun s _ => by simp [Stage.lexemes]
  have hprefix := (List.sublist_append_left _ [Lexeme.name "end"]).length_le.trans hfuel
  refine (reads_stages h.numbers (hlength.trans hprefix)).bind ?_ fun found hfound => ?_
  · rintro _ rfl
    decide
  refine (reads_expectKeyword (by decide)).bind (fun _ _ => trivial) fun _ _ => ?_
  have hformed : (Pipeline.mk name found q).Formed := h.of_rereads hfound q
  have hsorted := sortBy_of_pairwise (pairwise_of_contiguous hformed.numbers hformed.contiguous)
  have hcontiguous : stageErrors name (sortBy Stage.number found) = [] := by
    rw [hsorted]
    exact hformed.contiguous
  rw [List.isEmpty_eq_false_iff.mpr hformed.ne_nil, if_neg Bool.false_ne_true]
  refine .reportAll hcontiguous (reads_pure ⟨hname, ?_⟩)
  rw [hsorted]
  exact hfound

end Pipelines

/-- A declaration is another one up to places and folded signs. -/
inductive Declaration.Rereads : Declaration → Declaration → Prop
  | rule {found r : Rule} (h : found.Rereads r) : Rereads (.rule found) (.rule r)
  | pipeline {found p : Pipeline} (h : found.Rereads p) : Rereads (.pipeline found) (.pipeline p)

/-- A declaration that can be read back from its text. -/
abbrev Declaration.Accepted : Registry → Declaration → Prop := Clean (isReserved · = false)

section Declarations

variable {registry : Registry} {d : Declaration}

theorem retrieves_declaration (h : d.Accepted registry) :
    Retrieves (declaration registry) d.lexemes (fun _ => True) (·.Rereads d) := by
  cases d with
  | rule r =>
    refine .atKeyword ?_
    rw [if_pos (by decide)]
    exact (retrieves_rule h).finish fun _ hfound => retrieves_pure (.rule hfound)
  | pipeline p =>
    refine .atKeyword ?_
    rw [if_neg (by decide)]
    refine .atKeyword ?_
    rw [if_pos (by decide)]
    exact (reads_pipeline h).retrieves.finish fun _ hfound => retrieves_pure (.pipeline hfound)

theorem Declaration.exists_first (d : Declaration) :
    ∃ l more, d.lexemes = l :: more ∧ l ≠ .eof := by
  cases d with
  | rule r => exact ⟨_, _, rfl, by simp⟩
  | pipeline p => exact ⟨_, _, rfl, by simp⟩

/-- Declarations are read back one behind the other. -/
theorem retrieves_declarations {ds : List Declaration} (h : ∀ d ∈ ds, d.Accepted registry)
    {fuel : Nat} (hfuel : ds.length ≤ fuel) :
    Retrieves (declarations registry fuel) (ds.flatMap Declaration.lexemes) (· = .eof)
      fun found => List.Forall₂ Declaration.Rereads found ds := by
  induction ds generalizing fuel with
  | nil =>
    intro tokens rest hls hends
    obtain rfl := List.map_eq_nil_iff.mp hls
    exact .inr ⟨[], declarations_of_eof registry hends fuel, .nil⟩
  | cons d more ih =>
    obtain ⟨fuel, rfl⟩ : ∃ n, fuel = n + 1 := ⟨fuel - 1, by simp at hfuel; omega⟩
    have hmore := ih (fun e he => h e (by simp [he])) (by simpa using hfuel)
    obtain ⟨l, tail, hlexemes, hl⟩ := d.exists_first
    have hfirst := retrieves_declaration (h d (by simp))
    rw [hlexemes] at hfirst
    rw [List.flatMap_cons, hlexemes]
    refine .peek ?_
    rw [if_neg hl]
    refine hfirst.attempt.bind (fun _ _ => trivial) fun _ hfound => ?_
    obtain ⟨found, rfl, hfound⟩ := hfound
    exact hmore.finish fun _ hmore => retrieves_pure (.cons hfound hmore)

end Declarations

section Sources

variable {source : String} {registry : Registry} {parsed : ParsedSource}

theorem Declaration.Printable.accepted {d : Declaration} (h : d.Printable registry) :
    d.Accepted registry := by
  cases d with
  | rule r => exact Rule.Printable.accepted h
  | pipeline p => exact h

/-- What the declarations of a source without errors still need for their text to be scanned. -/
theorem declarations_printable (hfree : registry.Unreserved)
    (hclean : (parseSource source registry).isClean)
    (hplain : ∀ r ∈ (parseSource source registry).rules, ∀ s ∈ r.statements, s.isPlain) :
    ∀ d ∈ (parseSource source registry).declarations, d.Printable registry := by
  intro d hd
  have haccepted := declarations_clean hfree.names hclean d hd
  cases d with
  | rule r =>
    exact ⟨haccepted, hplain r (ParsedSource.mem_rules.mpr hd)⟩
  | pipeline p => exact haccepted

/-- The text of declarations is scanned without errors, and is parsed into these declarations,
unless an expression among them nests too deep. -/
theorem ParsedSource.text_reread_or_tooDeep (h : ∀ d ∈ parsed.declarations, d.Printable registry) :
    (tokenize parsed.text).2 = [] ∧
      ((∃ d ∈ (Grammar.declarations registry (tokenize parsed.text).1.length
          (tokenize parsed.text).1).errors, d.IsTooDeep) ∨
        ∃ rest found, Grammar.declarations registry (tokenize parsed.text).1.length
            (tokenize parsed.text).1 = ⟨[], rest, some found⟩ ∧
          List.Forall₂ Declaration.Rereads found parsed.declarations) := by
  have hscans : ScansTo [] parsed.text.toList _ := Declaration.scansTo_source h
  obtain ⟨tokens, q, htokenize, hlexemes⟩ := hscans.tokenize
  have hfuel : parsed.declarations.length ≤ (tokens ++ [Token.mk .eof q]).length := by
    have hle : parsed.declarations.length ≤
        (parsed.declarations.flatMap Declaration.lexemes).length :=
      length_le_flatMap fun d _ => by
        obtain ⟨l, more, hl, -⟩ := d.exists_first
        simp [hl]
    rw [← hlexemes, List.length_map] at hle
    exact hle.trans (List.sublist_append_left _ _).length_le
  rw [htokenize]
  refine ⟨rfl, ?_⟩
  obtain hdeep | ⟨found, hreply, hfound⟩ := retrieves_declarations (fun d hd => (h d hd).accepted)
    hfuel tokens [⟨.eof, q⟩] hlexemes rfl
  · exact .inl hdeep
  · exact .inr ⟨_, found, hreply, hfound⟩

/-- A text without errors is parsed into the declarations that it was made from. -/
theorem ParsedSource.text_reread (h : ∀ d ∈ parsed.declarations, d.Printable registry)
    (hclean : (parseSource parsed.text registry).isClean) :
    List.Forall₂ Declaration.Rereads (parseSource parsed.text registry).declarations
      parsed.declarations := by
  have hnone := (errors_of_isClean hclean).2
  obtain ⟨d, hd, -⟩ | ⟨rest, found, hreply, hfound⟩ := (text_reread_or_tooDeep h).2
  · rw [hnone] at hd
    cases hd
  · have hsame : (parseSource parsed.text registry).declarations = found := by
      simp only [parseSource, Parse.run, hreply, Option.getD_some]
    rw [hsame]
    exact hfound

end Sources

end LogRules
