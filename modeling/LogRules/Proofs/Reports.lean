import LogRules.Grammar.Declaration
import LogRules.Proofs.Checks

/-!
What a parser can report. Every diagnostic stands at the place of a token, and none says that a name
is declared twice: that is seen only by whoever keeps the names of all sources.
-/
namespace LogRules

/-- The problems of declarations that are right in themselves. -/
def Problem.isRepeat : Problem → Bool
  | .duplicateRule _ | .duplicatePipeline _ => true
  | _ => false

/-- A diagnostic at one of the places in `S` that repeats no declaration. -/
structure Diagnostic.Arises (S : Position → Prop) (d : Diagnostic) : Prop where
  place : S d.position
  single : d.problem.isRepeat = false

/-- Tokens at places in `S`, up to an end. -/
structure Standing (S : Position → Prop) (tokens : List Token) : Prop where
  places : ∀ t ∈ tokens, S t.position
  ends : ∃ last ∈ tokens.getLast?, last.lexeme = .eof

theorem Standing.tail {S : Position → Prop} {t : Token} {rest : List Token}
    (h : Standing S (t :: rest)) (ht : t.lexeme ≠ .eof) : Standing S rest where
  places := fun t' ht' => h.places t' (List.mem_cons_of_mem t ht')
  ends := by
    obtain ⟨last, hlast, heof⟩ := h.ends
    cases rest with
    | nil =>
      obtain rfl := Option.some.inj hlast
      exact absurd heof ht
    | cons t' more => exact ⟨last, by rwa [List.getLast?_cons_cons] at hlast, heof⟩

theorem Standing.positionOf {S : Position → Prop} {tokens : List Token} (h : Standing S tokens) :
    S (Parse.positionOf tokens) := by
  cases tokens with
  | nil => obtain ⟨last, hlast, -⟩ := h.ends; cases hlast
  | cons t rest => exact h.places t List.mem_cons_self

namespace Parse

variable {α β : Type} {S : Position → Prop} {p : Parse α} {f : α → Parse β} {Q : α → Prop}
  {R : β → Prop}

/-- From tokens at places in `S` a parser goes on at others there, and there stands what it
reports. If it has a result, the result has a property. -/
def Reports (S : Position → Prop) (p : Parse α) (Q : α → Prop) : Prop :=
  ∀ tokens, Standing S tokens → Standing S (p tokens).rest ∧
    (∀ d ∈ (p tokens).errors, d.Arises S) ∧ ∀ a ∈ (p tokens).result, Q a

theorem Reports.bind (hp : Reports S p Q) (hf : ∀ a, Q a → Reports S (f a) R) :
    Reports S (p >>= f) R := by
  intro tokens h
  have hbind : (p >>= f) tokens = Parse.bind p f tokens := rfl
  obtain ⟨hrest, herrors, hresult⟩ := hp tokens h
  rw [hbind, Parse.bind]
  cases ha : (p tokens).result with
  | none => exact ⟨hrest, herrors, fun _ hb => by cases hb⟩
  | some a =>
    obtain ⟨hrest', herrors', hresult'⟩ := hf a (hresult a ha) _ hrest
    refine ⟨hrest', fun d hd => ?_, hresult'⟩
    obtain hd | hd := List.mem_append.mp hd
    exacts [herrors d hd, herrors' d hd]

theorem reports_pure {a : α} (h : Q a) : Reports S (pure a) Q := by
  refine fun tokens hstanding => ⟨hstanding, fun d hd => absurd hd List.not_mem_nil, fun b hb => ?_⟩
  obtain rfl := Option.some.inj hb
  exact h

theorem Reports.map {g : α → β} (hp : Reports S p Q) (h : ∀ a, Q a → R (g a)) :
    Reports S (do return g (← p)) R :=
  hp.bind fun a ha => reports_pure (h a ha)

/-- A parser that only looks. -/
theorem reports_look {a : List Token → α} (h : ∀ tokens, Standing S tokens → Q (a tokens)) :
    Reports S (fun tokens => ⟨[], tokens, some (a tokens)⟩) Q := by
  refine fun tokens hstanding => ⟨hstanding, fun d hd => absurd hd List.not_mem_nil, fun b hb => ?_⟩
  obtain rfl := Option.some.inj hb
  exact h tokens hstanding

theorem reports_peek (n : Nat) : Reports S (peek n) fun _ => True := reports_look fun _ _ => trivial

theorem reports_here : Reports S here S := reports_look fun _ h => h.positionOf

theorem reports_remaining : Reports S remaining fun _ => True := reports_look fun _ _ => trivial

theorem reports_skip {s : List Token → List Token}
    (h : ∀ tokens, Standing S tokens → Standing S (s tokens)) :
    Reports S (Grammar.skip s) fun _ => True := fun tokens hstanding =>
  ⟨h tokens hstanding, fun _ hd => absurd hd List.not_mem_nil, fun _ _ => trivial⟩

theorem reports_advance : Reports S advance fun _ => True := by
  refine reports_skip (s := behind) fun tokens h => ?_
  cases tokens with
  | nil => exact h
  | cons t rest =>
    rw [behind]
    split
    · exact h
    · next ht => exact h.tail ht

theorem reports_reportAll {errors : List Diagnostic} (h : ∀ d ∈ errors, d.Arises S) :
    Reports S (reportAll errors) fun _ => True :=
  fun _ hstanding => ⟨hstanding, h, fun _ _ => trivial⟩

theorem reports_failAt {position : Position} {problem : Problem} (hp : S position)
    (h : problem.isRepeat = false) : Reports S (failAt position problem) Q := by
  refine fun tokens hstanding => ⟨hstanding, fun d hd => ?_, fun _ ha => by cases ha⟩
  rw [List.mem_singleton.mp hd]
  exact ⟨hp, h⟩

theorem reports_unexpected (expected : String) : Reports S (unexpected expected) Q :=
  (reports_peek 0).bind fun _ _ => reports_here.bind fun _ hp => reports_failAt hp rfl

theorem Reports.attempt (hp : Reports S p Q) :
    Reports S (attempt p) fun found => ∀ a ∈ found, Q a := by
  intro tokens hstanding
  obtain ⟨hrest, herrors, hresult⟩ := hp tokens hstanding
  refine ⟨hrest, herrors, fun found hfound => ?_⟩
  obtain rfl := Option.some.inj hfound
  exact hresult

theorem reports_eatIf (test : Lexeme → Bool) : Reports S (eatIf test) fun _ => True := by
  refine (reports_peek 0).bind fun l _ => ?_
  split
  · exact reports_advance.bind fun _ _ => reports_pure trivial
  · exact reports_pure trivial

theorem reports_atKeyword (word : String) : Reports S (atKeyword word) fun _ => True :=
  (reports_peek 0).map fun _ _ => trivial

theorem reports_expect (symbol : Symbol) (expected : String) :
    Reports S (expect symbol expected) fun _ => True := by
  refine (reports_eatIf _).bind fun found _ => ?_
  split
  exacts [reports_pure trivial, reports_unexpected expected]

theorem reports_expectKeyword (word : String) :
    Reports S (expectKeyword word) fun _ => True := by
  refine (reports_eatIf _).bind fun found _ => ?_
  split
  exacts [reports_pure trivial, reports_unexpected _]

theorem reports_expectString (expected : String) :
    Reports S (expectString expected) fun _ => True := by
  refine (reports_peek 0).bind fun l _ => ?_
  split
  · exact reports_advance.map fun _ _ => trivial
  · exact reports_unexpected expected

theorem reports_expectName (expected : String) : Reports S (expectName expected) fun _ => True := by
  refine (reports_peek 0).bind fun l _ => ?_
  split
  · exact reports_advance.map fun _ _ => trivial
  · exact reports_advance.map fun _ _ => trivial
  · exact reports_unexpected expected

theorem reports_separated (hp : Reports S p Q) (close : Symbol) (expected : String) :
    Reports S (separated p close expected) fun found => ∀ a ∈ found, Q a := by
  have hloop (fuel : Nat) :
      Reports S (separatedLoop p close expected fuel) fun found => ∀ a ∈ found, Q a := by
    induction fuel with
    | zero => exact reports_unexpected expected
    | succ fuel ih =>
      refine hp.bind fun a ha => (reports_eatIf _).bind fun closed _ => ?_
      split
      · exact reports_pure (by simpa using ha)
      · refine (reports_expect _ _).bind fun _ _ => ih.map fun more hmore => ?_
        exact List.forall_mem_cons.mpr ⟨ha, hmore⟩
  refine (reports_eatIf _).bind fun closed _ => ?_
  split
  · exact reports_pure (by simp)
  · exact reports_remaining.bind fun fuel _ => hloop fuel

end Parse

section Checks

open Typing

variable {S : Position → Prop} {p : Position} {e left right : Expr}

theorem arises_fault (hp : S p) {problem : Problem} (h : problem.isRepeat = false) :
    ∀ d ∈ fault p problem, d.Arises S := by
  intro d hd
  rw [List.mem_singleton.mp hd]
  exact ⟨hp, h⟩

theorem arises_nil : ∀ d ∈ ([] : List Diagnostic), d.Arises S :=
  fun _ h => absurd h List.not_mem_nil

theorem arises_append {errors more : List Diagnostic} (h : ∀ d ∈ errors, d.Arises S)
    (h' : ∀ d ∈ more, d.Arises S) : ∀ d ∈ errors ++ more, d.Arises S :=
  fun d hd => (List.mem_append.mp hd).elim (h d) (h' d)

theorem arises_flatMap {α : Type} {items : List α} {check : α → List Diagnostic}
    (h : ∀ a ∈ items, ∀ d ∈ check a, d.Arises S) : ∀ d ∈ items.flatMap check, d.Arises S := by
  intro d hd
  obtain ⟨a, ha, hd⟩ := List.mem_flatMap.mp hd
  exact h a ha d hd

/-- A construct that starts at a place in `S`, where its errors stand too. -/
structure Checked.Arises (S : Position → Prop) (c : Checked) : Prop where
  place : S c.expr.position
  errors : ∀ d ∈ c.errors, d.Arises S

theorem arises_checkBoolean (h : S e.position) : ∀ d ∈ checkBoolean e, d.Arises S := by
  rw [checkBoolean]
  split
  exacts [arises_nil, arises_fault h rfl]

theorem arises_logical (op : BinaryOp) (hl : S left.position) (hr : S right.position) :
    (logical op left right).Arises S :=
  ⟨hl, arises_append (arises_checkBoolean hl) (arises_checkBoolean hr)⟩

theorem arises_comparison (op : BinaryOp) (hp : S p) (hl : S left.position) :
    (comparison op left right p).Arises S := by
  refine ⟨hl, ?_⟩
  simp only [comparison, comparisonErrors]
  split_ifs
  exacts [arises_nil, arises_fault hp rfl, arises_fault hp rfl, arises_nil]

theorem arises_arithmetic (op : BinaryOp) (hp : S p) (hl : S left.position) :
    (arithmetic op left right p).Arises S := by
  refine ⟨hl, ?_⟩
  simp only [arithmetic, arithmeticErrors]
  split_ifs
  exacts [arises_nil, arises_fault hp rfl, arises_fault hp rfl]

theorem arises_negation (hp : S p) (he : S e.position) : (negation p e).Arises S :=
  ⟨hp, arises_checkBoolean he⟩

theorem arises_signed (op : UnaryOp) (hp : S p) : (signed op p e).Arises S := by
  refine ⟨hp, ?_⟩
  simp only [signed]
  split_ifs
  exacts [arises_fault hp rfl, arises_nil]

theorem arises_access (name : String) (hp : S p) (he : S e.position) :
    (access e name p).Arises S := by
  refine ⟨he, ?_⟩
  simp only [access]
  split_ifs
  exacts [arises_nil, arises_fault hp rfl]

theorem arises_index (hp : S p) (hl : S left.position) (hr : S right.position) :
    (index left right p).Arises S := by
  refine ⟨hl, ?_⟩
  simp only [index, indexErrors]
  split
  case h_1 => exact arises_nil
  case h_4 => exact arises_fault hp rfl
  all_goals
    split
    exacts [arises_nil, arises_fault hr rfl]

theorem arises_variableIn (scope : Scope) (name : String) (hp : S p) :
    (variableIn scope name p).Arises S := by
  rw [variableIn]
  split
  exacts [⟨hp, arises_nil⟩, ⟨hp, arises_fault hp rfl⟩]

theorem places_of_values {raw : List RawArg} (hraw : ∀ arg ∈ raw, S arg.value.position)
    {args : List (String × Expr)} (h : args.map (·.2) = raw.map (·.value)) :
    ∀ entry ∈ args, S entry.2.position := by
  intro entry hentry
  have hmem : entry.2 ∈ raw.map (·.value) := h ▸ List.mem_map_of_mem hentry
  obtain ⟨arg, harg, hvalue⟩ := List.mem_map.mp hmem
  exact hvalue ▸ hraw arg harg

theorem arises_namedErrors (name : String) (d : Descriptor) {args : List (String × Expr)}
    (hp : S p) (hargs : ∀ entry ∈ args, S entry.2.position) :
    ∀ e ∈ namedErrors name d args p, e.Arises S := by
  refine arises_append (arises_flatMap fun (param, value) hentry => ?_)
    (arises_flatMap fun param _ => ?_)
  · simp only
    split
    exacts [arises_nil, arises_fault (hargs _ hentry) rfl]
  · split
    exacts [arises_nil, arises_fault hp rfl]

theorem arises_placeErrors (name : String) (d : Descriptor) (given : Nat) (hp : S p) :
    ∀ e ∈ placeErrors name d given p, e.Arises S := by
  rw [placeErrors]
  split_ifs
  exacts [arises_fault hp rfl, arises_fault hp rfl, arises_nil]

theorem arises_argumentErrors (name : String) (d : Descriptor) {args : List (String × Expr)}
    (hargs : ∀ entry ∈ args, S entry.2.position) :
    ∀ e ∈ argumentErrors name d args, e.Arises S := by
  refine arises_flatMap fun (param, value) hentry => ?_
  cases hparam : d.param? param with
  | none =>
    simp only [hparam]
    exact arises_nil
  | some declared =>
    simp only [hparam]
    split
    exacts [arises_nil, arises_fault (hargs _ hentry) rfl]

theorem arises_effectErrors (name : String) (d : Descriptor) (inCondition : Bool) (hp : S p) :
    ∀ e ∈ effectErrors name d inCondition p, e.Arises S := by
  rw [effectErrors]
  split
  exacts [arises_fault hp rfl, arises_nil]

theorem arises_knownCall (f : Function) (inCondition : Bool) (name : String) (named : Bool)
    {raw : List RawArg} (hp : S p) (hraw : ∀ arg ∈ raw, S arg.value.position) :
    (knownCall f inCondition name named raw p).Arises S := by
  have heffect := arises_effectErrors name f.descriptor inCondition hp
  cases named with
  | true =>
    have hargs := places_of_values hraw (values_nameArgs 0 raw)
    exact ⟨hp, arises_append (arises_append (arises_namedErrors name _ hp hargs)
      (arises_argumentErrors name _ hargs)) heffect⟩
  | false =>
    have hargs := places_of_values hraw (values_placeArgs f.descriptor.params 0 raw)
    exact ⟨hp, arises_append (arises_append (arises_placeErrors name _ _ hp)
      (arises_argumentErrors name _ hargs)) heffect⟩

theorem arises_call (registry : Registry) (inCondition : Bool) (name : String) {raw : List RawArg}
    (hp : S p) (hraw : ∀ arg ∈ raw, S arg.value.position) :
    (call registry inCondition name raw p).Arises S := by
  have hchecked : ∀ checked : Checked, checked.Arises S → ∀ mixed : List Diagnostic,
      (∀ d ∈ mixed, d.Arises S) →
        Checked.Arises S { checked with errors := mixed ++ checked.errors } :=
    fun checked h mixed hmixed => ⟨h.place, arises_append hmixed h.errors⟩
  refine hchecked _ ?_ _ ?_
  · split
    · exact arises_knownCall _ inCondition name _ hp hraw
    · exact ⟨hp, arises_fault hp rfl⟩
  · split
    exacts [arises_fault hp rfl, arises_nil]

end Checks

end LogRules
