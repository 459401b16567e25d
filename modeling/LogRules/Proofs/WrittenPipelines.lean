import LogRules.Proofs.RereadDeclarations

/-!
Pipelines as they are written: complete stages in any order, words in any case, either word for a
policy that has two, with and without the semicolons that may be left out. Parsing reads every stage
and brings them into the order of their numbers.
-/
namespace LogRules

open Parse Grammar

/-- The words that a policy is written with. -/
def MatchPolicy.words : MatchPolicy → List String
  | all => ["all"]
  | either => ["either", "any"]
  | pass => ["pass"]

/-- A reference to a rule as it is written. -/
structure StageRef where
  word : Lexeme
  name : String
  /-- Whether a semicolon stands behind it. -/
  closed : Bool
  isRule : word.isKeyword "rule" = true

def StageRef.lexemes (r : StageRef) : List Lexeme :=
  r.word :: .string r.name :: if r.closed then [.symbol .semicolon] else []

/-- A complete stage as it is written, with a number in the range. -/
structure StageBlock where
  opening : Lexeme
  negative : Bool
  magnitude : Int64
  matching : Lexeme
  policyWord : Lexeme
  policy : MatchPolicy
  refs : List StageRef
  isStage : opening.isKeyword "stage" = true
  isMatch : matching.isKeyword "match" = true
  isPolicy : ∃ word ∈ policy.words, policyWord.isKeyword word = true
  inRange : IsStageNumber (if negative then -magnitude.toInt else magnitude.toInt)

namespace StageBlock

def number (b : StageBlock) : Int := if b.negative then -b.magnitude.toInt else b.magnitude.toInt

def lexemes (b : StageBlock) : List Lexeme :=
  [b.opening] ++ ((if b.negative then [.symbol .minus] else []) ++ [.integer b.magnitude]) ++
    [b.matching, b.policyWord] ++ b.refs.flatMap StageRef.lexemes

/-- What a stage says, wherever it stands. -/
def stage (b : StageBlock) : Stage := ⟨b.number, b.policy, b.refs.map (·.name), [], .nowhere⟩

end StageBlock

/-- A pipeline as it is written, with its stages in the order of the source. -/
structure PipelineBlock where
  opening : Lexeme
  name : String
  stages : List StageBlock
  closing : Lexeme
  isPipeline : opening.isKeyword "pipeline" = true
  isEnd : closing.isKeyword "end" = true

namespace PipelineBlock

def lexemes (b : PipelineBlock) : List Lexeme :=
  [b.opening] ++ [.string b.name] ++ b.stages.flatMap StageBlock.lexemes ++ [b.closing]

def numbers (b : PipelineBlock) : List Int := b.stages.map StageBlock.number

end PipelineBlock

/-- The same stage, said to stand nowhere. -/
def Stage.unplaced (s : Stage) : Stage := s.relocate fun _ => .nowhere

/-- The same pipeline, said to stand nowhere, with its stages. -/
def Pipeline.unplaced (p : Pipeline) : Pipeline := p.relocate fun _ => .nowhere

theorem Lexeme.ne_eof_of_isKeyword {l : Lexeme} {word : String} (h : l.isKeyword word = true) :
    l ≠ .eof := by
  rintro rfl
  cases h

theorem Lexeme.ne_symbol_of_isKeyword {l : Lexeme} {word : String} (h : l.isKeyword word = true)
    (s : Symbol) : l ≠ .symbol s := by
  rintro rfl
  cases h

namespace Parse

variable {β : Type} {ls : List Lexeme} {ends : Lexeme → Prop} {goal : List Token → Reply β → Prop}

theorem reportAll_then (errors : List Diagnostic) (b : β) (tokens : List Token) :
    (do reportAll errors; return b : Parse β) tokens = ⟨errors, tokens, some b⟩ := by
  show (⟨errors ++ [], tokens, some b⟩ : Reply β) = ⟨errors, tokens, some b⟩
  rw [List.append_nil]

/-- Nothing is eaten where what stands first does not pass the test, be it a known lexeme or what
may follow. -/
theorem Answers.eatIf_first {test : Lexeme → Bool} {f : Bool → Parse β}
    (htest : ∀ l, First ends ls l → test l = false) (hf : Answers (f false) ls ends goal) :
    Answers (Parse.eatIf test >>= f) ls ends goal := by
  intro tokens rest hls hends
  have hfirst := htest _ (first_tokenAt ends hls hends)
  have heat : Parse.eatIf test (tokens ++ rest) = ⟨[], tokens ++ rest, some false⟩ := by
    rw [eatIf_eq, if_neg (by simp [hfirst])]
  rw [bind_eq heat]
  exact hf tokens rest hls hends

end Parse

/-- What stands behind a stage: another one, or the end of the pipeline. -/
def Lexeme.EndsStage (l : Lexeme) : Prop := l.isKeyword "stage" = true ∨ l.isKeyword "end" = true

theorem Lexeme.EndsStage.isKeyword_rule {l : Lexeme} (h : l.EndsStage) :
    l.isKeyword "rule" = false :=
  h.elim (isKeyword_ne · (by decide)) (isKeyword_ne · (by decide))

section Stages

theorem first_refs {refs : List StageRef} {l : Lexeme}
    (h : First Lexeme.EndsStage (refs.flatMap StageRef.lexemes) l) :
    ∃ word, l.isKeyword word = true := by
  cases refs with
  | nil => exact h.elim (fun h => ⟨_, h⟩) fun h => ⟨_, h⟩
  | cons r more =>
    obtain rfl : l = r.word := h
    exact ⟨_, r.isRule⟩

theorem reads_writtenRefs (refs : List StageRef) {fuel : Nat} (hfuel : refs.length ≤ fuel) :
    Reads (stageRefs fuel) (refs.flatMap StageRef.lexemes) Lexeme.EndsStage
      (· = refs.map (·.name)) := by
  induction refs generalizing fuel with
  | nil =>
    intro tokens rest hls hends
    obtain rfl := List.map_eq_nil_iff.mp hls
    exact ⟨[], stageRefs_of_other hends.isKeyword_rule fuel, rfl⟩
  | cons r more ih =>
    obtain ⟨fuel, rfl⟩ : ∃ n, fuel = n + 1 := ⟨fuel - 1, by simp at hfuel; omega⟩
    have hmore := @ih fuel (by simpa using hfuel)
    rw [List.flatMap_cons, StageRef.lexemes]
    refine .eatIf (Lexeme.ne_eof_of_isKeyword r.isRule) r.isRule ?_
    refine (reads_expectString r.name _).bind (fun _ _ => trivial) fun name hname => ?_
    obtain rfl := hname
    have hrest : Reads (do return r.name :: (← stageRefs fuel)) (more.flatMap StageRef.lexemes)
        Lexeme.EndsStage (· = (r :: more).map (·.name)) :=
      hmore.map fun _ hnames => congrArg (r.name :: ·) hnames
    cases r.closed with
    | true => exact .eatIf (by simp) (by simp) hrest
    | false =>
      refine .eatIf_first (fun l hl => ?_) hrest
      obtain ⟨word, hword⟩ := first_refs hl
      exact beq_eq_false_iff_ne.mpr (Lexeme.ne_symbol_of_isKeyword hword .semicolon)

theorem reads_writtenPolicy {policy : MatchPolicy} {l : Lexeme}
    (h : ∃ word ∈ policy.words, l.isKeyword word = true) :
    Reads matchPolicy [l] (fun _ => True) (· = policy) := by
  obtain ⟨word, hword, hl⟩ := h
  have hl' := Lexeme.ne_eof_of_isKeyword hl
  have hother {other : String} (h : Lexeme.sameWord word other = false) := Lexeme.isKeyword_ne hl h
  cases policy with
  | all =>
    obtain rfl := List.mem_singleton.mp hword
    exact .eatIf hl' hl (reads_pure rfl)
  | either =>
    simp only [MatchPolicy.words, List.mem_cons, List.not_mem_nil, or_false] at hword
    obtain rfl | rfl := hword
    · exact .eatIf_not (hother (by decide)) (.eatIf hl' hl (reads_pure rfl))
    · exact .eatIf_not (hother (by decide)) (.eatIf_not (hother (by decide))
        (.eatIf hl' hl (reads_pure rfl)))
  | pass =>
    obtain rfl := List.mem_singleton.mp hword
    exact .eatIf_not (hother (by decide)) (.eatIf_not (hother (by decide))
      (.eatIf_not (hother (by decide)) (.eatIf hl' hl (reads_pure rfl))))

theorem reads_writtenNumber (b : StageBlock) (p : Position) :
    Reads (stageNumber p) ((if b.negative then [.symbol .minus] else []) ++ [.integer b.magnitude])
      (fun _ => True) (· = b.number) := by
  have hnumber : Reads (do
      if leastStage ≤ b.number ∧ b.number ≤ greatestStage then return b.number
      else
        report p (.syntactic s!"stage number {b.number} out of range")
        return 0) [] (fun _ => True) (· = b.number) := by
    rw [if_pos (show leastStage ≤ b.number ∧ b.number ≤ greatestStage from b.inRange)]
    exact reads_pure rfl
  rw [StageBlock.number] at hnumber ⊢
  cases hnegative : b.negative with
  | true =>
    rw [hnegative] at hnumber
    exact .eatIf (by simp) (by simp) (.peek (.advance (by simp) hnumber))
  | false =>
    rw [hnegative] at hnumber
    exact .eatIf_not (by simp) (.peek (.advance (by simp) hnumber))

theorem reads_block (b : StageBlock) :
    Reads stage b.lexemes Lexeme.EndsStage (·.unplaced = b.stage) := by
  rw [StageBlock.lexemes, List.append_assoc, List.append_assoc]
  refine .here fun p => ?_
  refine (reads_expectKeyword b.isStage).bind (fun _ _ => trivial) fun _ _ => ?_
  refine (reads_writtenNumber b p).bind (fun _ _ => trivial) fun _ hnumber => ?_
  refine (reads_expectKeyword b.isMatch).bind (fun _ _ => trivial) fun _ _ => ?_
  refine (reads_writtenPolicy b.isPolicy).bind (fun _ _ => trivial) fun _ hpolicy => ?_
  refine .remaining fun fuel hfuel => ?_
  have hlength : b.refs.length ≤ (b.refs.flatMap StageRef.lexemes).length :=
    length_le_flatMap fun r _ => by simp [StageRef.lexemes]
  refine (reads_writtenRefs b.refs (hlength.trans hfuel)).map fun refs hrefs => ?_
  rw [hnumber, hpolicy, hrefs]
  rfl

theorem reads_blocks (blocks : List StageBlock) {fuel : Nat} (hfuel : blocks.length ≤ fuel) :
    Reads (stages fuel) (blocks.flatMap StageBlock.lexemes) (·.isKeyword "end" = true)
      (·.map Stage.unplaced = blocks.map StageBlock.stage) := by
  induction blocks generalizing fuel with
  | nil =>
    intro tokens rest hls hends
    obtain rfl := List.map_eq_nil_iff.mp hls
    exact ⟨[], stages_of_end hends fuel, rfl⟩
  | cons b more ih =>
    obtain ⟨fuel, rfl⟩ : ∃ n, fuel = n + 1 := ⟨fuel - 1, by simp at hfuel; omega⟩
    have hmore := @ih fuel (by simpa using hfuel)
    have hnext : ∀ l, First (·.isKeyword "end" = true) (more.flatMap StageBlock.lexemes) l →
        l.EndsStage := by
      cases more with
      | nil => exact fun l hl => .inr hl
      | cons c more =>
        rintro _ rfl
        exact .inl c.isStage
    refine .atKeyword ?_
    rw [if_pos b.isStage]
    refine (reads_block b).bind hnext fun s hs => hmore.map fun found hfound => ?_
    rw [List.map_cons, hs, hfound, List.map_cons]

end Stages

/-- What is wrong with the numbers of the stages of a pipeline at a place. -/
def numberingErrors (pipeline : String) (position : Position) (found : List Stage) :
    List Diagnostic :=
  (if found.isEmpty then [⟨position, .emptyPipeline pipeline⟩] else []) ++
    stageErrors pipeline (sortBy Stage.number found)

/-- All stages that are written are read, and nothing but their numbers can be wrong. -/
theorem answers_pipeline (b : PipelineBlock) :
    Answers pipeline b.lexemes (fun _ => True) fun rest reply =>
      ∃ found position, found.map Stage.unplaced = b.stages.map StageBlock.stage ∧
        reply = ⟨numberingErrors b.name position found, rest,
          some ⟨b.name, sortBy Stage.number found, position⟩⟩ := by
  rw [PipelineBlock.lexemes, List.append_assoc, List.append_assoc]
  refine .here fun p => ?_
  refine (reads_expectKeyword b.isPipeline).bind (fun _ _ => trivial) fun _ _ => ?_
  refine (reads_expectString b.name _).bind (fun _ _ => trivial) fun name hname => ?_
  obtain rfl := hname
  refine .remaining fun fuel hfuel => ?_
  have hlength : b.stages.length ≤ (b.stages.flatMap StageBlock.lexemes).length :=
    length_le_flatMap fun s _ => by simp [StageBlock.lexemes]
  have hprefix := (List.sublist_append_left _ [b.closing]).length_le.trans hfuel
  refine (reads_blocks b.stages (hlength.trans hprefix)).bind ?_ fun found hfound => ?_
  · rintro _ rfl
    exact b.isEnd
  intro tokens rest hls hends
  obtain ⟨_, hclose, -⟩ := reads_expectKeyword b.isEnd tokens rest hls trivial
  refine ⟨found, p, hfound, ?_⟩
  rw [bind_eq hclose]
  cases found with
  | nil => rfl
  | cons s more => exact reportAll_then _ _ rest

/-- A pipeline is read where a declaration is looked for. -/
theorem declaration_of_pipeline (registry : Registry) (b : PipelineBlock) {tokens : List Token}
    (h : tokens.map Token.lexeme = b.lexemes) (behind : List Token) :
    ∃ found position, found.map Stage.unplaced = b.stages.map StageBlock.stage ∧
      declaration registry (tokens ++ behind) = ⟨numberingErrors b.name position found, behind,
        some (.pipeline ⟨b.name, sortBy Stage.number found, position⟩)⟩ := by
  obtain ⟨found, position, hfound, hreply⟩ := answers_pipeline b tokens behind h trivial
  refine ⟨found, position, hfound, ?_⟩
  obtain ⟨t, rest, rfl, ht, -⟩ := List.map_eq_cons_iff.mp h
  have hword (word : String) : atKeyword word (t :: rest ++ behind) =
      ⟨[], t :: rest ++ behind, some (b.opening.isKeyword word)⟩ := by
    rw [← ht]
    rfl
  have hrule : b.opening.isKeyword "rule" = false :=
    Lexeme.isKeyword_ne b.isPipeline (by decide)
  rw [declaration, declarationWith, bind_lift (hword "rule"), hrule, if_neg Bool.false_ne_true,
    bind_lift (hword "pipeline"), b.isPipeline, if_pos rfl]
  simp only [liftM_self, bind_pure_eq, hreply, Option.map_some]

end LogRules
