import LogRules.Proofs.OrderedDiagnostics
import LogRules.Proofs.WrittenPipelines

/-!
The numbers of the stages of a pipeline. They are accepted exactly when they are an interval of
numbers, each taken once; the order of the stages in the source does not matter then.
-/
namespace LogRules

open Parse Grammar

/-- At least one number, none twice, and none missing between the least and the greatest. -/
def Gapless (numbers : List Int) : Prop :=
  numbers ≠ [] ∧ numbers.Nodup ∧ ∃ low high, ∀ n, n ∈ numbers ↔ low ≤ n ∧ n ≤ high

theorem Gapless.perm {ns ms : List Int} (hperm : ns.Perm ms) (h : Gapless ns) : Gapless ms := by
  obtain ⟨hne, hnodup, low, high, hmem⟩ := h
  refine ⟨fun hms => ?_, hperm.nodup_iff.mp hnodup, low, high, fun n => ?_⟩
  · rw [hms] at hperm
    exact hne hperm.eq_nil
  · rw [← hperm.mem_iff, hmem]

theorem gapless_perm {ns ms : List Int} (hperm : ns.Perm ms) : Gapless ns ↔ Gapless ms :=
  ⟨.perm hperm, .perm hperm.symm⟩

section Intervals

/-- Numbers that ascend without a hole follow each other by one. -/
theorem isChain_of_convex {ns : List Int} (hlt : ns.Pairwise (· < ·))
    (hconvex : ∀ a ∈ ns, ∀ b ∈ ns, ∀ n, a ≤ n → n ≤ b → n ∈ ns) :
    ns.IsChain fun a b => b = a + 1 := by
  induction ns with
  | nil => exact .nil
  | cons a rest ih =>
    obtain ⟨ha, hrest⟩ := List.pairwise_cons.mp hlt
    have htail : ∀ x ∈ rest, ∀ y ∈ rest, ∀ n, x ≤ n → n ≤ y → n ∈ rest := by
      intro x hx y hy n hxn hny
      have hn := hconvex x (.tail _ hx) y (.tail _ hy) n hxn hny
      have hax := ha x hx
      exact (List.mem_cons.mp hn).resolve_left (by omega)
    have hchain := ih hrest htail
    cases rest with
    | nil => exact .singleton a
    | cons b more =>
      have hab := ha b List.mem_cons_self
      -- The number behind `a` is in the list; only `b` can be so small.
      have hnext := hconvex a (.head _) b (.tail _ (.head _)) (a + 1) (by omega) (by omega)
      refine List.isChain_cons_cons.mpr ⟨?_, hchain⟩
      rcases List.mem_cons.mp hnext with hself | hnext
      · omega
      · rcases List.mem_cons.mp hnext with hb | hmore
        · exact hb.symm
        · have := (List.pairwise_cons.mp hrest).1 _ hmore
          omega

theorem mem_of_isChain {a : Int} {rest : List Int}
    (h : (a :: rest).IsChain fun a b => b = a + 1) :
    ∃ high, ∀ n, n ∈ a :: rest ↔ a ≤ n ∧ n ≤ high := by
  induction rest generalizing a with
  | nil =>
    refine ⟨a, fun n => ?_⟩
    rw [List.mem_singleton]
    omega
  | cons b more ih =>
    obtain ⟨rfl, hmore⟩ := List.isChain_cons_cons.mp h
    obtain ⟨high, hhigh⟩ := ih hmore
    have hleast := (hhigh (a + 1)).mp List.mem_cons_self
    refine ⟨high, fun n => ?_⟩
    rw [List.mem_cons, hhigh]
    omega

theorem pairwise_of_isChain {ns : List Int} (h : ns.IsChain fun a b => b = a + 1) :
    ns.Pairwise (· < ·) :=
  List.isChain_iff_pairwise.mp (h.imp fun _ _ hab => by omega)

/-- Of numbers in ascending order it is enough to compare the neighbours. -/
theorem gapless_iff_isChain {ns : List Int} (hsorted : ns.Pairwise (· ≤ ·)) :
    Gapless ns ↔ ns ≠ [] ∧ ns.IsChain fun a b => b = a + 1 := by
  constructor
  · rintro ⟨hne, hnodup, low, high, hmem⟩
    have hlt : ns.Pairwise (· < ·) :=
      hsorted.imp₂ (fun _ _ hle hne => lt_of_le_of_ne hle hne) hnodup
    refine ⟨hne, isChain_of_convex hlt fun a ha b hb n han hnb => ?_⟩
    rw [hmem] at ha hb ⊢
    omega
  · rintro ⟨hne, hchain⟩
    cases ns with
    | nil => exact absurd rfl hne
    | cons a rest =>
      have hnodup := (pairwise_of_isChain hchain).imp fun hab => ne_of_lt hab
      exact ⟨hne, hnodup, a, mem_of_isChain hchain⟩

end Intervals

/-- Whether stages follow each other by one. -/
def Stage.Ascend (ss : List Stage) : Prop := ss.IsChain fun s t => t.number = s.number + 1

theorem Stage.ascend_iff {ss : List Stage} :
    Stage.Ascend ss ↔ (ss.map Stage.number).IsChain fun a b => b = a + 1 :=
  Iff.symm (List.isChain_map (R := fun a b => b = a + 1) Stage.number)

/-- Problems with the numbers of the stages of a pipeline. -/
def Problem.isNumbering : Problem → Bool
  | emptyPipeline _ | duplicateStage _ _ | nonContiguousStages _ _ _ => true
  | _ => false

section Errors

variable {name : String} {ss : List Stage}

/-- Nothing stands behind the greatest number, so that a sum that stays in the range excuses no
stage. -/
theorem stageErrors_eq_nil (hnumbers : ∀ s ∈ ss, IsStageNumber s.number) :
    stageErrors name ss = [] ↔ Stage.Ascend ss := by
  induction ss with
  | nil => exact iff_of_true rfl .nil
  | cons s more ih =>
    cases more with
    | nil => exact iff_of_true rfl (.singleton s)
    | cons t more =>
      have hmore := ih fun u hu => hnumbers u (.tail _ hu)
      have hs := (hnumbers s (by simp)).2
      have ht := (hnumbers t (by simp)).2
      rw [stageErrors_cons_eq_nil, hmore, Stage.Ascend, Stage.Ascend, List.isChain_cons_cons]
      refine and_congr_left fun _ => ?_
      omega

theorem isNumbering_of_mem_stageErrors {d : Diagnostic} (h : d ∈ stageErrors name ss) :
    d.problem.isNumbering = true := by
  induction ss with
  | nil => cases h
  | cons s more ih =>
    cases more with
    | nil => cases h
    | cons t more =>
      rw [stageErrors, List.mem_append] at h
      refine h.elim (fun h => ?_) ih
      split at h
      · rw [List.mem_singleton.mp h]
        rfl
      · split at h
        · rw [List.mem_singleton.mp h]
          rfl
        · cases h

theorem isNumbering_of_mem {position : Position} {d : Diagnostic}
    (h : d ∈ numberingErrors name position ss) : d.problem.isNumbering = true := by
  rcases List.mem_append.mp h with h | h
  · split at h
    · rw [List.mem_singleton.mp h]
      rfl
    · cases h
  · exact isNumbering_of_mem_stageErrors h

theorem pairwise_numbers (ss : List Stage) :
    ((sortBy Stage.number ss).map Stage.number).Pairwise (· ≤ ·) :=
  List.pairwise_map.mpr (pairwise_sortBy le_trans le_of_not_ge ss)

theorem numberingErrors_eq_nil (position : Position)
    (hnumbers : ∀ s ∈ ss, IsStageNumber s.number) :
    numberingErrors name position ss = [] ↔ Gapless (ss.map Stage.number) := by
  have hperm := sortBy_perm Stage.number ss
  have hsorted : ∀ s ∈ sortBy Stage.number ss, IsStageNumber s.number :=
    fun s hs => hnumbers s (hperm.mem_iff.mp hs)
  rw [← gapless_perm (hperm.map Stage.number), gapless_iff_isChain (pairwise_numbers ss),
    ← Stage.ascend_iff, numberingErrors, List.append_eq_nil_iff, stageErrors_eq_nil hsorted]
  refine and_congr_left fun _ => ?_
  have hnil : sortBy Stage.number ss = [] ↔ ss = [] := by
    rw [← List.length_eq_zero_iff, hperm.length_eq, List.length_eq_zero_iff]
  rw [ne_eq, List.map_eq_nil_iff, hnil]
  cases ss <;> simp

end Errors

/-- Stages that follow each other by one are determined by what they are, in whatever order they
are given. -/
theorem eq_of_ascend {ss ts : List Stage} (hperm : ss.Perm ts) (hs : Stage.Ascend ss)
    (ht : Stage.Ascend ts) : ss = ts := by
  have hlt {us : List Stage} (h : Stage.Ascend us) : us.Pairwise fun s t => s.number < t.number :=
    List.pairwise_map.mp (pairwise_of_isChain (Stage.ascend_iff.mp h))
  refine hperm.eq_of_pairwise (fun s t _ _ hst hts => ?_) (hlt hs) (hlt ht)
  omega

section Found

variable {found found' : List Stage} {blocks : List StageBlock}

theorem numbers_of_found (h : found.map Stage.unplaced = blocks.map StageBlock.stage) :
    found.map Stage.number = blocks.map StageBlock.number := by
  have hnumbers := congrArg (List.map Stage.number) h
  rwa [List.map_map, List.map_map] at hnumbers

theorem isStageNumber_of_found (h : found.map Stage.unplaced = blocks.map StageBlock.stage) :
    ∀ s ∈ found, IsStageNumber s.number := by
  refine List.forall_mem_map.mp ?_
  rw [numbers_of_found h]
  exact List.forall_mem_map.mpr fun b _ => b.inRange

theorem ascend_unplaced {ss : List Stage} :
    Stage.Ascend (ss.map Stage.unplaced) ↔ Stage.Ascend ss := by
  rw [Stage.ascend_iff, Stage.ascend_iff, List.map_map]
  rfl

theorem ascend_of_numberingErrors {name : String} {position : Position}
    (hnumbers : ∀ s ∈ found, IsStageNumber s.number)
    (h : numberingErrors name position found = []) : Stage.Ascend (sortBy Stage.number found) :=
  (stageErrors_eq_nil fun s hs => hnumbers s ((sortBy_perm _ _).mem_iff.mp hs)).mp
    (List.append_eq_nil_iff.mp h).2

theorem sorted_unplaced_eq (hsame : (found'.map Stage.unplaced).Perm (found.map Stage.unplaced))
    (h' : Stage.Ascend (sortBy Stage.number found'))
    (h : Stage.Ascend (sortBy Stage.number found)) :
    (sortBy Stage.number found').map Stage.unplaced =
      (sortBy Stage.number found).map Stage.unplaced := by
  have hsorted (ss : List Stage) :
      ((sortBy Stage.number ss).map Stage.unplaced).Perm (ss.map Stage.unplaced) :=
    (sortBy_perm _ _).map _
  exact eq_of_ascend ((hsorted found').trans (hsame.trans (hsorted found).symm))
    (ascend_unplaced.mpr h') (ascend_unplaced.mpr h)

end Found

/-- A source of one declaration says what the declaration says. -/
theorem parseSource_single {registry : Registry} {source : String} {t last : Token}
    {rest : List Token} {errors : List Diagnostic} {d : Declaration} (ht : t.lexeme ≠ .eof)
    (hlast : last.lexeme = .eof) (hsource : (tokenize source).1 = t :: rest ++ [last])
    (h : declaration registry (t :: rest ++ [last]) = ⟨errors, [last], some d⟩) :
    parseSource source registry = ⟨[d], Diagnostic.arrange ((tokenize source).2 ++ errors)⟩ := by
  have hattempt : attempt (declaration registry) (t :: rest ++ [last]) =
      ⟨errors, [last], some (some d)⟩ := by
    rw [attempt, h]
  have hend := declarations_of_eof registry (show tokenAt 0 [last] = .eof from hlast)
    (rest ++ [last]).length
  have hreply : declarations registry (t :: rest ++ [last]).length (t :: rest ++ [last]) =
      ⟨errors, [last], some [d]⟩ := by
    rw [List.cons_append, List.length_cons, ← List.cons_append,
      declarations_succ registry (show tokenAt 0 (t :: rest ++ [last]) ≠ .eof from ht)]
    simp only [bind_found hattempt, bind_pure_eq, hend, Option.map_some, List.append_nil]
  simp only [parseSource, Parse.run, hsource, hreply, Option.getD_some]

/-- A pipeline with complete stages in any order is read. Nothing can be wrong with it but the
numbers of its stages, and nothing is wrong exactly when they are an interval without a repetition.
The stages then ascend by one, and the same stages in any other order, wherever they stand, are the
same pipeline. -/
theorem pipeline_numbered (registry : Registry) (b : PipelineBlock) {tokens : List Token}
    (h : tokens.map Token.lexeme = b.lexemes) (behind : List Token) :
    ∃ errors p, declaration registry (tokens ++ behind) = ⟨errors, behind, some (.pipeline p)⟩ ∧
      p.name = b.name ∧
      (p.stages.map Stage.unplaced).Perm (b.stages.map StageBlock.stage) ∧
      (∀ d ∈ errors, d.problem.isNumbering = true) ∧
      (errors = [] ↔ Gapless b.numbers) ∧
      (errors = [] → Stage.Ascend p.stages ∧
        ∀ b' : PipelineBlock, b'.name = b.name →
          (b'.stages.map StageBlock.stage).Perm (b.stages.map StageBlock.stage) →
          ∀ tokens' behind', tokens'.map Token.lexeme = b'.lexemes →
            ∃ p', declaration registry (tokens' ++ behind') = ⟨[], behind', some (.pipeline p')⟩ ∧
              p'.unplaced = p.unplaced) ∧
      (∀ source last, behind = [last] → last.lexeme = .eof →
        (tokenize source).1 = tokens ++ behind →
        parseSource source registry =
          ⟨[.pipeline p], Diagnostic.arrange ((tokenize source).2 ++ errors)⟩) := by
  obtain ⟨found, position, hfound, hreply⟩ := declaration_of_pipeline registry b h behind
  have hnumbers := isStageNumber_of_found hfound
  have hstages : ((sortBy Stage.number found).map Stage.unplaced).Perm
      (b.stages.map StageBlock.stage) := by
    rw [← hfound]
    exact (sortBy_perm _ _).map _
  refine ⟨_, _, hreply, rfl, hstages, fun d hd => isNumbering_of_mem hd, ?_, fun hnil => ?_, ?_⟩
  · rw [numberingErrors_eq_nil position hnumbers, numbers_of_found hfound]
    rfl
  · have hascend := ascend_of_numberingErrors hnumbers hnil
    refine ⟨hascend, fun b' hname hperm tokens' behind' h' => ?_⟩
    obtain ⟨found', position', hfound', hreply'⟩ := declaration_of_pipeline registry b' h' behind'
    have hnumbers' := isStageNumber_of_found hfound'
    have hsame : (found'.map Stage.unplaced).Perm (found.map Stage.unplaced) := by
      rwa [hfound, hfound']
    have hnil' : numberingErrors b'.name position' found' = [] := by
      rw [numberingErrors_eq_nil position hnumbers] at hnil
      rw [numberingErrors_eq_nil position' hnumbers']
      have hms := hsame.symm.map Stage.number
      rw [List.map_map, List.map_map] at hms
      exact hnil.perm hms
    rw [hnil'] at hreply'
    refine ⟨_, hreply', ?_⟩
    have hascend' := ascend_of_numberingErrors hnumbers' hnil'
    show Pipeline.mk b'.name _ Position.nowhere = ⟨b.name, _, Position.nowhere⟩
    rw [hname]
    exact congrArg (Pipeline.mk b.name · .nowhere) (sorted_unplaced_eq hsame hascend' hascend)
  · rintro source last rfl hlast hsource
    obtain ⟨t, rest, rfl, ht, -⟩ := List.map_eq_cons_iff.mp h
    have hopening : t.lexeme ≠ .eof := ht ▸ Lexeme.ne_eof_of_isKeyword b.isPipeline
    exact parseSource_single hopening hlast hsource hreply

/-- The last two numbers that a stage can have, the greater one first. -/
def highestStages : PipelineBlock where
  opening := .name "pipeline"
  name := "highest"
  stages := [
    { opening := .name "stage", negative := false, magnitude := 2147483647
      matching := .name "match", policyWord := .name "ANY", policy := .either
      refs := [⟨.name "rule", "late", false, by decide⟩], isStage := by decide
      isMatch := by decide, isPolicy := ⟨"any", by decide, by decide⟩, inRange := by decide },
    { opening := .name "stage", negative := false, magnitude := 2147483646
      matching := .name "match", policyWord := .name "pass", policy := .pass
      refs := [⟨.name "rule", "early", true, by decide⟩], isStage := by decide
      isMatch := by decide, isPolicy := ⟨"pass", by decide, by decide⟩, inRange := by decide }]
  closing := .name "end"
  isPipeline := by decide
  isEnd := by decide

theorem highestStages_gapless : Gapless highestStages.numbers := by
  refine ⟨by decide, by decide, 2147483646, 2147483647, fun n => ?_⟩
  have hnumbers : highestStages.numbers = [2147483647, 2147483646] := by decide
  rw [hnumbers, List.mem_cons, List.mem_singleton]
  omega

theorem pipeline_numbered_highestStages : ∃ p,
    declaration (.ofList []) (highestStages.lexemes.map (⟨·, .start⟩) ++ []) =
      ⟨[], [], some (.pipeline p)⟩ ∧
    (p.stages.map Stage.unplaced).Perm (highestStages.stages.map StageBlock.stage) ∧
    Stage.Ascend p.stages := by
  have hlexemes : (highestStages.lexemes.map (⟨·, .start⟩)).map Token.lexeme =
      highestStages.lexemes := by
    rw [List.map_map]
    exact List.map_id _
  obtain ⟨errors, p, hreply, -, hstages, -, hgapless, hascend, -⟩ :=
    pipeline_numbered (.ofList []) highestStages hlexemes []
  obtain rfl := hgapless.mpr highestStages_gapless
  exact ⟨p, hreply, hstages, (hascend rfl).1⟩

end LogRules
