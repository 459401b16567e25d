import LogRules.Deployment
import LogRules.Proofs.Deployments
import LogRules.Proofs.Places
import LogRules.Proofs.SortedEntries
import Mathlib.Tactic.Tauto

/-!
Which sources can be deployed, what a deployment of them holds, and what is reported of them
otherwise. Names are kept source by source; of two declarations of one kind and name the first one
stays and the other one is an error of the source that it stands in.
-/
namespace LogRules

/-- What is to be declared once. Rules and pipelines do not share their names. -/
inductive DeclaredName
  | rule (name : String)
  | pipeline (name : String)
deriving DecidableEq

namespace Declaration

def key : Declaration → DeclaredName
  | rule r => .rule r.name
  | pipeline p => .pipeline p.name

/-- What is reported of a declaration whose name was declared before. -/
def repeated : Declaration → Diagnostic
  | rule r => ⟨r.position, .duplicateRule r.name⟩
  | pipeline p => ⟨p.position, .duplicatePipeline p.name⟩

theorem position_repeated (d : Declaration) : d.repeated.position = d.position := by cases d <;> rfl

theorem isRepeat_repeated (d : Declaration) : d.repeated.problem.isRepeat = true := by
  cases d <;> rfl

theorem rule_mem_keys {declarations : List Declaration} {name : String} :
    .rule name ∈ declarations.map key ↔ name ∈ (declarations.filterMap rule?).map Rule.name := by
  induction declarations with
  | nil => simp
  | cons d rest ih => cases d <;> simp_all [key, rule?]

theorem pipeline_mem_keys {declarations : List Declaration} {name : String} :
    .pipeline name ∈ declarations.map key ↔
      name ∈ (declarations.filterMap pipeline?).map Pipeline.name := by
  induction declarations with
  | nil => simp
  | cons d rest ih => cases d <;> simp_all [key, pipeline?]

theorem nodup_keys {declarations : List Declaration} : (declarations.map key).Nodup ↔
    ((declarations.filterMap rule?).map Rule.name).Nodup ∧
      ((declarations.filterMap pipeline?).map Pipeline.name).Nodup := by
  induction declarations with
  | nil => simp
  | cons d rest ih =>
    rw [List.map_cons, List.nodup_cons, ih]
    cases d with
    | rule r =>
      have hr : (rule r).key = .rule r.name := rfl
      rw [hr, rule_mem_keys]
      simp only [List.filterMap_cons, rule?, pipeline?, List.map_cons, List.nodup_cons, and_assoc]
    | pipeline p =>
      have hp : (pipeline p).key = .pipeline p.name := rfl
      rw [hp, pipeline_mem_keys]
      simp only [List.filterMap_cons, rule?, pipeline?, List.map_cons, List.nodup_cons]
      tauto

end Declaration

namespace Deployment

/-- One error for every declaration whose kind and name were declared earlier. -/
def repeats (earlier : List Declaration) : List Declaration → List Diagnostic
  | [] => []
  | d :: rest =>
    (if d.key ∈ earlier.map Declaration.key then [d.repeated] else []) ++
      repeats (earlier ++ [d]) rest

/-- All that sources declare, in order. -/
def declared (registry : Registry) (units : List SourceUnit) : List Declaration :=
  units.flatMap fun unit => (parseSource unit.text registry).declarations

/-- The errors of each source: its own, and those for names that were declared earlier. -/
def faults (registry : Registry) (earlier : List Declaration) :
    List SourceUnit → List (SourceUnit × List Diagnostic)
  | [] => []
  | unit :: rest =>
    let parsed := parseSource unit.text registry
    (unit, parsed.errors ++ repeats earlier parsed.declarations) ::
      faults registry (earlier ++ parsed.declarations) rest

/-- Sources without errors that declare no rule and no pipeline twice. -/
structure Valid (registry : Registry) (units : List SourceUnit) : Prop where
  clean : ∀ unit ∈ units, (parseSource unit.text registry).errors = []
  rules : (((declared registry units).filterMap Declaration.rule?).map Rule.name).Nodup
  pipelines : (((declared registry units).filterMap Declaration.pipeline?).map Pipeline.name).Nodup

/-- A deployment of just these declarations. A stage has one rule for each reference: the declared
one, or else one that never matches. -/
structure Holds (d : Deployment) (declarations : List Declaration) : Prop where
  rule : ∀ name r, d.rule? name = some r ↔ .rule r ∈ declarations ∧ r.name = name
  pipeline : ∀ name p, d.pipeline? name = some p ↔ ∃ q, .pipeline q ∈ declarations ∧ q.name = name ∧
    p = ⟨q.name, q.stages.map fun s =>
      { s with rules := s.refs.map fun ref => (d.rule? ref).getD (.alwaysFalse ref) }, q.position⟩

/-- What is reported of a source: its errors, none lost and none invented, by their places. -/
structure Tells (entry : SourceUnit × List Diagnostic) (found : SourceDiagnostics) : Prop where
  label : found.label = entry.1.label
  errors : found.diagnostics.errors.Perm entry.2
  ordered : found.diagnostics.errors.Pairwise fun d d' => d.position ≤ d'.position

section Repeats

variable {earlier declarations : List Declaration} {source : String} {registry : Registry}

theorem repeats_sublist (earlier declarations : List Declaration) :
    (repeats earlier declarations).Sublist (declarations.map Declaration.repeated) := by
  induction declarations generalizing earlier with
  | nil => exact .slnil
  | cons d rest ih =>
    rw [repeats, List.map_cons]
    split
    · exact (ih _).cons_cons d.repeated
    · exact (ih _).cons d.repeated

/-- Nothing is reported if no name is declared twice, here and earlier. -/
theorem repeats_eq_nil (h : (earlier.map Declaration.key).Nodup) :
    repeats earlier declarations = [] ↔
      ((earlier ++ declarations).map Declaration.key).Nodup := by
  induction declarations generalizing earlier with
  | nil => simpa [repeats] using h
  | cons d rest ih =>
    have hsplit : earlier ++ d :: rest = earlier ++ [d] ++ rest := by simp
    rw [repeats, List.append_eq_nil_iff]
    by_cases hd : d.key ∈ earlier.map Declaration.key
    · rw [if_pos hd, List.map_append, List.map_cons]
      refine iff_of_false (fun h => by cases h.1) fun hnodup => ?_
      exact (List.nodup_append.mp hnodup).2.2 d.key hd d.key List.mem_cons_self rfl
    · have hmore : ((earlier ++ [d]).map Declaration.key).Nodup := by
        rw [List.map_append, List.map_singleton]
        exact h.append (List.nodup_singleton _) (by simpa using hd)
      rw [if_neg hd, hsplit, ← ih hmore, and_iff_right rfl]

/-- Errors for repeated declarations differ in their places. -/
theorem nodup_repeats (source : String) (registry : Registry) (earlier : List Declaration) :
    (repeats earlier (parseSource source registry).declarations).Nodup := by
  refine List.Nodup.sublist (repeats_sublist _ _) (List.pairwise_map.mpr ?_)
  refine (pairwise_parseSource source registry).imp fun hbefore heq => hbefore.ne ?_
  rw [← Declaration.position_repeated, heq, Declaration.position_repeated]

theorem isRepeat_of_mem_repeats {d : Diagnostic} (h : d ∈ repeats earlier declarations) :
    d.problem.isRepeat = true := by
  obtain ⟨declaration, -, rfl⟩ := List.mem_map.mp ((repeats_sublist _ _).mem h)
  exact declaration.isRepeat_repeated

/-- Arranging the errors of a source together with those for repeated names loses none. -/
theorem arrange_perm (source : String) (registry : Registry) (earlier : List Declaration) :
    let parsed := parseSource source registry
    (Diagnostic.arrange (parsed.errors ++ repeats earlier parsed.declarations)).Perm
      (parsed.errors ++ repeats earlier parsed.declarations) := by
  refine Diagnostic.arrange_append_perm (fun d hd hmem => ?_)
    (nodup_repeats source registry earlier)
  have hsingle := (arises_parseSource source registry d (Diagnostic.mem_arrange.mpr hmem)).single
  rw [isRepeat_of_mem_repeats hd] at hsingle
  cases hsingle

end Repeats

section Bookkeeping

/-- The rules and pipelines that are kept are the first ones of their names. -/
structure Declared.Keeps (kept : Declared) (earlier : List Declaration) : Prop where
  rules : Entries.FirstOf Rule.name kept.rules (earlier.filterMap Declaration.rule?)
  pipelines : Entries.FirstOf Pipeline.name kept.pipelines (earlier.filterMap Declaration.pipeline?)

variable {registry : Registry} {kept : Declared} {earlier : List Declaration}

theorem Declared.Keeps.add (h : kept.Keeps earlier) (d : Declaration) :
    (kept.add d).1.Keeps (earlier ++ [d]) ∧
      (kept.add d).2 = if d.key ∈ earlier.map Declaration.key then [d.repeated] else [] := by
  cases d with
  | rule r =>
    have hknown : kept.rules.contains r.name = true ↔
        (Declaration.rule r).key ∈ earlier.map Declaration.key :=
      (h.rules.contains r.name).trans Declaration.rule_mem_keys.symm
    have hadd : kept.add (.rule r) =
        (⟨if kept.rules.contains r.name then kept.rules else kept.rules.insert r.name r,
          kept.pipelines, kept.invalid⟩,
        if kept.rules.contains r.name then [⟨r.position, .duplicateRule r.name⟩] else []) := by
      rw [Declared.add]
      split <;> rfl
    rw [hadd]
    refine ⟨⟨?_, ?_⟩, if_congr hknown rfl rfl⟩
    · rw [List.filterMap_append]
      exact h.rules.add r
    · rw [List.filterMap_append]
      exact (List.append_nil _).symm ▸ h.pipelines
  | pipeline p =>
    have hknown : kept.pipelines.contains p.name = true ↔
        (Declaration.pipeline p).key ∈ earlier.map Declaration.key :=
      (h.pipelines.contains p.name).trans Declaration.pipeline_mem_keys.symm
    have hadd : kept.add (.pipeline p) =
        (⟨kept.rules, if kept.pipelines.contains p.name then kept.pipelines
            else kept.pipelines.insert p.name p, kept.invalid⟩,
        if kept.pipelines.contains p.name then [⟨p.position, .duplicatePipeline p.name⟩]
        else []) := by
      rw [Declared.add]
      split <;> rfl
    rw [hadd]
    refine ⟨⟨?_, ?_⟩, if_congr hknown rfl rfl⟩
    · rw [List.filterMap_append]
      exact (List.append_nil _).symm ▸ h.rules
    · rw [List.filterMap_append]
      exact h.pipelines.add p

theorem Declared.Keeps.addAll (h : kept.Keeps earlier) (declarations : List Declaration) :
    (kept.addAll declarations).1.Keeps (earlier ++ declarations) ∧
      (kept.addAll declarations).2 = repeats earlier declarations := by
  induction declarations generalizing kept earlier with
  | nil => exact ⟨by rwa [List.append_nil], rfl⟩
  | cons d rest ih =>
    obtain ⟨hkeeps, herrors⟩ := h.add d
    obtain ⟨hrest, hothers⟩ := ih hkeeps
    rw [List.append_assoc] at hrest
    exact ⟨hrest, congrArg₂ (· ++ ·) herrors hothers⟩

/-- What is reported of a source, unless nothing is wrong with it. -/
def report? (entry : SourceUnit × List Diagnostic) : Option SourceDiagnostics :=
  (Diagnostics.ofList? entry.2).map (⟨entry.1.label, ·⟩)

theorem Declared.Keeps.addSource (h : kept.Keeps earlier) (unit : SourceUnit) :
    let parsed := parseSource unit.text registry
    (kept.addSource registry unit).Keeps (earlier ++ parsed.declarations) ∧
      (kept.addSource registry unit).invalid = kept.invalid ++
        (report? (unit, parsed.errors ++ repeats earlier parsed.declarations)).toList := by
  obtain ⟨hkeeps, herrors⟩ := h.addAll (parseSource unit.text registry).declarations
  have hinvalid := Declared.invalid_of_addAll kept (parseSource unit.text registry).declarations
  simp only [Declared.addSource, report?, ← herrors]
  split
  · next diagnostics hsome => exact ⟨⟨hkeeps.rules, hkeeps.pipelines⟩, by simp [hinvalid, hsome]⟩
  · next hnone => exact ⟨hkeeps, by simp [hinvalid, hnone]⟩

theorem Declared.Keeps.foldl (h : kept.Keeps earlier) (units : List SourceUnit) :
    (units.foldl (Declared.addSource registry) kept).Keeps (earlier ++ declared registry units) ∧
      (units.foldl (Declared.addSource registry) kept).invalid =
        kept.invalid ++ (faults registry earlier units).filterMap report? := by
  induction units generalizing kept earlier with
  | nil => exact ⟨by simpa [declared] using h, (List.append_nil _).symm⟩
  | cons unit rest ih =>
    have hstep : (kept.addSource registry unit).Keeps _ ∧ _ := h.addSource unit
    obtain ⟨hkeeps, hinvalid⟩ := hstep
    obtain ⟨hrest, hothers⟩ := ih hkeeps
    refine ⟨by simpa [declared] using hrest, ?_⟩
    rw [List.foldl_cons, hothers, hinvalid, List.append_assoc, faults, List.filterMap_cons]
    cases report? (unit, (parseSource unit.text registry).errors ++
      repeats earlier (parseSource unit.text registry).declarations) <;> rfl

end Bookkeeping

section Building

variable {registry : Registry}

theorem report?_eq_none {entry : SourceUnit × List Diagnostic} :
    report? entry = none ↔ entry.2 = [] := by
  rw [report?, Option.map_eq_none_iff, Diagnostics.ofList?, ite_eq_left_iff]
  simp

theorem faults_all_nil {earlier : List Declaration} (h : (earlier.map Declaration.key).Nodup)
    (units : List SourceUnit) : (∀ entry ∈ faults registry earlier units, entry.2 = []) ↔
      (∀ unit ∈ units, (parseSource unit.text registry).errors = []) ∧
        ((earlier ++ declared registry units).map Declaration.key).Nodup := by
  induction units generalizing earlier with
  | nil => simpa [faults, declared] using h
  | cons unit rest ih =>
    have hsplit : earlier ++ declared registry (unit :: rest) =
        earlier ++ (parseSource unit.text registry).declarations ++ declared registry rest := by
      simp [declared]
    rw [faults, List.forall_mem_cons, List.append_eq_nil_iff, repeats_eq_nil h, hsplit,
      List.forall_mem_cons]
    constructor
    · rintro ⟨⟨hclean, hnodup⟩, hrest⟩
      obtain ⟨hclean', hnodup'⟩ := (ih hnodup).mp hrest
      exact ⟨⟨hclean, hclean'⟩, hnodup'⟩
    · rintro ⟨⟨hclean, hclean'⟩, hnodup'⟩
      have hnodup : ((earlier ++ (parseSource unit.text registry).declarations).map
          Declaration.key).Nodup := by
        rw [List.map_append] at hnodup'
        exact (List.nodup_append.mp hnodup').1
      exact ⟨⟨hclean, hnodup⟩, (ih hnodup).mpr ⟨hclean', hnodup'⟩⟩

theorem valid_iff {units : List SourceUnit} :
    Valid registry units ↔ (faults registry [] units).filterMap report? = [] := by
  rw [List.filterMap_eq_nil_iff]
  simp only [report?_eq_none]
  rw [faults_all_nil (by simp), List.nil_append, Declaration.nodup_keys]
  exact ⟨fun h => ⟨h.clean, h.rules, h.pipelines⟩, fun h => ⟨h.1, h.2.1, h.2.2⟩⟩

theorem Valid.perm {units units' : List SourceUnit} (h : Valid registry units)
    (hperm : units'.Perm units) : Valid registry units' where
  clean unit hunit := h.clean unit (hperm.mem_iff.mp hunit)
  rules := (((hperm.flatMap_right _).filterMap _).map _).nodup_iff.mpr h.rules
  pipelines := (((hperm.flatMap_right _).filterMap _).map _).nodup_iff.mpr h.pipelines

theorem keeps_build (registry : Registry) (units : List SourceUnit) :
    (units.foldl (Declared.addSource registry) ⟨[], [], []⟩).Keeps (declared registry units) ∧
      (units.foldl (Declared.addSource registry) ⟨[], [], []⟩).invalid =
        (faults registry [] units).filterMap report? := by
  have hempty : Declared.Keeps ⟨[], [], []⟩ [] := ⟨⟨.nil, fun _ => rfl⟩, ⟨.nil, fun _ => rfl⟩⟩
  exact hempty.foldl units

/-- A deployment of what is kept. -/
def Declared.linked (kept : Declared) : Deployment :=
  ⟨kept.rules, kept.pipelines.map fun (name, p) => (name, p.link (ruleNamed kept.rules))⟩

theorem build_of_valid {ruleSources pipelineSources : List SourceUnit}
    (h : Valid registry (ruleSources ++ pipelineSources)) :
    build ruleSources pipelineSources registry =
      .ok ((ruleSources ++ pipelineSources).foldl (Declared.addSource registry)
        ⟨[], [], []⟩).linked := by
  have hinvalid := (keeps_build registry (ruleSources ++ pipelineSources)).2
  rw [valid_iff.mp h] at hinvalid
  simp only [build, hinvalid]
  rfl

theorem build_of_not_valid {ruleSources pipelineSources : List SourceUnit}
    (h : ¬ Valid registry (ruleSources ++ pipelineSources)) :
    build ruleSources pipelineSources registry =
      .error ⟨(faults registry [] (ruleSources ++ pipelineSources)).filterMap report?⟩ := by
  have hinvalid := (keeps_build registry (ruleSources ++ pipelineSources)).2
  have hne : ¬ ((faults registry [] (ruleSources ++ pipelineSources)).filterMap
      report?).isEmpty = true := fun hempty => h (valid_iff.mpr (List.isEmpty_iff.mp hempty))
  simp only [build, hinvalid]
  exact if_neg hne

theorem Declared.Keeps.holds {kept : Declared} {declarations : List Declaration}
    (h : kept.Keeps declarations)
    (hrules : ((declarations.filterMap Declaration.rule?).map Rule.name).Nodup)
    (hpipelines : ((declarations.filterMap Declaration.pipeline?).map Pipeline.name).Nodup) :
    kept.linked.Holds declarations where
  rule name r := by
    have hmem : r ∈ declarations.filterMap Declaration.rule? ↔ .rule r ∈ declarations :=
      @ParsedSource.mem_rules ⟨declarations, []⟩ r
    rw [rule?, linked, h.rules.find?_eq_some hrules, hmem]
  pipeline name p := by
    have hmem (q : Pipeline) : q ∈ declarations.filterMap Declaration.pipeline? ↔
        .pipeline q ∈ declarations := by
      rw [List.mem_filterMap]
      constructor
      · rintro ⟨d, hd, hq⟩
        cases d with
        | rule r => cases hq
        | pipeline q' => cases hq; exact hd
      · exact fun hq => ⟨_, hq, rfl⟩
    rw [pipeline?, linked, Entries.find?_map, Option.map_eq_some_iff]
    simp only [h.pipelines.find?_eq_some hpipelines, hmem, and_assoc]
    refine exists_congr fun q => and_congr_right fun _ => and_congr_right fun _ => ?_
    exact eq_comm

theorem tells_report (registry : Registry) (earlier : List Declaration)
    (units : List SourceUnit) :
    List.Forall₂ Tells ((faults registry earlier units).filter (·.2 ≠ []))
      ((faults registry earlier units).filterMap report?) := by
  induction units generalizing earlier with
  | nil => exact .nil
  | cons unit rest ih =>
    have hperm := arrange_perm unit.text registry earlier
    simp only at hperm
    rw [faults, List.filter_cons, List.filterMap_cons]
    generalize herrors : (parseSource unit.text registry).errors ++
      repeats earlier (parseSource unit.text registry).declarations = errors at hperm ⊢
    cases errors with
    | nil => exact ih _
    | cons d more =>
      exact .cons ⟨rfl, hperm, Diagnostic.pairwise_arrange _⟩ (ih _)

/-- A deployment is built from just those sources that are right by themselves and declare no name
twice. It holds what they declare, however they are ordered and divided. Otherwise each source with
an error is listed with all its errors and no others. -/
theorem build_exact (ruleSources pipelineSources : List SourceUnit) (registry : Registry) :
    ((∃ d, build ruleSources pipelineSources registry = .ok d) ↔
        Valid registry (ruleSources ++ pipelineSources)) ∧
      (∀ d, build ruleSources pipelineSources registry = .ok d →
        d.Holds (declared registry (ruleSources ++ pipelineSources)) ∧
          ∀ ruleSources' pipelineSources',
            (ruleSources' ++ pipelineSources').Perm (ruleSources ++ pipelineSources) →
              build ruleSources' pipelineSources' registry = .ok d) ∧
      ∀ invalid, build ruleSources pipelineSources registry = .error invalid →
        List.Forall₂ Tells
          ((faults registry [] (ruleSources ++ pipelineSources)).filter (·.2 ≠ []))
          invalid.sources := by
  have hkeeps := (keeps_build registry (ruleSources ++ pipelineSources)).1
  by_cases hvalid : Valid registry (ruleSources ++ pipelineSources)
  · rw [build_of_valid hvalid]
    refine ⟨iff_of_true ⟨_, rfl⟩ hvalid, fun d hd => ?_, fun _ herror => by cases herror⟩
    cases hd
    refine ⟨hkeeps.holds hvalid.rules hvalid.pipelines, fun rules' pipelines' hperm => ?_⟩
    have hdeclared : (declared registry (rules' ++ pipelines')).Perm
        (declared registry (ruleSources ++ pipelineSources)) := hperm.flatMap_right _
    have hkeeps' := (keeps_build registry (rules' ++ pipelines')).1
    have hrules := hkeeps.rules.ext hkeeps'.rules hvalid.rules (hdeclared.filterMap _)
    have hpipelines :=
      hkeeps.pipelines.ext hkeeps'.pipelines hvalid.pipelines (hdeclared.filterMap _)
    rw [build_of_valid (hvalid.perm hperm), Declared.linked, Declared.linked, hrules, hpipelines]
  · rw [build_of_not_valid hvalid]
    refine ⟨iff_of_false ?_ hvalid, ?_, ?_⟩
    · rintro ⟨d, hok⟩
      cases hok
    · intro d hok
      cases hok
    · intro invalid herror
      cases herror
      exact tells_report registry [] _

/-- A rule and a pipeline of one name, and the rule once more in another source. -/
def twiceDeclared : List SourceUnit :=
  [⟨"first", "rule \"a\" when true then end pipeline \"a\" stage 0 match all rule \"a\"; end"⟩,
    ⟨"second", "rule \"a\" when true then end"⟩]

theorem build_exact_twiceDeclared :
    (build twiceDeclared [] (.builtin 0)).toOption.isSome = false ∧
      ¬ Valid (.builtin 0) (twiceDeclared ++ []) := by
  have hrefused : (build twiceDeclared [] (.builtin 0)).toOption.isSome = false := by
    decide +kernel
  refine ⟨hrefused, fun hvalid => ?_⟩
  obtain ⟨d, hd⟩ := (build_exact twiceDeclared [] (.builtin 0)).1.mpr hvalid
  rw [hd] at hrefused
  cases hrefused

end Building

end Deployment

end LogRules
