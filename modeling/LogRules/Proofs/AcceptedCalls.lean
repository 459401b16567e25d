import LogRules.Proofs.DeclaredTypes
import LogRules.Proofs.FaultOrigins

/-!
What the calls of a source without errors hand over. The names of their arguments are names of
declared parameters, binding them succeeds, and a parameter that is left out gets its default. Of
several arguments under one name the function gets the first one only. By place no two arguments
come under one name, but nothing keeps a call that is written with names from repeating one.
-/
namespace LogRules

open EvalM

/-- No two parameters have the same name. -/
def Descriptor.Distinct (d : Descriptor) : Prop := (d.params.map (·.name)).Nodup

instance (d : Descriptor) : Decidable d.Distinct := inferInstanceAs (Decidable (List.Nodup _))

/-- No function has two parameters of the same name. -/
def Registry.Distinct (registry : Registry) : Prop :=
  ∀ entry ∈ registry.functions, entry.2.descriptor.Distinct

instance (registry : Registry) : Decidable registry.Distinct :=
  inferInstanceAs (Decidable (∀ entry ∈ registry.functions, _))

theorem Registry.Distinct.of_find? {registry : Registry} (h : registry.Distinct) {name : String}
    {f : Function} (hf : registry.find? name = some f) : f.descriptor.Distinct :=
  h (name, f) (Entries.mem_of_find? hf)

namespace Args

theorem bound?_cons (function name key : String) (value : Value) (rest : List (String × Value)) :
    bound? ⟨function, (name, value) :: rest⟩ key =
      if name = key then some value else bound? ⟨function, rest⟩ key := by
  rw [bound?, bound?, List.find?_cons]
  by_cases hname : name = key
  · simp [hname]
  · rw [beq_false_of_ne hname, if_neg hname]

theorem bound?_eq_none {function key : String} {values : List (String × Value)}
    (h : key ∉ values.map (·.1)) : bound? ⟨function, values⟩ key = none := by
  rw [bound?, Option.map_eq_none_iff, List.find?_eq_none]
  intro entry hentry hsame
  exact h (eq_of_beq hsame ▸ List.mem_map_of_mem hentry)

/-- The first of the arguments under a name is bound to it. -/
theorem bound?_append {function name : String} {value : Value}
    {before after : List (String × Value)} (h : name ∉ before.map (·.1)) :
    bound? ⟨function, before ++ (name, value) :: after⟩ name = some value := by
  induction before with
  | nil => rw [List.nil_append, bound?_cons, if_pos rfl]
  | cons entry rest ih =>
    rw [List.map_cons, List.mem_cons, not_or] at h
    rw [List.cons_append, bound?_cons, if_neg (Ne.symm h.1)]
    exact ih h.2

theorem findSome?_defaultOf? {params : List Parameter} (h : (params.map (·.name)).Nodup)
    {param : Parameter} (hmem : param ∈ params) :
    params.findSome? (defaultOf? param.name) = param.default := by
  induction params with
  | nil => cases hmem
  | cons first rest ih =>
    rw [List.map_cons, List.nodup_cons] at h
    rw [List.findSome?_cons, defaultOf?]
    cases hmem with
    | head =>
      have hrest : rest.findSome? (defaultOf? param.name) = none := by
        rw [List.findSome?_eq_none_iff]
        intro other hother
        rw [defaultOf?, if_neg]
        exact fun hsame => h.1 (List.mem_map.mpr ⟨other, hother, hsame⟩)
      rw [if_pos rfl, hrest]
      cases param.default <;> rfl
    | tail _ hmem =>
      rw [if_neg fun hsame => h.1 (List.mem_map.mpr ⟨param, hmem, hsame.symm⟩)]
      exact ih h.2 hmem

/-- A parameter that is not supplied is bound to its default if it has one. -/
theorem bound?_left_out {function : String} {d : Descriptor} (hdistinct : d.Distinct)
    {supplied : List (String × Value)} {args : Args} (hbind : bind function d supplied = .ok args)
    {param : Parameter} (hmem : param ∈ d.params) (hout : param.name ∉ supplied.map (·.1)) :
    args.bound? param.name = param.default := by
  rw [bound?_bind hbind, bound?_eq_none hout, Option.none_or, findSome?_defaultOf? hdistinct hmem]

/-- A function that reads a parameter gets the first of the arguments under its name, unless that
is null. -/
theorem get?_bind {function : String} {d : Descriptor} {name : String} {value : Value}
    {before after : List (String × Value)} {args : Args}
    (hbind : bind function d (before ++ (name, value) :: after) = .ok args)
    (h : name ∉ before.map (·.1)) :
    args.get? name = if value.isNull then none else some value := by
  rw [get?, bound?_bind hbind, bound?_append h, Option.some_or, Option.filter_some]
  cases value.isNull <;> rfl

end Args

namespace Typing

variable {d : Descriptor}

theorem param?_isSome {param : Parameter} (h : param ∈ d.params) :
    (d.param? param.name).isSome = true := by
  rw [Descriptor.param?, List.find?_isSome]
  exact ⟨param, h, beq_self_eq_true _⟩

/-- Not more arguments than parameters take the names of the parameters, in order. -/
theorem map_fst_placeArgs {params : List Parameter} {place : Nat} {raw : List RawArg}
    (h : place + raw.length ≤ params.length) :
    (placeArgs params place raw).map (·.1) =
      ((params.drop place).take raw.length).map (·.name) := by
  induction raw generalizing place with
  | nil => rfl
  | cons arg rest ih =>
    rw [List.length_cons] at h
    have hplace : place < params.length := by omega
    rw [placeArgs, List.map_cons, ih (by omega), List.drop_eq_getElem_cons hplace,
      List.getElem?_eq_getElem hplace]
    rfl

theorem length_le_of_placeErrors {name : String} {given : Nat} {p : Position}
    (h : placeErrors name d given p = []) : given ≤ d.params.length := by
  by_contra hmore
  have hcount : d.params.length < given ∨ given < d.requiredCount := .inl (by omega)
  rw [placeErrors, if_pos hcount] at h
  exact fault_ne_nil p _ h

/-- Arguments by place that fit the parameters are bound to parameters, to different ones if these
have different names. -/
theorem placeArgs_declared {name : String} {raw : List RawArg} {p : Position}
    (h : placeErrors name d raw.length p = []) :
    (∀ key ∈ (placeArgs d.params 0 raw).map (·.1), (d.param? key).isSome = true) ∧
      (d.Distinct → ((placeArgs d.params 0 raw).map (·.1)).Nodup) := by
  rw [map_fst_placeArgs (by rw [Nat.zero_add]; exact length_le_of_placeErrors h), List.drop_zero]
  refine ⟨fun key hkey => ?_, fun hdistinct => ?_⟩
  · obtain ⟨param, hparam, rfl⟩ := List.mem_map.mp hkey
    exact param?_isSome (List.mem_of_mem_take hparam)
  · exact hdistinct.sublist ((List.take_sublist raw.length d.params).map Parameter.name)

theorem namedArgs_declared {name : String} {args : List (String × Expr)} {p : Position}
    (h : namedErrors name d args p = []) :
    ∀ key ∈ args.map (·.1), (d.param? key).isSome = true := by
  intro key hkey
  obtain ⟨⟨param, value⟩, hentry, rfl⟩ := List.mem_map.mp hkey
  rw [namedErrors, List.append_eq_nil_iff, List.flatMap_eq_nil_iff] at h
  have hreported : (if (d.param? param).isSome then []
      else fault value.position (.unknownParameter name param)) = [] := h.1 (param, value) hentry
  by_contra hunknown
  rw [if_neg hunknown] at hreported
  exact fault_ne_nil _ _ hreported

end Typing

/-- The names under which a call hands its arguments over fit the parameters of the function. -/
structure Descriptor.Fits (d : Descriptor) (named : Bool) (names : List String) : Prop where
  declared : ∀ name ∈ names, (d.param? name).isSome = true
  supplied : ∀ param ∈ d.params, param.optional = false → param.name ∈ names
  different : named = false → d.Distinct → names.Nodup

theorem Descriptor.Fits.bind_ok {d : Descriptor} {named : Bool} {values : List (String × Value)}
    (h : d.Fits named (values.map (·.1))) (function : String) :
    ∃ args, Args.bind function d values = .ok args := Args.bind_ok function h.supplied

/-- A call without errors fits the function. -/
theorem Grammar.Clean.fits {callable : String → Prop} {env : Env} {site : Site} {name : String}
    {target : Function} {args : List (String × Expr)} {named resolved : Bool}
    (h : Clean callable env (.call site name target args named resolved)) :
    target.descriptor.Fits named (args.map (·.1)) := by
  cases h with
  | call _ _ _ _ _ hname hfind htype hargs hparams hnamed hbound hclean =>
    have hsupplied (param : Parameter) (hmem : param ∈ target.descriptor.params)
        (hrequired : param.optional = false) : param.name ∈ args.map (·.1) :=
      Grammar.supplied_of_clean hfind hbound hclean hmem hrequired
    rw [Typing.call_errors .nowhere hfind, List.append_eq_nil_iff, List.append_eq_nil_iff,
      List.append_eq_nil_iff, Typing.bindingErrors, hbound, hnamed] at hclean
    obtain ⟨-, ⟨hbinding, -⟩, -⟩ := hclean
    rw [Typing.boundArgs, hnamed] at hbound
    cases named with
    | true => exact ⟨Typing.namedArgs_declared hbinding, hsupplied, fun h => absurd h (by decide)⟩
    | false =>
      have hplaced := Typing.placeArgs_declared hbinding
      have hargs : Typing.placeArgs target.descriptor.params 0 (Typing.rawArgs false args) = args :=
        hbound
      rw [hargs] at hplaced
      exact ⟨hplaced.1, hsupplied, fun _ => hplaced.2⟩

/-- A clean call of a rule: it fits the function, and it is of a function of the registry. -/
theorem Rule.Clean.call {callable : String → Prop} {registry : Registry} {r : Rule}
    (h : r.Clean callable registry) {e : Expr} (he : e ∈ r.expressions) {site : Site}
    {name : String} {target : Function} {args : List (String × Expr)} {named resolved : Bool}
    (hnode : Expr.call site name target args named resolved ∈ e.nodes) :
    registry.find? name = some target ∧ target.descriptor.Fits named (args.map (·.1)) := by
  obtain ⟨env, rfl, hexpression⟩ := h.expression he
  have hcall := hexpression.of_mem_nodes hnode
  have hfits := hcall.fits
  cases hcall with
  | call _ _ _ _ _ _ hfind => exact ⟨hfind, hfits⟩

theorem Expr.map_fst_evalEntries {entries : List (String × Expr)} {c d : Context}
    {values : List (String × Value)} (h : (evalEntries entries).runOn c = (.ok values, d)) :
    values.map (·.1) = entries.map (·.1) := by
  induction entries generalizing c values with
  | nil =>
    cases h
    rfl
  | cons entry rest ih =>
    obtain ⟨key, e⟩ := entry
    simp only [evalEntries, runOn_bind, runOn_pure] at h
    split at h
    · split at h
      · next value c' _ others d' hrest =>
        cases h
        rw [List.map_cons, List.map_cons, ih hrest]
      · cases h
    · cases h

/-- The function fails on the arguments of a call that it was given in a run of a rule. -/
def Rule.FailsIn (r : Rule) (c : Context) (error : EvalError) : Prop :=
  ∃ site name target args named resolved c' values d bound,
    r.Reaches c (.call site name target args named resolved) c' ∧
      (Expr.evalEntries args).runOn c' = (.ok values, d) ∧
      Args.bind name target.descriptor values = .ok bound ∧
      ((target.run bound).runOn d).1 = .error error

/-- A call that is reached and fails when its arguments have values fails in its function. -/
theorem Rule.Reaches.failsIn {registry : Registry} {r : Rule} {callable : String → Prop}
    (hrule : r.Clean callable registry) {site : Site} {name : String} {target : Function}
    {args : List (String × Expr)} {named resolved : Bool} {values : List (String × Value)}
    {c c' d : Context} {error : EvalError}
    (hreaches : r.Reaches c (.call site name target args named resolved) c')
    (hargs : (Expr.evalEntries args).runOn c' = (.ok values, d))
    (h : ((target.invoke name values).runOn d).1 = .error error) : r.FailsIn c error := by
  obtain ⟨e, he, hn⟩ := hreaches.exists_mem_nodes
  obtain ⟨-, hfits⟩ := hrule.call he hn
  rw [← Expr.map_fst_evalEntries hargs] at hfits
  obtain ⟨bound, hbound⟩ := hfits.bind_ok name
  rw [Function.invoke, hbound, runOn_bind, runOn_lift] at h
  exact ⟨site, name, target, args, named, resolved, c', values, d, bound, hreaches, hargs, hbound,
    h⟩

theorem Operator.not_excused_missingArgument (function param : String) :
    ¬Excused False (.missingArgument function param) := by
  rintro ((h | ⟨operator, h⟩) | ⟨h, -⟩) <;> cases h

/-- What a node raises for an argument that is missing is raised by the function that it calls. -/
theorem Rule.Reaches.missing_failsIn {registry : Registry} {r : Rule} {callable : String → Prop}
    (hrule : r.Clean callable registry) {n : Expr} {c d : Context} {function param : String}
    (hreaches : r.Reaches c n d) (hraises : n.Raises d (.missingArgument function param)) :
    r.FailsIn c (.missingArgument function param) := by
  cases hraises with
  | refused hrun h => exact absurd h.excused (Operator.not_excused_missingArgument function param)
  | called hargs h => exact hreaches.failsIn hrule hargs h

/-- Calls always bind. In a source without errors the arguments of a call, whatever their values
are, have names of parameters, include all parameters that may not be left out, and bind. Every
parameter that was left out gets its default, if it has one. So a run of a rule never fails for a
missing argument unless a function that it calls says so. -/
theorem Rule.calls_bind {source : String} {registry : Registry} (hdistinct : registry.Distinct)
    (hclean : (parseSource source registry).isClean) {r : Rule}
    (hr : r ∈ (parseSource source registry).rules) :
    (∀ e ∈ r.expressions, ∀ site name target args named resolved,
      Expr.call site name target args named resolved ∈ e.nodes → ∀ values,
        values.map (·.1) = args.map (·.1) → ∃ bound,
          Args.bind name target.descriptor values = .ok bound ∧
          (∀ c, (target.invoke name values).runOn c = (target.run bound).runOn c) ∧
          (∀ entry ∈ args, (target.descriptor.param? entry.1).isSome = true) ∧
          ∀ param ∈ target.descriptor.params,
            (param.optional = false →
              param.name ∈ args.map (·.1) ∧ (bound.bound? param.name).isSome = true) ∧
            (param.name ∉ args.map (·.1) → bound.bound? param.name = param.default)) ∧
      ∀ body : RuleBody, body.FormOf r → ∀ c function param,
        ((body.condition.runOn c).1 = .error (.missingArgument function param) ∨
          (body.execute.runOn c).1 = .error (.missingArgument function param)) →
            r.FailsIn c (.missingArgument function param) := by
  have hrule : r.Clean (fun _ => True) registry := clean_of_source (fun _ _ _ => trivial) hclean hr
  refine ⟨?_, ?_⟩
  · intro e he site name target args named resolved hnode values hvalues
    obtain ⟨hfind, hfits⟩ := hrule.call he hnode
    rw [← hvalues] at hfits
    obtain ⟨bound, hbound⟩ := hfits.bind_ok name
    refine ⟨bound, hbound, fun c => ?_, fun entry hentry => ?_, fun param hparam => ⟨?_, ?_⟩⟩
    · rw [Function.invoke, hbound, runOn_bind, runOn_lift]
    · exact hfits.declared entry.1 (hvalues ▸ List.mem_map_of_mem hentry)
    · intro hrequired
      have hsupplied := hfits.supplied param hparam hrequired
      refine ⟨hvalues ▸ hsupplied, ?_⟩
      rw [Args.bound?_bind hbound, Option.isSome_or, Args.bound?_isSome hsupplied, Bool.true_or]
    · intro hout
      rw [← hvalues] at hout
      exact Args.bound?_left_out (hdistinct.of_find? hfind) hbound hparam hout
  · rintro body hbody c function param (hfails | hfails)
    · rw [(hbody.runs c).1] at hfails
      obtain ⟨n, d, hreaches, hraises⟩ | ⟨value, d, -, htruthy⟩ := r.traces_condition hfails
      · exact hreaches.missing_failsIn hrule hraises
      · exact absurd ((Operator.truthy_faults value).of_error htruthy)
          (Operator.not_excused_missingArgument function param)
    · rw [(hbody.runs c).2] at hfails
      obtain ⟨n, d, hreaches, hraises⟩ := r.traces_execution hfails
      exact hreaches.missing_failsIn hrule hraises

def searchSource : String :=
  "rule \"search\" when contains(search: \"b\", value: $message.text) then end"

theorem searchSource_rules_ne_nil : (parseSource searchSource (.builtin 0)).rules ≠ [] := by
  rw [Ne, ← List.isEmpty_iff]
  decide +kernel

def searchRule : Rule :=
  (parseSource searchSource (.builtin 0)).rules.head searchSource_rules_ne_nil

theorem searchSource_parsed : (Registry.builtin 0).Distinct ∧
    (parseSource searchSource (.builtin 0)).isClean = true ∧
    searchRule.condition.isCall = true ∧
    searchRule.condition.calls.map (·.params) = [["search", "value"]] := by
  decide +kernel

/-- A required argument that is null is missing to the function. -/
theorem Rule.calls_bind_searchRule :
    (∃ site name target args named resolved,
      searchRule.condition = .call site name target args named resolved ∧
        ∃ bound, Args.bind name target.descriptor
          [("search", .string "b"), ("value", .string "abc")] = .ok bound) ∧
      searchRule.FailsIn (.start (.empty .nil .epoch)) (.missingArgument "contains" "value") := by
  obtain ⟨hdistinct, hclean, hcall⟩ := searchSource_parsed
  have hrule : searchRule ∈ (parseSource searchSource (.builtin 0)).rules :=
    List.head_mem searchSource_rules_ne_nil
  have hfails : (searchRule.condition.evalCondition.runOn (.start (.empty .nil .epoch))).1 =
      .error (.missingArgument "contains" "value") := by decide +kernel
  generalize searchRule = r at hrule hcall hfails ⊢
  obtain ⟨hbinds, hmissing⟩ := calls_bind hdistinct hclean hrule
  refine ⟨?_, hmissing (.interpreted r) .interpreted _ _ _ (.inl hfails)⟩
  have hcondition : r.condition ∈ r.expressions := List.mem_cons_self
  generalize r.condition = e at hcall hcondition
  obtain ⟨site, name, target, args, named, resolved, rfl⟩ := Expr.exists_call hcall.1
  have hnames : args.map (·.1) = ["search", "value"] := (List.cons.inj hcall.2).1
  obtain ⟨bound, hbound, -⟩ := hbinds _ hcondition site name target args named resolved
    (Expr.self_mem_nodes _) [("search", .string "b"), ("value", .string "abc")] hnames.symm
  exact ⟨site, name, target, args, named, resolved, rfl, bound, hbound⟩

/-- The arguments of a call that reach the function. In a source without errors the arguments of a
call that gives them by place come under different names. Where all arguments of a call have a
value, what the function reads under the name of one of them is its value, unless that is null or
an argument before it has the same name. -/
theorem Rule.arguments_reach {source : String} {registry : Registry}
    (hdistinct : registry.Distinct) (hclean : (parseSource source registry).isClean) {r : Rule}
    (hr : r ∈ (parseSource source registry).rules) {e : Expr} (he : e ∈ r.expressions)
    {site : Site} {name : String} {target : Function} {args : List (String × Expr)}
    {named resolved : Bool} (hnode : Expr.call site name target args named resolved ∈ e.nodes) :
    (named = false → (args.map (·.1)).Nodup) ∧
      ∀ c d values, (Expr.evalEntries args).runOn c = (.ok values, d) → ∃ bound,
        (Expr.call site name target args named resolved).eval.runOn c =
          (target.run bound).runOn d ∧
        ∀ before param value after, values = before ++ (param, value) :: after →
          param ∉ before.map (·.1) →
            bound.get? param = if value.isNull then none else some value := by
  have hrule : r.Clean (fun _ => True) registry := clean_of_source (fun _ _ _ => trivial) hclean hr
  obtain ⟨hfind, hfits⟩ := hrule.call he hnode
  refine ⟨fun hplaced => hfits.different hplaced (hdistinct.of_find? hfind), ?_⟩
  intro c d values hrun
  rw [← Expr.map_fst_evalEntries hrun] at hfits
  obtain ⟨bound, hbound⟩ := hfits.bind_ok name
  refine ⟨bound, ?_, ?_⟩
  · simp only [Expr.eval, runOn_bind, hrun, Function.invoke, hbound, runOn_lift]
  · rintro before param value after rfl hfirst
    exact Args.get?_bind hbound hfirst

theorem Value.eq_string_of_asString? {value : Value} {text : String}
    (h : value.asString? = some text) : value = .string text := by
  cases value with
  | string text' => rw [Option.some.inj h]
  | _ => cases h

def wordMessage : Message := (Message.empty .nil .epoch).setField "text" (.string "abc")

theorem Rule.arguments_reach_searchRule : ∃ target : Function, ∃ bound d,
    searchRule.condition.eval.runOn (.start wordMessage) = (target.run bound).runOn d ∧
      (bound.get? "search").bind Value.asString? = some "b" ∧
      (bound.get? "value").bind Value.asString? = some "abc" := by
  obtain ⟨hdistinct, hclean, hcall⟩ := searchSource_parsed
  have hrule : searchRule ∈ (parseSource searchSource (.builtin 0)).rules :=
    List.head_mem searchSource_rules_ne_nil
  have hvalues : ((Expr.evalItems searchRule.condition.children).runOn
      (.start wordMessage)).1.toOption.map (·.map Value.asString?) =
        some [some "b", some "abc"] := by decide +kernel
  generalize searchRule = r at hrule hcall hvalues ⊢
  have hcondition : r.condition ∈ r.expressions := List.mem_cons_self
  generalize r.condition = e at hcall hcondition hvalues
  obtain ⟨site, name, target, args, named, resolved, rfl⟩ := Expr.exists_call hcall.1
  have hnames : args.map (·.1) = ["search", "value"] := (List.cons.inj hcall.2).1
  obtain ⟨-, hreach⟩ := arguments_reach hdistinct hclean hrule hcondition (Expr.self_mem_nodes _)
  rw [Expr.children] at hvalues
  cases hrun : (Expr.evalItems (args.map (·.2))).runOn (.start wordMessage) with
  | mk outcome d =>
    cases outcome with
    | error error =>
      rw [hrun] at hvalues
      cases hvalues
    | ok items =>
      simp only [hrun, Except.toOption, Option.map_some, Option.some.injEq,
        List.map_eq_cons_iff, List.map_eq_nil_iff] at hvalues
      obtain ⟨word, _, rfl, hword, text, _, rfl, htext, rfl⟩ := hvalues
      obtain rfl : word = .string "b" := Value.eq_string_of_asString? hword
      obtain rfl : text = .string "abc" := Value.eq_string_of_asString? htext
      have hentries : (Expr.evalEntries args).runOn (.start wordMessage) =
          (.ok [("search", .string "b"), ("value", .string "abc")], d) := by
        rw [Expr.evalEntries_eq, runOn_bind, hrun, hnames]
        rfl
      obtain ⟨bound, heval, hreads⟩ := hreach _ d _ hentries
      refine ⟨target, bound, d, heval, ?_, ?_⟩
      · rw [hreads [] "search" _ _ rfl (by simp)]
        rfl
      · rw [hreads [_] "value" _ _ rfl (by simp)]
        rfl

def repeatedNameSource : String :=
  "rule \"join\" when true then concat(first: \"a\", first: \"b\", second: \"c\"); end"

/-- A call that is written with names may repeat one. The second argument is evaluated, but the
function never sees it. -/
theorem Rule.argument_lost :
    (Registry.builtin 0).Distinct ∧ (parseSource repeatedNameSource (.builtin 0)).isClean = true ∧
      ∃ r ∈ (parseSource repeatedNameSource (.builtin 0)).rules, ∃ e ∈ r.expressions,
        e.isCall = true ∧ e.calls.map (fun call => (call.name, call.params)) =
          [("concat", ["first", "first", "second"])] ∧
        e.children.map (fun arg =>
          (arg.eval.runOn (.start (.empty .nil .epoch))).1.toOption.bind Value.asString?) =
            [some "a", some "b", some "c"] ∧
        (∀ call ∈ e.calls, (Args.bind call.name call.target.descriptor
          [("first", .string "a"), ("first", .string "b"), ("second", .string "c")]).toOption.bind
            (fun bound => (bound.get? "first").bind Value.asString?) = some "a") ∧
        (e.eval.runOn (.start (.empty .nil .epoch))).1.toOption.bind Value.asString? =
          some "ac" := by
  decide +kernel

end LogRules
