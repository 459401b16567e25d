import LogRules.Proofs.Builtins
import LogRules.Proofs.CleanSources
import LogRules.Proofs.Nodes

/-!
The types that built-in functions declare. A function returns a value of the type that it declares,
or it is a conversion that hands on the default of the call, which nothing checks.
-/
namespace LogRules

open EvalM

/-- Every result of the computation is in `Q`, whatever the state it starts in. -/
abbrev EvalM.Yields {α : Type} (Q : α → Prop) (x : EvalM α) : Prop :=
  Meets (fun _ => True) (fun _ => True) Q (fun _ => True) x

namespace EvalM

variable {α β : Type} {Q : β → Prop}

theorem outcome_any (outcome : Except EvalError α) :
    Outcome (fun _ => True) (fun _ => True) outcome := by
  cases outcome <;> trivial

theorem outcome_after {f : α → Except EvalError β} (hf : ∀ a, Outcome Q (fun _ => True) (f a))
    (outcome : Except EvalError α) : Outcome Q (fun _ => True) (outcome >>= f) :=
  (outcome_any outcome).bind fun a _ => hf a

theorem yields_after {f : α → EvalM β} (hf : ∀ a, Yields Q (f a)) (x : EvalM α) :
    Yields Q (x >>= f) := by
  have hx : Yields (fun _ => True) x :=
    fun c _ => (outcome_any (x.runOn c).1).mono (fun _ _ => ⟨trivial, trivial⟩) fun _ h => h
  exact hx.bind fun a _ => hf a

/-- What a check runs into before the rest does not matter to the results. -/
theorem yields_behind {p : Prop} [Decidable p] {x : EvalM α} {y : EvalM β} (h : Yields Q y) :
    Yields Q (if p then x >>= fun _ => y else y) := by
  split
  · exact yields_after (fun _ => h) x
  · exact h

theorem Yields.of_runOn {x : EvalM β} (hx : Yields Q x) {c d : Context} {b : β}
    (hrun : x.runOn c = (.ok b, d)) : Q b := by
  have hmeets := hx c trivial
  rw [hrun] at hmeets
  exact hmeets.2

end EvalM

namespace Builtin

/-- The functions that have a default for what they cannot convert. -/
def conversions : List String := ["to_string", "to_long", "to_double"]

/-- The value has the declared type, or it is the default that a conversion finds in its
arguments. -/
def Keeps (d : Descriptor) (args : Args) (value : Value) : Prop :=
  d.returns ≠ .any → value.type = d.returns ∨
    d.name ∈ conversions ∧ ∀ given, args.bound? "default" = some given → given = value

section Answers

variable {d : Descriptor} {args : Args} {value : Value}

theorem keeps_of_type (h : value.type = d.returns) : Keeps d args value := fun _ => .inl h

theorem outcome_keeps (h : value.type = d.returns) :
    Outcome (Keeps d args) (fun _ => True) (.ok value) := keeps_of_type h

theorem keeps_given (hname : d.name ∈ conversions) (h : args.get? "default" = some value) :
    Keeps d args value := by
  refine fun _ => .inr ⟨hname, fun given hgiven => ?_⟩
  rw [Args.get?, hgiven, Option.filter_some] at h
  split at h
  · exact Option.some.inj h
  · cases h

theorem keeps_missing (hname : d.name ∈ conversions) (h : args.get? "default" = none) :
    Keeps d args .null := by
  refine fun _ => .inr ⟨hname, fun given hgiven => ?_⟩
  rw [Args.get?, hgiven, Option.filter_some] at h
  cases given with
  | null => rfl
  | _ => cases h

theorem outcome_privateAddress_keeps (hreturns : d.returns = .boolean) (text : String) :
    Outcome (Keeps d args) (fun _ => True) (privateAddress args text) := by
  rw [privateAddress]
  split
  · exact keeps_of_type hreturns.symm
  · trivial

theorem yields_ofArgs {body : Args → Except EvalError Value}
    (h : Outcome (Keeps d args) (fun _ => True) (body args)) :
    Yields (Keeps d args) (ofArgs body args) := meets_lift h

theorem yields_ofMessage {body : Args → Message → Except EvalError Value}
    (h : ∀ m, Outcome (Keeps d args) (fun _ => True) (body args m)) :
    Yields (Keeps d args) (ofMessage body args) := yields_after (fun m => meets_lift (h m)) _

end Answers

theorem keeps_setField (args : Args) : Yields (Keeps setField.1 args) (setField.2 args) := by
  have hnull : Yields (Keeps setField.1 args) (pure .null) := meets_pure (keeps_of_type rfl)
  refine yields_after (fun field => yields_behind ?_) _
  split
  · exact yields_after (fun _ => hnull) _
  · exact hnull

/-- Whatever the arguments are, a built-in function keeps to the declared type. -/
theorem keeps_of_mem : ∀ definition ∈ definitions, ∀ args,
    Yields (Keeps definition.1 args) (definition.2 args) := by
  simp only [definitions, List.forall_mem_cons]
  refine ⟨keeps_setField, ?hasField, ?removeField, ?getField, ?toText, ?toLong, ?toDouble,
    ?toBoolean, ?concat, ?lowercase, ?uppercase, ?contains, ?isNull, ?isPrivateIp,
    ?sourceIpIsPrivate, ?dropMessage, by simp⟩ <;> intro args
  case getField =>
    exact fun c _ => (outcome_any _).mono (fun _ _ => ⟨trivial, absurd rfl⟩) fun _ h => h
  case toBoolean | concat | isNull => exact meets_pure (keeps_of_type rfl)
  case removeField =>
    exact yields_after (fun _ => yields_after (fun _ => meets_pure (keeps_of_type rfl)) _) _
  case dropMessage => exact yields_after (fun _ => meets_pure (keeps_of_type rfl)) _
  case hasField =>
    exact yields_ofMessage fun m => outcome_after (fun _ => outcome_keeps rfl) _
  case lowercase | uppercase =>
    exact yields_ofArgs (outcome_after (fun _ => outcome_keeps rfl) _)
  case contains =>
    refine yields_ofArgs (outcome_after (fun value => outcome_after (fun sought =>
      outcome_after (fun ignoreCase => ?_) _) _) _)
    split
    · exact outcome_keeps rfl
    · exact outcome_keeps rfl
  case isPrivateIp =>
    exact yields_ofArgs (outcome_after (fun text => outcome_privateAddress_keeps rfl text) _)
  case sourceIpIsPrivate =>
    refine yields_ofMessage fun m => outcome_after (fun field => ?_) _
    split
    · exact outcome_privateAddress_keeps rfl _
    · exact outcome_keeps rfl
    · trivial
  case toText =>
    apply yields_ofArgs
    split
    · exact outcome_keeps rfl
    · cases hdefault : args.get? "default" with
      | some value => exact keeps_given (by decide) hdefault
      | none => exact keeps_missing (by decide) hdefault
  case toLong | toDouble =>
    apply yields_ofArgs
    split
    · exact outcome_keeps rfl
    · cases hdefault : args.get? "default" with
      | some value => exact keeps_given (by decide) hdefault
      | none => exact outcome_keeps rfl

/-- The default of a conversion has the type that the conversion declares. -/
theorem type_default_conversion : ∀ definition ∈ definitions,
    definition.1.name ∈ conversions →
      (definition.1.params.findSome? (Args.defaultOf? "default")).map Value.type =
        some definition.1.returns := by
  decide

/-- A call of a built-in function keeps to the declared type, or what it returns was supplied as
the default of a conversion. -/
theorem keeps_of_invoke {generation : Nat} {f : Function} (hf : f ∈ all generation)
    (hreturns : f.descriptor.returns ≠ .any) {name : String} {supplied : List (String × Value)}
    {c d : Context} {value : Value} (hrun : (f.invoke name supplied).runOn c = (.ok value, d)) :
    value.type = f.descriptor.returns ∨
      f.descriptor.name ∈ conversions ∧ ("default", value) ∈ supplied := by
  obtain ⟨⟨descriptor, run⟩, hmem, rfl⟩ := List.mem_map.mp hf
  rw [Function.invoke, runOn_bind, runOn_lift] at hrun
  cases hbind : Args.bind name descriptor supplied with
  | error error =>
    rw [hbind] at hrun
    cases hrun
  | ok args =>
    rw [hbind] at hrun
    have hkeeps := (keeps_of_mem _ hmem args).of_runOn hrun
    refine (hkeeps hreturns).elim .inl fun ⟨hname, hgiven⟩ => ?_
    have hbound := Args.bound?_bind hbind "default"
    cases hsupplied : Args.bound? ⟨name, supplied⟩ "default" with
    | some given =>
      rw [hsupplied, Option.some_or] at hbound
      obtain rfl := hgiven given hbound
      exact .inr ⟨hname, Args.mem_of_bound? hsupplied⟩
    | none =>
      rw [hsupplied, Option.none_or] at hbound
      have htype := type_default_conversion _ hmem hname
      rw [← hbound, Option.map_eq_some_iff] at htype
      obtain ⟨given, hdefault, htype⟩ := htype
      obtain rfl := hgiven given hdefault
      exact .inl htype

end Builtin

theorem Expr.exists_call {e : Expr} (h : e.isCall = true) :
    ∃ site name target args named resolved, e = call site name target args named resolved := by
  cases e with
  | call site name target args named resolved => exact ⟨_, _, _, _, _, _, rfl⟩
  | _ => cases h

/-- Every node of a tree without errors is one. -/
theorem Grammar.Clean.of_mem_nodes {callable : String → Prop} {env : Env} {e n : Expr}
    (h : Clean callable env e) (hn : n ∈ e.nodes) : Clean callable env n := by
  induction e using Expr.children_induction with
  | h e ih =>
    obtain rfl | ⟨child, hchild, hn⟩ := Expr.mem_nodes.mp hn
    · exact h
    · exact ih child hchild (h.child hchild) hn

theorem Place.registry_env (registry : Registry) (place : Place) :
    (place.env registry).registry = registry := by
  cases place <;> rfl

theorem Rule.Clean.expression {callable : String → Prop} {registry : Registry} {r : Rule}
    (h : r.Clean callable registry) {e : Expr} (he : e ∈ r.expressions) :
    ∃ env, env.registry = registry ∧ Grammar.Clean callable env e := by
  rw [← r.map_snd_parts] at he
  obtain ⟨part, hpart, rfl⟩ := List.mem_map.mp he
  exact ⟨part.1.env registry, Place.registry_env registry part.1, (h.parts part hpart).accepted⟩

/-- Built-in functions keep their declared types. A call of one that stands anywhere in a rule of a
source without errors is a node of the declared type, and in every state in which it succeeds it
returns a value of this type, or a default that was supplied to a conversion. -/
theorem Rule.builtin_calls_typed {source : String} {registry : Registry}
    (hclean : (parseSource source registry).isClean) {r : Rule}
    (hr : r ∈ (parseSource source registry).rules) {generation : Nat} {f : Function}
    (hf : f ∈ Builtin.all generation) (hreturns : f.descriptor.returns ≠ .any) {name : String}
    (hfind : registry.find? name = some f) {e : Expr} (he : e ∈ r.expressions) {site : Site}
    {target : Function} {args : List (String × Expr)} {named resolved : Bool}
    (hnode : Expr.call site name target args named resolved ∈ e.nodes) :
    site.type = f.descriptor.returns ∧ ∀ c d value,
      (Expr.call site name target args named resolved).eval.runOn c = (.ok value, d) →
        value.type = f.descriptor.returns ∨ f.descriptor.name ∈ Builtin.conversions ∧
          ∃ supplied, ((Expr.evalEntries args).runOn c).1 = .ok supplied ∧
            ("default", value) ∈ supplied := by
  have hrule : r.Clean (fun _ => True) registry := clean_of_source (fun _ _ _ => trivial) hclean hr
  obtain ⟨env, henv, hexpression⟩ := hrule.expression he
  cases hexpression.of_mem_nodes hnode with
  | call _ _ _ _ _ hname htarget htype =>
    rw [henv, hfind] at htarget
    cases htarget
    refine ⟨htype, fun c d value hrun => ?_⟩
    rw [Expr.eval, runOn_bind] at hrun
    cases hargs : (Expr.evalEntries args).runOn c with
    | mk outcome c' =>
      rw [hargs] at hrun
      cases outcome with
      | error error => cases hrun
      | ok supplied =>
        refine (Builtin.keeps_of_invoke hf hreturns hrun).imp_right ?_
        exact fun ⟨hname, hdefault⟩ => ⟨hname, supplied, rfl, hdefault⟩

def mentionSource : String :=
  "rule \"mention\" when contains($message.text, to_string($message.word, \"none\")) then end"

theorem mentionSource_rules_ne_nil : (parseSource mentionSource (.builtin 0)).rules ≠ [] := by
  rw [Ne, ← List.isEmpty_iff]
  decide +kernel

def mentionRule : Rule :=
  (parseSource mentionSource (.builtin 0)).rules.head mentionSource_rules_ne_nil

def mentioningMessage : Message :=
  (Message.empty .nil .epoch).setField "text" (.string "nothing but none")

theorem Rule.builtin_calls_typed_mentionRule : ∃ value d,
    mentionRule.condition.eval.runOn (.start mentioningMessage) = (.ok value, d) ∧
      value.type = .boolean := by
  have hclean : (parseSource mentionSource (.builtin 0)).isClean := by decide +kernel
  have hrule : mentionRule ∈ (parseSource mentionSource (.builtin 0)).rules :=
    List.head_mem mentionSource_rules_ne_nil
  have hcondition : mentionRule.condition ∈ mentionRule.expressions := List.mem_cons_self
  have hcalls : mentionRule.condition.isCall = true ∧
      mentionRule.condition.calls.map (·.name) = ["contains", "to_string"] := by decide +kernel
  have hcontains : ((Registry.builtin 0).find? "contains").map
      (fun f => (f.descriptor.name, f.descriptor.returns)) = some ("contains", .boolean) := by
    decide +kernel
  obtain ⟨f, hfind, hdescriptor⟩ := Option.map_eq_some_iff.mp hcontains
  obtain ⟨hdescribed, hreturns⟩ := Prod.mk.inj hdescriptor
  have hok : (mentionRule.condition.eval.runOn (.start mentioningMessage)).1.isOk = true := by
    decide +kernel
  generalize mentionRule.condition = e at hcondition hcalls hok
  obtain ⟨value, d, hrun⟩ : ∃ value d,
      e.eval.runOn (.start mentioningMessage) = (.ok value, d) := by
    cases hrun : e.eval.runOn (.start mentioningMessage) with
    | mk outcome d =>
      rw [hrun] at hok
      cases outcome with
      | ok value => exact ⟨value, d, rfl⟩
      | error error => cases hok
  refine ⟨value, d, hrun, ?_⟩
  obtain ⟨site, name, target, args, named, resolved, rfl⟩ := Expr.exists_call hcalls.1
  obtain rfl : name = "contains" := (List.cons.inj hcalls.2).1
  obtain ⟨-, htyped⟩ := builtin_calls_typed hclean hrule (Registry.of_find?_ofList hfind).1
    (by rw [hreturns]; decide) hfind hcondition (Expr.self_mem_nodes _)
  obtain htype | ⟨hconverts, -⟩ := htyped _ d value hrun
  · exact htype.trans hreturns
  · rw [hdescribed] at hconverts
    exact absurd hconverts (by decide)

def unsetDefaultSource : String :=
  "rule \"label\" when true then let label = to_string($message.a, $message.b); end"

/-- A conversion to a string returns null where both the value and the default are fields that are
not set. -/
theorem Rule.builtin_call_mistyped :
    (parseSource unsetDefaultSource (.builtin 0)).isClean = true ∧
      ∃ r ∈ (parseSource unsetDefaultSource (.builtin 0)).rules, ∃ e ∈ r.expressions,
        e.isCall = true ∧ e.calls.map (·.name) = ["to_string"] ∧ e.type = .string ∧
          (e.eval.runOn (.start (.empty .nil .epoch))).1.toOption.map Value.type = some .void := by
  decide +kernel

end LogRules
