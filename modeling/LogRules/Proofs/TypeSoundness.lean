import LogRules.Proofs.AcceptedCalls

/-!
Static types are sound: each node that a run of a rule comes to has a value of its static type, and
a rule in which all types are known fails for arithmetic or in a function only.
-/
namespace LogRules

open EvalM

/-- The operands of a connective that passes its check pass the check of a condition. -/
theorem Typing.operands_of_join {op : BinaryOp} {left right : Expr} {p : Position}
    (hop : op = .and ∨ op = .or) (hclean : (Typing.join op left right p).errors = []) :
    Typing.checkBoolean left = [] ∧ Typing.checkBoolean right = [] := by
  obtain rfl | rfl := hop
  · exact List.append_eq_nil_iff.mp hclean
  · exact List.append_eq_nil_iff.mp hclean

namespace Expr

/-- No node of the expression is left to be checked when it runs. -/
def Known (e : Expr) : Prop := ∀ n ∈ e.nodes, n.type ≠ .any

instance (e : Expr) : Decidable e.Known := inferInstanceAs (Decidable (∀ n ∈ e.nodes, _))

namespace Known

variable {e : Expr}

theorem type_ne (h : e.Known) : e.type ≠ .any := h e e.self_mem_nodes

theorem child {child : Expr} (h : e.Known) (hchild : child ∈ e.children) : child.Known :=
  fun n hn => h n (mem_nodes_of_child hchild hn)

theorem reached {n : Expr} {c d : Context} (h : e.Known) (hreaches : e.Reaches c n d) :
    n.Known := by
  induction hreaches with
  | here => exact h
  | operand hchildren hbefore hgoes hnext ih => exact ih (h.child (by simp [hchildren]))

end Known

variable {honest : Prop} {callable : String → Prop} {env : Grammar.Env} {e n : Expr}
  {c d : Context}

/-- On values that fit the types of its operands, a node without errors in which all types are known
refuses for arithmetic only. -/
theorem Refuses.excused_of_fits {values : List Value} {error : EvalError}
    (h : n.Refuses values error) (hclean : Grammar.Clean callable env n)
    (hvalues : List.Forall₂ (Value.FitsExpr honest) values (n.children.take values.length)) :
    Operator.Excused (honest ∧ n.Known) error := by
  cases h with
  | access h =>
    cases hclean with
    | access _ _ _ htype =>
      exact ((Operator.access_faults _ _).of_error h).mono fun hknown =>
        hknown.2.type_ne htype
  | index h =>
    cases hclean with
    | index _ _ _ htype =>
      exact ((Operator.index_faults _ _).of_error h).mono fun hknown => hknown.2.type_ne htype
  | unary h =>
    obtain ⟨hvalue, -⟩ := List.forall₂_cons.mp hvalues
    cases hclean with
    | not _ _ _ _ hclean =>
      exact ((Operator.not_checked hvalue (Typing.checkBoolean_eq_nil.mp hclean)).of_error h).mono
        fun hknown => ⟨hknown.1, (hknown.2.child List.mem_cons_self).type_ne⟩
    | signed _ _ _ hop _ _ hclean =>
      exact ((Operator.signed_checked hop hvalue hclean).of_error h).mono
        fun hknown => ⟨hknown.1, (hknown.2.child List.mem_cons_self).type_ne⟩
  | @first _ op left right _ _ hop h =>
    obtain ⟨hleft, -⟩ := List.forall₂_cons.mp hvalues
    cases hclean with
    | binary _ _ _ _ _ _ _ hclean =>
      have hboolean : Typing.checkBoolean left = [] := (Typing.operands_of_join hop hclean).1
      exact ((Operator.truthy_checked hleft (Typing.checkBoolean_eq_nil.mp hboolean)).of_error
        h).mono fun hknown => ⟨hknown.1, (hknown.2.child List.mem_cons_self).type_ne⟩
  | @second _ op left right _ _ _ hop h =>
    obtain ⟨-, hrest⟩ := List.forall₂_cons.mp hvalues
    obtain ⟨hright, -⟩ := List.forall₂_cons.mp hrest
    cases hclean with
    | binary _ _ _ _ _ _ _ hclean =>
      have hboolean : Typing.checkBoolean right = [] := (Typing.operands_of_join hop hclean).2
      exact ((Operator.truthy_checked hright (Typing.checkBoolean_eq_nil.mp hboolean)).of_error
        h).mono fun hknown =>
          ⟨hknown.1, (hknown.2.child (List.mem_cons_of_mem _ List.mem_cons_self)).type_ne⟩
  | both hand hor h =>
    obtain ⟨hleft, hrest⟩ := List.forall₂_cons.mp hvalues
    obtain ⟨hright, -⟩ := List.forall₂_cons.mp hrest
    cases hclean with
    | binary _ _ _ _ _ _ _ hclean =>
      exact ((Operator.binary_checked hand hor hleft hright hclean).of_error h).mono
        fun hknown => ⟨hknown.1, (hknown.2.child List.mem_cons_self).type_ne,
          (hknown.2.child (List.mem_cons_of_mem _ List.mem_cons_self)).type_ne⟩

/-- A node without errors whose calls behave, in a state that binds the variables in scope. -/
structure Stands (honest : Prop) (callable : String → Prop) (env : Grammar.Env) (n : Expr)
    (d : Context) : Prop where
  clean : Grammar.Clean callable env n
  behaves : n.CallsBehave honest
  binds : d.Binds honest env.scope

namespace Stands

theorem operands (h : e.Stands honest callable env c) {before after : List Expr}
    (hchildren : e.children = before ++ after) {values : List Value}
    (hrun : (evalItems before).runOn c = (.ok values, d)) :
    d.Binds honest env.scope ∧ List.Forall₂ (Value.FitsExpr honest) values before := by
  have hruns : ∀ child ∈ before, child.RunsAs honest env.scope := by
    intro child hchild
    have hmem : child ∈ e.children := hchildren ▸ List.mem_append_left _ hchild
    exact runsAs_of_clean (h.clean.child hmem) (h.behaves.child hmem)
  have hmeets := keeps_evalItems hruns c h.binds
  rw [hrun] at hmeets
  exact hmeets

/-- What a node comes to stands as the node does. -/
theorem reached (h : e.Stands honest callable env c) (hreaches : e.Reaches c n d) :
    n.Stands honest callable env d := by
  induction hreaches with
  | here => exact h
  | @operand e next n before after values c c' d hchildren hbefore hgoes hnext ih =>
    have hmem : next ∈ e.children := by simp [hchildren]
    exact ih ⟨h.clean.child hmem, h.behaves.child hmem, (h.operands hchildren hbefore).1⟩

theorem fits (h : n.Stands honest callable env d) {value : Value}
    (hvalue : (n.eval.runOn d).1 = .ok value) : value.Fits honest n.type := by
  have hmeets := runsAs_of_clean h.clean h.behaves d h.binds
  rw [hvalue] at hmeets
  exact hmeets.2

theorem bound {site : Site} {name : String} (h : (var site name).Stands honest callable env d) :
    d.bindings.find? name ≠ none := by
  cases h.clean with
  | var _ _ _ hscope =>
    obtain ⟨binding, hbinding, -⟩ := h.binds _ _ hscope
    simp [hbinding]

theorem excused (h : n.Stands honest callable env c) {values : List Value} {error : EvalError}
    (hrun : (evalItems (n.children.take values.length)).runOn c = (.ok values, d))
    (hrefuses : n.Refuses values error) : Operator.Excused (honest ∧ n.Known) error :=
  hrefuses.excused_of_fits h.clean (h.operands (List.take_append_drop _ n.children).symm hrun).2

end Stands

end Expr

theorem Statement.AllClean.of_append {scope : Typing.Scope} {callable : String → Prop}
    {registry : Registry} {before after : List Statement}
    (h : AllClean callable registry scope (before ++ after)) :
    AllClean callable registry scope before ∧
      AllClean callable registry (scopeBehind scope before) after := by
  induction before generalizing scope with
  | nil => exact ⟨trivial, h⟩
  | cons s rest ih => exact ⟨⟨h.1, (ih h.2).1⟩, (ih h.2).2⟩

namespace Rule

variable {honest : Prop} {callable : String → Prop} {registry : Registry} {r : Rule}
  (hclean : r.Clean callable registry) (hbehaves : ∀ e ∈ r.expressions, e.CallsBehave honest)

/-- Nothing has to be bound before a rule runs. -/
theorem binds_start (c : Context) : c.Binds honest [] := by
  intro name type h
  cases h

include hclean hbehaves

/-- Behind any of the statements the variables in scope are bound. -/
theorem Clean.binds {before after : List Statement} (hstatements : r.statements = before ++ after)
    {c d : Context} (hrun : (Statement.executeAll before).runOn c = (.ok (), d)) :
    d.Binds honest (Statement.scopeBehind [] before) := by
  have hall := hclean.statements
  rw [hstatements] at hall
  have hbefore : ∀ s ∈ before, s.expression.CallsBehave honest := by
    intro s hs
    have hmem : s ∈ r.statements := hstatements ▸ List.mem_append_left _ hs
    exact hbehaves s.expression (List.mem_cons_of_mem _ (List.mem_map_of_mem hmem))
  have hmeets := Statement.meets_executeAll hall.of_append.1 hbefore c (binds_start c)
  rw [hrun] at hmeets
  exact hmeets.1

theorem Clean.condition_stands (c : Context) :
    r.condition.Stands honest callable (Place.condition.env registry) c :=
  ⟨hclean.condition.accepted, hbehaves _ List.mem_cons_self, binds_start c⟩

/-- Whatever a run comes to stands there. -/
theorem Reaches.stands {n : Expr} {c d : Context} (h : r.Reaches c n d) :
    ∃ env, n.Stands honest callable env d := by
  cases h with
  | condition h => exact ⟨_, (hclean.condition_stands hbehaves c).reached h⟩
  | @statement before after s c' hstatements hbefore h =>
    have hall := hclean.statements
    rw [hstatements] at hall
    have hs := hall.of_append.2.1.admits.accepted
    rw [Statement.Clean.env_place] at hs
    have hmem : s ∈ r.statements := hstatements ▸ List.mem_append_right _ List.mem_cons_self
    have hcalls := hbehaves s.expression (List.mem_cons_of_mem _ (List.mem_map_of_mem hmem))
    have hstands : s.expression.Stands honest callable _ c' :=
      ⟨hs, hcalls, hclean.binds hbehaves hstatements hbefore⟩
    exact ⟨_, hstands.reached h⟩

omit hclean hbehaves in
theorem Reaches.known {n : Expr} {c d : Context} (h : r.Reaches c n d)
    (hknown : ∀ e ∈ r.expressions, e.Known) : n.Known := by
  cases h with
  | condition h => exact (hknown _ List.mem_cons_self).reached h
  | @statement before after s c' hstatements hbefore h =>
    have hmem : s ∈ r.statements := hstatements ▸ List.mem_append_right _ List.mem_cons_self
    exact (hknown _ (List.mem_cons_of_mem _ (List.mem_map_of_mem hmem))).reached h

/-- A fault that a node raises in a run is excused, or a function that is called fails with it. -/
theorem Reaches.excused {n : Expr} {c d : Context} {error : EvalError} (h : r.Reaches c n d)
    (hraises : n.Raises d error) :
    Operator.Excused (honest ∧ ∀ e ∈ r.expressions, e.Known) error ∨ r.FailsIn c error := by
  obtain ⟨env, hstands⟩ := h.stands hclean hbehaves
  cases hraises with
  | called hargs hfails => exact .inr (h.failsIn hclean hargs hfails)
  | unbound hunbound => exact absurd hunbound hstands.bound
  | refused hrun hrefuses =>
    exact .inl ((hstands.excused hrun hrefuses).mono fun hsure => ⟨hsure.1, h.known hsure.2⟩)

/-- A rule without errors fails for arithmetic, in a function that it calls, or for an operand of
which the type is not known. -/
theorem Clean.faults {c : Context} {error : EvalError}
    (h : (r.condition.evalCondition.runOn c).1 = .error error ∨
      ((Statement.executeAll r.statements).runOn c).1 = .error error) :
    Operator.Excused (honest ∧ ∀ e ∈ r.expressions, e.Known) error ∨ r.FailsIn c error := by
  cases h with
  | inl hcondition =>
    obtain ⟨n, d, hreaches, hraises⟩ | ⟨value, d, hrun, htruthy⟩ := traces_condition hcondition
    · exact hreaches.excused hclean hbehaves hraises
    · have hfits := (hclean.condition_stands hbehaves c).fits (congrArg Prod.fst hrun)
      have hchecked := Operator.truthy_checked hfits
        (Typing.checkBoolean_eq_nil.mp (hclean.condition.boolean rfl))
      exact .inl ((hchecked.of_error htruthy).mono fun hsure =>
        ⟨hsure.1, (hsure.2 _ List.mem_cons_self).type_ne⟩)
  | inr hstatements =>
    obtain ⟨n, d, hreaches, hraises⟩ := traces_execution hstatements
    exact hreaches.excused hclean hbehaves hraises

end Rule

/-- A call that succeeds leaves the variables as they are. -/
def Function.KeepsBindings (f : Function) : Prop :=
  ∀ args c value d, (f.run args).runOn c = (.ok value, d) → d.bindings = c.bindings

/-- A call that succeeds returns a value of the type that the function declares, and leaves the
variables as they are. -/
def Function.Sound (f : Function) : Prop :=
  ∀ args c value d, (f.run args).runOn c = (.ok value, d) →
    value.type = f.descriptor.returns ∧ d.bindings = c.bindings

theorem Function.Sound.behaves {f : Function} (h : f.Sound) : f.Behaves True :=
  fun args c value d hrun => ⟨(h args c value d hrun).2, fun _ _ => (h args c value d hrun).1⟩

theorem Function.KeepsBindings.behaves {f : Function} (h : f.KeepsBindings)
    (hany : f.descriptor.returns = .any) : f.Behaves True :=
  fun args c value d hrun => ⟨h args c value d hrun, fun _ hknown => absurd hany hknown⟩

/-- A call of a known type is a call of a function that declares it. -/
theorem Rule.Clean.returns_ne_any {callable : String → Prop} {registry : Registry} {r : Rule}
    (h : r.Clean callable registry) {e : Expr} (he : e ∈ r.expressions) (hknown : e.Known)
    {call : Expr.CallSite} (hcall : call ∈ e.calls) : call.target.descriptor.returns ≠ .any := by
  obtain ⟨env, -, hexpression⟩ := h.expression he
  obtain ⟨site, args, hnode⟩ := Expr.exists_node_of_mem_calls hcall
  have htype := hknown _ hnode
  have hcallClean := hexpression.of_mem_nodes hnode
  generalize call.resolved = resolved at htype hcallClean
  cases hcallClean with
  | call _ _ _ _ _ _ _ hreturns =>
    rw [← hreturns]
    exact htype

namespace Rule

/-- Static types are sound. If functions that declare a type other than `any` keep to it and leave
the variables as they are, then in any state a rule of a source without errors gives each node that
it comes to a value of its static type, if it gives it one, and leaves each variable bound to a
value of the type it has in scope. This takes that functions declared `any` leave the variables of
a rule that calls them as they are too. Where all types are known, a rule fails for arithmetic only,
or because a function fails on the arguments of a call that the run comes to. -/
theorem types_sound {source : String} {registry : Registry}
    (hsound : ∀ name f, registry.find? name = some f → f.descriptor.returns ≠ .any → f.Sound)
    (hclean : (parseSource source registry).isClean) {r : Rule}
    (hr : r ∈ (parseSource source registry).rules) (c : Context) :
    ((∀ e ∈ r.expressions, ∀ call ∈ e.calls, call.target.descriptor.returns = .any →
        call.target.KeepsBindings) →
      (∀ n d value, r.Reaches c n d → (n.eval.runOn d).1 = .ok value → n.type ≠ .any →
        value.type = n.type) ∧
      ∀ before after d, r.statements = before ++ after →
        (Statement.executeAll before).runOn c = (.ok (), d) → ∀ name type,
          (Statement.scopeBehind [] before).find? name = some type →
            ∃ binding, d.bindings.find? name = some binding ∧
              (type ≠ .any → binding.value.type = type)) ∧
    ((∀ e ∈ r.expressions, e.Known) →
      ∀ error, (r.condition.evalCondition.runOn c).1 = .error error ∨
        ((Statement.executeAll r.statements).runOn c).1 = .error error →
          error = .divisionByZero ∨ (∃ operator, error = .overflow operator) ∨
            r.FailsIn c error) := by
  have hrule : r.Clean (fun _ => True) registry := clean_of_source (fun _ _ _ => trivial) hclean hr
  have hdeclared {e : Expr} (he : e ∈ r.expressions) {call : Expr.CallSite} (hcall : call ∈ e.calls)
      (htyped : call.target.descriptor.returns ≠ .any) : call.target.Behaves True :=
    (hsound _ _ (hrule.resolvedIn e he call hcall) htyped).behaves
  refine ⟨fun hkeeps => ?_, fun hknown error herror => ?_⟩
  · have hbehaves : ∀ e ∈ r.expressions, e.CallsBehave True := by
      intro e he call hcall
      by_cases hany : call.target.descriptor.returns = .any
      · exact (hkeeps e he call hcall hany).behaves hany
      · exact hdeclared he hcall hany
    refine ⟨fun n d value hreaches hvalue => ?_,
      fun before after d hsplit hrun name type hscope => ?_⟩
    · obtain ⟨env, hstands⟩ := hreaches.stands hrule hbehaves
      exact hstands.fits hvalue trivial
    · obtain ⟨binding, hbinding, hfits⟩ := hrule.binds hbehaves hsplit hrun name type hscope
      exact ⟨binding, hbinding, hfits trivial⟩
  · have hbehaves : ∀ e ∈ r.expressions, e.CallsBehave True := fun e he call hcall =>
      hdeclared he hcall (hrule.returns_ne_any he (hknown e he) hcall)
    obtain (harithmetic | ⟨-, hnot⟩) | hfails := hrule.faults hbehaves herror
    · exact harithmetic.imp_right .inl
    · exact absurd ⟨trivial, hknown⟩ hnot
    · exact .inr (.inr hfails)

end Rule

/-- A function that returns a number. -/
def one : Function := ⟨⟨1, "one"⟩, .simple "one" .long [], fun _ => return .long 1⟩

def oneRegistry : Registry := .ofList [one]

def countingSource : String :=
  "rule \"counting\" when 1 < 2.5 then let x = one() + 1; one(); let x = x / 0; end"

theorem countingSource_rules_ne_nil : (parseSource countingSource oneRegistry).rules ≠ [] := by
  rw [Ne, ← List.isEmpty_iff]
  decide +kernel

def countingRule : Rule :=
  (parseSource countingSource oneRegistry).rules.head countingSource_rules_ne_nil

theorem Rule.types_sound_countingRule :
    let c := Context.start (.empty .nil .epoch)
    (∀ value, (countingRule.condition.eval.runOn c).1 = .ok value → value.type = .boolean) ∧
      (∀ d, (Statement.executeAll (countingRule.statements.take 2)).runOn c = (.ok (), d) →
        ∃ binding, d.bindings.find? "x" = some binding ∧ binding.value.type = .long) ∧
      (∀ error, ((Statement.executeAll countingRule.statements).runOn c).1 = .error error →
        error = .divisionByZero ∨ ∃ operator, error = .overflow operator) := by
  intro c
  have hone (name : String) (f : Function) (hf : oneRegistry.find? name = some f) : f = one :=
    List.mem_singleton.mp (Registry.of_find?_ofList hf).1
  have hsound : ∀ name f, oneRegistry.find? name = some f → f.descriptor.returns ≠ .any →
      f.Sound := by
    intro name f hf _ args c value d hrun
    rw [hone name f hf] at hrun ⊢
    cases hrun
    exact ⟨rfl, rfl⟩
  have hclean : (parseSource countingSource oneRegistry).isClean := by decide +kernel
  have hrule : countingRule ∈ (parseSource countingSource oneRegistry).rules :=
    List.head_mem countingSource_rules_ne_nil
  have hresolved : ∀ e ∈ countingRule.expressions, e.ResolvedIn oneRegistry :=
    (@clean_of_source (fun _ => True) _ _ (fun _ _ _ => trivial) hclean _ hrule).resolvedIn
  have htyped : ∀ e ∈ countingRule.expressions, ∀ call ∈ e.calls,
      call.target.descriptor.returns = .any → call.target.KeepsBindings := by
    intro e he call hcall hany
    rw [hone _ _ (hresolved e he call hcall)] at hany
    cases hany
  have hknown : ∀ e ∈ countingRule.expressions, e.Known := by decide +kernel
  obtain ⟨hvalues, hfaults⟩ := types_sound hsound hclean hrule c
  obtain ⟨hnodes, hvariables⟩ := hvalues htyped
  have htype : countingRule.condition.type = .boolean := by decide +kernel
  refine ⟨fun value hvalue => ?_, fun d hrun => ?_, fun error herror => ?_⟩
  · rw [← htype]
    exact hnodes _ c value (.condition (.here _ c)) hvalue (by rw [htype]; decide)
  · have hscope : (Statement.scopeBehind [] (countingRule.statements.take 2)).find? "x" =
        some .long := by decide +kernel
    obtain ⟨binding, hbinding, hbound⟩ := hvariables _ _ d
      (List.take_append_drop 2 countingRule.statements).symm hrun "x" .long hscope
    exact ⟨binding, hbinding, hbound (by decide)⟩
  · obtain harithmetic | hoverflow | hfails := hfaults hknown error (.inr herror)
    · exact .inl harithmetic
    · exact .inr hoverflow
    · obtain ⟨_, _, target, _, _, _, _, _, _, bound, hreaches, -, -, hrun⟩ := hfails
      obtain ⟨e, he, hnode⟩ := hreaches.exists_mem_nodes
      have hclean : Rule.Clean (fun _ => True) oneRegistry countingRule :=
        clean_of_source (fun _ _ _ => trivial) hclean hrule
      rw [hone _ _ (hclean.call he hnode).1] at hrun
      cases hrun

/-- A function that declares no type, and binds a variable of the rule that calls it to a text. -/
def rebind : Function where
  id := ⟨0, "rebind"⟩
  descriptor := (Descriptor.simple "rebind" .any []).impure
  run := fun _ => do
    EvalM.define "x" .string (.string "text")
    return .null

def rebindRegistry : Registry := Registry.empty.add rebind

def rebindingSource : String :=
  "rule \"rebinding\" when true then let x = 1; rebind(); let y = x; end"

theorem rebindingSource_rules_ne_nil : (parseSource rebindingSource rebindRegistry).rules ≠ [] := by
  rw [Ne, ← List.isEmpty_iff]
  decide +kernel

def rebindingRule : Rule :=
  (parseSource rebindingSource rebindRegistry).rules.head rebindingSource_rules_ne_nil

theorem rebindingRule_statements_ne_nil : rebindingRule.statements ≠ [] := by
  rw [Ne, ← List.isEmpty_iff]
  decide +kernel

/-- A run comes to the last statement behind the others. -/
theorem Rule.Reaches.last {r : Rule} (hne : r.statements ≠ []) {c : Context}
    (h : ((Statement.executeAll r.statements.dropLast).runOn c).1 = .ok ()) :
    r.Reaches c (r.statements.getLast hne).expression
      ((Statement.executeAll r.statements.dropLast).runOn c).2 := by
  have hsplit : r.statements = r.statements.dropLast ++ r.statements.getLast hne :: [] :=
    (List.dropLast_append_getLast hne).symm
  have hbefore : (Statement.executeAll r.statements.dropLast).runOn c =
      (.ok (), ((Statement.executeAll r.statements.dropLast).runOn c).2) := Prod.ext h rfl
  exact .statement hsplit hbefore (.here _ _)

theorem rebindingRule_runs :
    let last := rebindingRule.statements.getLast rebindingRule_statements_ne_nil
    let behind := (Statement.executeAll rebindingRule.statements.dropLast).runOn
      (.start (.empty .nil .epoch))
    behind.1 = .ok () ∧ last.expression.type = .long ∧
      (last.expression.eval.runOn behind.2).1.toOption.map Value.type = some .string := by
  decide +kernel

/-- Where a function rebinds a variable, a node of a known type has a value of another. -/
theorem Rule.rebound_variable :
    (∀ name f, rebindRegistry.find? name = some f → f.descriptor.returns ≠ .any → f.Sound) ∧
      (parseSource rebindingSource rebindRegistry).isClean = true ∧
      rebindingRule ∈ (parseSource rebindingSource rebindRegistry).rules ∧
      ∃ n d, rebindingRule.Reaches (.start (.empty .nil .epoch)) n d ∧ n.type = .long ∧
        (n.eval.runOn d).1.toOption.map Value.type = some .string := by
  refine ⟨?_, by decide +kernel, List.head_mem rebindingSource_rules_ne_nil, ?_⟩
  · intro name f hf hreturns
    obtain rfl | hnone := Registry.eq_or_of_find?_add hf
    · exact absurd rfl hreturns
    · cases hnone
  · obtain ⟨hbehind, hstatic, hvalue⟩ := rebindingRule_runs
    exact ⟨_, _, Reaches.last rebindingRule_statements_ne_nil hbehind, hstatic, hvalue⟩

end LogRules
