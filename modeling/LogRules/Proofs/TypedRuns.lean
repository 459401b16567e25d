import LogRules.Proofs.CallBinding
import LogRules.Proofs.CleanSources
import LogRules.Proofs.ReachedNodes
import LogRules.Proofs.TypedOperators

/-!
Runs of expressions and statements without errors. Every variable in scope is bound while they run,
and as far as functions are honest about what they return, values have the types that are known of
them.
-/
namespace LogRules

namespace EvalM

variable {α β : Type} {I J K : Context → Prop} {Q : α → Prop} {R : β → Prop} {E : EvalError → Prop}

/-- From a state in `I` the computation comes to a state in `J` with a result in `Q`, or it fails
with a fault in `E`. -/
def Meets (I J : Context → Prop) (Q : α → Prop) (E : EvalError → Prop) (x : EvalM α) : Prop :=
  ∀ c, I c → Outcome (fun a => J (x.runOn c).2 ∧ Q a) E (x.runOn c).1

theorem meets_pure {a : α} (h : Q a) : Meets I I Q E (pure a) := fun _ hc => ⟨hc, h⟩

theorem meets_lift {outcome : Except EvalError α} (h : Outcome Q E outcome) :
    Meets I I Q E (lift outcome) := by
  intro c hc
  rw [runOn_lift]
  exact h.mono (fun _ ha => ⟨hc, ha⟩) fun _ h => h

theorem meets_message : Meets I I (fun _ => True) E message := fun _ hc => ⟨hc, trivial⟩

theorem Meets.bind {x : EvalM α} {f : α → EvalM β} (hx : Meets I J Q E x)
    (hf : ∀ a, Q a → Meets J K R E (f a)) : Meets I K R E (x >>= f) := by
  intro c hc
  have hfirst := hx c hc
  rw [runOn_bind]
  split
  · next a d hrun =>
    rw [hrun] at hfirst
    exact hf a hfirst.2 d hfirst.1
  · next error d hrun =>
    rw [hrun] at hfirst
    exact hfirst

end EvalM

/-- Every variable in scope is bound, to a value of its type. -/
def Context.Binds (honest : Prop) (scope : Typing.Scope) (c : Context) : Prop :=
  ∀ name type, scope.find? name = some type →
    ∃ binding, c.bindings.find? name = some binding ∧ binding.value.Fits honest type

/-- A call that succeeds leaves the variables as they are, and an honest function returns a value of
the type that it declares. -/
def Function.Behaves (honest : Prop) (f : Function) : Prop :=
  ∀ args c value d, (f.run args).runOn c = (.ok value, d) →
    d.bindings = c.bindings ∧ value.Fits honest f.descriptor.returns

/-- The functions that the expression calls behave. -/
def Expr.CallsBehave (honest : Prop) (e : Expr) : Prop :=
  ∀ call ∈ e.calls, call.target.Behaves honest

theorem Expr.CallsBehave.child {honest : Prop} {e child : Expr} (h : e.CallsBehave honest)
    (hchild : child ∈ e.children) : child.CallsBehave honest :=
  fun call hcall => h call (calls_of_child hchild hcall)

open EvalM

section Soundness

variable {honest : Prop} {scope : Typing.Scope}

/-- From a state that binds the variables in scope, the computation comes to such a state with a
result in `Q`, or it fails. -/
abbrev EvalM.Keeps {α : Type} (honest : Prop) (scope : Typing.Scope) (Q : α → Prop)
    (x : EvalM α) : Prop :=
  Meets (Context.Binds honest scope) (Context.Binds honest scope) Q (fun _ => True) x

/-- The expression runs as its type says. -/
def Expr.RunsAs (honest : Prop) (scope : Typing.Scope) (e : Expr) : Prop :=
  e.eval.Keeps honest scope (Value.Fits honest e.type)

/-- What is known of an outcome is known of the computation. -/
theorem keeps_lift {α : Type} {Q R : α → Prop} {E : EvalError → Prop} {outcome : Except EvalError α}
    (h : Outcome Q E outcome) (hQ : ∀ a, Q a → R a) : (lift outcome).Keeps honest scope R :=
  meets_lift (h.mono hQ fun _ _ => trivial)

theorem Value.fits_any (value : Value) : value.Fits honest .any :=
  fun _ hknown => absurd rfl hknown

theorem keeps_lookup {name : String} {type : ValueType} (h : scope.find? name = some type) :
    (EvalM.lookup name).Keeps honest scope (Value.Fits honest type) := by
  intro c hc
  obtain ⟨binding, hbinding, hfits⟩ := hc name type h
  have hrun : (EvalM.lookup name).runOn c = (.ok binding.value, c) := by
    have hfirst : (EvalM.lookup name).runOn c = (EvalM.lift (c.lookup name)).runOn c := rfl
    rw [hfirst, runOn_lift, Context.lookup, hbinding]
  rw [hrun]
  exact ⟨hc, hfits⟩

/-- The value fits the type of the expression. -/
def Value.FitsExpr (honest : Prop) (value : Value) (e : Expr) : Prop := value.Fits honest e.type

theorem keeps_evalItems {items : List Expr} (h : ∀ e ∈ items, e.RunsAs honest scope) :
    (Expr.evalItems items).Keeps honest scope
      fun values => List.Forall₂ (Value.FitsExpr honest) values items := by
  induction items with
  | nil => exact meets_pure .nil
  | cons e rest ih =>
    exact (h e List.mem_cons_self).bind fun _ hvalue =>
      (ih fun e he => h e (List.mem_cons_of_mem _ he)).bind fun _ hvalues =>
        meets_pure (.cons hvalue hvalues)

theorem keeps_evalEntries {entries : List (String × Expr)}
    (h : ∀ entry ∈ entries, entry.2.RunsAs honest scope) :
    (Expr.evalEntries entries).Keeps honest scope fun _ => True := by
  induction entries with
  | nil => exact meets_pure trivial
  | cons entry rest ih =>
    exact (h entry List.mem_cons_self).bind fun _ _ =>
      (ih fun e he => h e (List.mem_cons_of_mem _ he)).bind fun _ _ => meets_pure trivial

theorem keeps_truthy (value : Value) :
    (lift (Operator.truthy value)).Keeps honest scope fun _ => True :=
  keeps_lift (Operator.truthy_faults value) fun _ _ => trivial

theorem runsAs_binary {site : Site} {op : BinaryOp} {left right : Expr}
    (htype : site.type = Typing.joinType op left.type right.type)
    (hclean : (Typing.join op left right .nowhere).errors = [])
    (hleft : left.RunsAs honest scope) (hright : right.RunsAs honest scope) :
    (Expr.binary site op left right).RunsAs honest scope := by
  by_cases hlogical : op = .and ∨ op = .or
  · -- The right operand may be skipped, so both operands are looked at one by one.
    have hfits (flag : Bool) :
        (Value.boolean flag).Fits honest (Expr.binary site op left right).type := by
      intro _ _
      have hsite : (Expr.binary site op left right).type = site.type := rfl
      rw [hsite, htype]
      obtain rfl | rfl := hlogical <;> rfl
    have hanswer : EvalM.Keeps honest scope
        (Value.Fits honest (Expr.binary site op left right).type)
        (do return .boolean (← lift (Operator.truthy (← right.eval)))) :=
      hright.bind fun value _ => (keeps_truthy value).bind fun flag _ => meets_pure (hfits flag)
    obtain rfl | rfl := hlogical
    · refine hleft.bind fun value _ => (keeps_truthy value).bind fun flag _ => ?_
      cases flag with
      | true => exact hanswer
      | false => exact meets_pure (hfits false)
    · refine hleft.bind fun value _ => (keeps_truthy value).bind fun flag _ => ?_
      cases flag with
      | true => exact meets_pure (hfits true)
      | false => exact hanswer
  · rw [not_or] at hlogical
    rw [Expr.RunsAs, Expr.eval_of_eager hlogical.1 hlogical.2]
    refine hleft.bind fun a ha => hright.bind fun b hb =>
      keeps_lift (Operator.binary_checked hlogical.1 hlogical.2 ha hb hclean) fun value hvalue => ?_
    rw [← htype] at hvalue
    exact hvalue

theorem keeps_invoke {target : Function} (hbehaves : target.Behaves honest) (name : String)
    (values : List (String × Value)) :
    (target.invoke name values).Keeps honest scope
      (Value.Fits honest target.descriptor.returns) := by
  have hrun (bound : Args) : (target.run bound).Keeps honest scope
      (Value.Fits honest target.descriptor.returns) := by
    intro c hc
    match hresult : (target.run bound).runOn c with
    | (.ok value, d) =>
      obtain ⟨hkept, hfits⟩ := hbehaves bound c value d hresult
      refine ⟨?_, hfits⟩
      intro bindingName type htype
      rw [hkept]
      exact hc bindingName type htype
    | (.error error, d) => trivial
  have hlift : (lift (Args.bind name target.descriptor values)).Keeps honest scope
      fun _ => True := by
    apply meets_lift
    cases Args.bind name target.descriptor values <;> trivial
  exact hlift.bind fun bound _ => hrun bound

/-- An expression without errors runs as its type says, from any state that binds the variables in
scope, if the functions that it calls behave. -/
theorem runsAs_of_clean {callable : String → Prop} {env : Grammar.Env} {e : Expr}
    (hclean : Grammar.Clean callable env e)
    (hbehaves : e.CallsBehave honest) : e.RunsAs honest env.scope := by
  induction hclean with
  | literal site value hvalue htype => exact meets_pure fun _ _ => htype.symm
  | array site items htype hitems ih =>
    exact (keeps_evalItems fun e he => ih e he (hbehaves.child he)).bind
      fun _ _ => meets_pure fun _ _ => htype.symm
  | map site entries htype hentries ih =>
    exact (keeps_evalEntries fun entry hentry =>
      ih entry hentry (hbehaves.child (List.mem_map_of_mem hentry))).bind
        fun _ _ => meets_pure fun _ _ => htype.symm
  | var site name hname hscope => exact keeps_lookup hscope
  | field site name htype hname =>
    have hany : (Expr.field site name).type = .any := htype
    rw [Expr.RunsAs, hany]
    exact meets_message.bind fun m _ => meets_pure (Value.fits_any _)
  | access site object name htype hname hobject hclean ih =>
    have hany : (Expr.access site object name).type = .any := htype
    rw [Expr.RunsAs, hany]
    exact (ih (hbehaves.child List.mem_cons_self)).bind fun value _ =>
      keeps_lift (Operator.access_faults value name) fun _ _ => Value.fits_any _
  | index site object key htype hobject hkey hclean ih ihKey =>
    have hany : (Expr.index site object key).type = .any := htype
    rw [Expr.RunsAs, hany]
    exact (ih (hbehaves.child List.mem_cons_self)).bind fun value _ =>
      (ihKey (hbehaves.child (List.mem_cons_of_mem _ List.mem_cons_self))).bind fun place _ =>
        keeps_lift (Operator.index_faults value place) fun _ _ => Value.fits_any _
  | not site operand htype hoperand hclean ih =>
    have hboolean : (Expr.unary site .not operand).type = .boolean := htype
    rw [Expr.RunsAs, hboolean]
    exact (ih (hbehaves.child List.mem_cons_self)).bind fun value hvalue =>
      keeps_lift (Operator.not_checked hvalue (Typing.checkBoolean_eq_nil.mp hclean)) fun _ h => h
  | signed site op operand hop htype hoperand hclean ih =>
    have hsigned : (Expr.unary site op operand).type =
        (Typing.signed op .nowhere operand).expr.type := htype
    rw [Expr.RunsAs, hsigned]
    exact (ih (hbehaves.child List.mem_cons_self)).bind fun value hvalue =>
      keeps_lift (Operator.signed_checked hop hvalue hclean) fun _ h => h
  | binary site op left right htype hleft hright hclean ihLeft ihRight =>
    exact runsAs_binary htype hclean (ihLeft (hbehaves.child List.mem_cons_self))
      (ihRight (hbehaves.child (List.mem_cons_of_mem _ List.mem_cons_self)))
  | call site name target args named hname hfind htype hargs hparams hnamed hbound hclean ih =>
    have hreturns : (Expr.call site name target args named true).type =
        target.descriptor.returns := htype
    rw [Expr.RunsAs, hreturns]
    exact (keeps_evalEntries fun entry hentry =>
      ih entry hentry (hbehaves.child (List.mem_map_of_mem hentry))).bind fun values _ =>
        keeps_invoke (hbehaves _ List.mem_cons_self) name values

theorem Context.Binds.define {c : Context} (hc : c.Binds honest scope) (name : String)
    {type : ValueType} {value : Value} (hvalue : value.Fits honest type) (declared : ValueType) :
    (c.define name declared value).Binds honest (scope.insert name type) := by
  intro other otherType hother
  rw [Entries.find?_insert] at hother
  rw [Context.define, Entries.find?_insert]
  by_cases hname : name = other
  · rw [if_pos hname] at hother ⊢
    cases hother
    exact ⟨_, rfl, hvalue⟩
  · rw [if_neg hname] at hother ⊢
    exact hc other otherType hother

namespace Statement

/-- The variables in scope behind statements. -/
def scopeBehind (scope : Typing.Scope) (statements : List Statement) : Typing.Scope :=
  statements.foldl scopeAfter scope

variable {callable : String → Prop} {registry : Registry}

theorem Clean.env_place {s : Statement} :
    (s.place scope).env registry = ⟨registry, scope, false⟩ := by
  cases s <;> rfl

theorem Clean.runsAs {s : Statement} (h : s.Clean callable registry scope)
    (hbehaves : s.expression.CallsBehave honest) :
    s.expression.RunsAs honest scope := by
  have hexpression := h.admits.accepted
  rw [Clean.env_place] at hexpression
  exact runsAs_of_clean hexpression hbehaves

theorem meets_execute {s : Statement} (hclean : s.Clean callable registry scope)
    (hbehaves : s.expression.CallsBehave honest) :
    Meets (Context.Binds honest scope) (Context.Binds honest (s.scopeAfter scope))
      (fun _ => True) (fun _ => True) s.execute := by
  have hruns := hclean.runsAs hbehaves
  cases s with
  | perform e => exact hruns.bind fun _ _ => meets_pure trivial
  | bind name type value p =>
    refine hruns.bind fun v hv c hc => ⟨?_, trivial⟩
    rw [scopeAfter, (hclean.binds name type value p rfl).1]
    exact hc.define name hv _

/-- Statements one behind the other leave the variables bound that are in scope behind them. -/
theorem meets_executeAll {statements : List Statement}
    (hclean : AllClean callable registry scope statements)
    (hbehaves : ∀ s ∈ statements, s.expression.CallsBehave honest) :
    Meets (Context.Binds honest scope) (Context.Binds honest (scopeBehind scope statements))
      (fun _ => True) (fun _ => True) (executeAll statements) := by
  induction statements generalizing scope with
  | nil => exact meets_pure trivial
  | cons s rest ih =>
    exact (meets_execute hclean.1 (hbehaves s List.mem_cons_self)).bind fun _ _ =>
      ih hclean.2 fun t ht => hbehaves t (List.mem_cons_of_mem s ht)

end Statement

end Soundness

end LogRules
