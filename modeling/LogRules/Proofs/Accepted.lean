import LogRules.Grammar.Expression
import LogRules.Proofs.Checks

/-!
The trees that parsing builds when it finds nothing wrong: every node has the type that its parts
give it and passes its static checks, and its names can be written in a source.
-/
namespace LogRules

/-- The values of literals in a source. -/
def Value.Writable : Value → Prop
  | .boolean _ | .string _ => True
  | .long n => Long.least < n.toInt
  | .double x => x.isFinite
  | _ => False

theorem Long.toInt_neg {n : Int64} (h : Long.least < n.toInt) : (-n).toInt = -n.toInt := by
  have hlow := n.le_toInt
  have hhigh := n.toInt_lt
  rw [Long.least] at h
  rw [← Int64.ofInt_toInt n, ← Int64.ofInt_neg, Int64.ofInt_toInt,
    Int64.toInt_ofInt_of_le (by omega) (by omega)]

/-- Names that stand on one line. -/
def OnOneLine (name : String) : Prop := '\n' ∉ name.toList

/-- Names that a variable or a function of a source can have where it is used. -/
structure Usable (name : String) : Prop where
  plain : Text.isPlainName name.toList
  free : isReserved name = false

theorem Expr.sameWord_of_usable {name : String} (h : Usable name) (word : String)
    (hword : word ∈ reservedWords) : Lexeme.sameWord name word = false := by
  by_contra hsame
  have hreserved : isReserved name = true :=
    List.any_eq_true.mpr ⟨word, hword, by simpa using hsame⟩
  rw [h.free] at hreserved
  cases hreserved

/-- No function has the name of a reserved word. -/
def Registry.Unreserved (registry : Registry) : Prop :=
  ∀ name ∈ registry.names, isReserved name = false

theorem Registry.Unreserved.of_find? {registry : Registry} (h : registry.Unreserved)
    {name : String} {f : Function} (hf : registry.find? name = some f) : isReserved name = false :=
  h name (List.mem_map_of_mem (Entries.mem_of_find? hf))

/-- Every function is registered under a name that is `callable`. -/
def Registry.Names (registry : Registry) (callable : String → Prop) : Prop :=
  ∀ name f, registry.find? name = some f → callable name

theorem Registry.Unreserved.names {registry : Registry} (h : registry.Unreserved) :
    registry.Names (isReserved · = false) := fun _ _ hf => h.of_find? hf

namespace Expr

/-- Calls hold the functions that a registry knows by their names. -/
def ResolvedIn (registry : Registry) (e : Expr) : Prop :=
  ∀ call ∈ e.calls, registry.find? call.name = some call.target

end Expr

namespace Grammar

/-- A tree without errors in its environment, whose calls have names that are `callable`. Where
checks want a place, any will do. -/
inductive Clean (callable : String → Prop) (env : Env) : Expr → Prop
  | literal (site : Site) (value : Value) (hvalue : value.Writable)
      (htype : site.type = value.type) : Clean callable env (.literal site value)
  | array (site : Site) (items : List Expr) (htype : site.type = .list)
      (hitems : ∀ e ∈ items, Clean callable env e) : Clean callable env (.array site items)
  | map (site : Site) (entries : List (String × Expr)) (htype : site.type = .map)
      (hentries : ∀ entry ∈ entries, Clean callable env entry.2) :
      Clean callable env (.map site entries)
  | var (site : Site) (name : String) (hname : Usable name)
      (hscope : env.scope.find? name = some site.type) : Clean callable env (.var site name)
  | field (site : Site) (name : String) (htype : site.type = .any) (hname : OnOneLine name) :
      Clean callable env (.field site name)
  | access (site : Site) (object : Expr) (name : String) (htype : site.type = .any)
      (hname : OnOneLine name) (hobject : Clean callable env object)
      (hclean : (Typing.access object name .nowhere).errors = []) :
      Clean callable env (.access site object name)
  | index (site : Site) (object key : Expr) (htype : site.type = .any)
      (hobject : Clean callable env object) (hkey : Clean callable env key)
      (hclean : (Typing.index object key .nowhere).errors = []) :
      Clean callable env (.index site object key)
  | not (site : Site) (operand : Expr) (htype : site.type = .boolean)
      (hoperand : Clean callable env operand)
      (hclean : (Typing.negation .nowhere operand).errors = []) :
      Clean callable env (.unary site .not operand)
  | signed (site : Site) (op : UnaryOp) (operand : Expr) (hop : op ≠ .not)
      (htype : site.type = (Typing.signed op .nowhere operand).expr.type)
      (hoperand : Clean callable env operand)
      (hclean : (Typing.signed op .nowhere operand).errors = []) :
      Clean callable env (.unary site op operand)
  | binary (site : Site) (op : BinaryOp) (left right : Expr)
      (htype : site.type = Typing.joinType op left.type right.type)
      (hleft : Clean callable env left) (hright : Clean callable env right)
      (hclean : (Typing.join op left right .nowhere).errors = []) :
      Clean callable env (.binary site op left right)
  | call (site : Site) (name : String) (target : Function) (args : List (String × Expr))
      (named : Bool) (hname : Text.isPlainName name.toList ∧ callable name)
      (hfind : env.registry.find? name = some target)
      (htype : site.type = target.descriptor.returns)
      (hargs : ∀ entry ∈ args, Clean callable env entry.2)
      (hparams : named = true → ∀ entry ∈ args, OnOneLine entry.1)
      (hnamed : Typing.isNamed (Typing.rawArgs named args) = named)
      (hbound : Typing.boundArgs target (Typing.rawArgs named args) = args)
      (hclean : (Typing.call env.registry env.inCondition name (Typing.rawArgs named args)
        .nowhere).errors = []) :
      Clean callable env (.call site name target args named true)

/-- A tree without errors whose calls cannot be taken for anything else when they are read back. -/
abbrev Accepted (env : Env) : Expr → Prop := Clean (isReserved · = false) env

namespace Clean

variable {callable : String → Prop} {env : Env}

theorem moveTo {e : Expr} (h : Clean callable env e) (p : Position) :
    Clean callable env (e.moveTo p) := by
  cases h with
  | literal site value hvalue htype => exact .literal _ value hvalue htype
  | array site items htype hitems => exact .array _ items htype hitems
  | map site entries htype hentries => exact .map _ entries htype hentries
  | var site name hname hscope => exact .var _ name hname hscope
  | field site name htype hname => exact .field _ name htype hname
  | access site object name htype hname hobject hclean =>
    exact .access _ object name htype hname hobject hclean
  | index site object key htype hobject hkey hclean =>
    exact .index _ object key htype hobject hkey hclean
  | not site operand htype hoperand hclean => exact .not _ operand htype hoperand hclean
  | signed site op operand hop htype hoperand hclean =>
    exact .signed _ op operand hop htype hoperand hclean
  | binary site op left right htype hleft hright hclean =>
    exact .binary _ op left right htype hleft hright hclean
  | call site name target args named hname hfind htype hargs hparams hnamed hbound hclean =>
    exact .call _ name target args named hname hfind htype hargs hparams hnamed hbound hclean

/-- Every call is resolved, and holds the function that the registry knows by its name. -/
theorem calls_known (h : Clean callable env e) {call : Expr.CallSite} (hcall : call ∈ e.calls) :
    env.registry.find? call.name = some call.target ∧ call.resolved = true := by
  induction h with
  | literal site value => cases hcall
  | array site items htype hitems ih =>
    rw [Expr.calls, Expr.callsItems_eq] at hcall
    obtain ⟨e, he, hcall⟩ := List.mem_flatMap.mp hcall
    exact ih e he hcall
  | map site entries htype hentries ih =>
    rw [Expr.calls, Expr.callsEntries_eq] at hcall
    obtain ⟨entry, hentry, hcall⟩ := List.mem_flatMap.mp hcall
    exact ih entry hentry hcall
  | var site name => cases hcall
  | field site name => cases hcall
  | access site object name htype hname hobject hclean ih => exact ih hcall
  | index site object key htype hobject hkey hclean ih ihKey =>
    cases List.mem_append.mp hcall with
    | inl hcall => exact ih hcall
    | inr hcall => exact ihKey hcall
  | not site operand htype hoperand hclean ih => exact ih hcall
  | signed site op operand hop htype hoperand hclean ih => exact ih hcall
  | binary site op left right htype hleft hright hclean ihLeft ihRight =>
    cases List.mem_append.mp hcall with
    | inl hcall => exact ihLeft hcall
    | inr hcall => exact ihRight hcall
  | call site name target args named hname hfind htype hargs hparams hnamed hbound hclean ih =>
    rw [Expr.calls, Expr.callsEntries_eq] at hcall
    cases hcall with
    | head => exact ⟨hfind, rfl⟩
    | tail _ hcall =>
      obtain ⟨entry, hentry, hcall⟩ := List.mem_flatMap.mp hcall
      exact ih entry hentry hcall

theorem resolvedIn (h : Clean callable env e) : e.ResolvedIn env.registry :=
  fun _ hcall => (h.calls_known hcall).1

theorem child {e child : Expr} (h : Clean callable env e) (hchild : child ∈ e.children) :
    Clean callable env child := by
  cases h with
  | literal | var | field => cases hchild
  | array site items htype hitems => exact hitems child hchild
  | map site entries htype hentries =>
    obtain ⟨entry, hentry, rfl⟩ := List.mem_map.mp hchild
    exact hentries entry hentry
  | access site object name htype hname hobject => exact List.mem_singleton.mp hchild ▸ hobject
  | index site object key htype hobject hkey =>
    simp only [Expr.children, List.mem_cons, List.not_mem_nil, or_false] at hchild
    obtain rfl | rfl := hchild
    · exact hobject
    · exact hkey
  | not site operand htype hoperand => exact List.mem_singleton.mp hchild ▸ hoperand
  | signed site op operand hop htype hoperand => exact List.mem_singleton.mp hchild ▸ hoperand
  | binary site op left right htype hleft hright =>
    simp only [Expr.children, List.mem_cons, List.not_mem_nil, or_false] at hchild
    obtain rfl | rfl := hchild
    · exact hleft
    · exact hright
  | call site name target args named hname hfind htype hargs =>
    obtain ⟨entry, hentry, rfl⟩ := List.mem_map.mp hchild
    exact hargs entry hentry

end Clean

end Grammar

end LogRules
