import LogRules.Proofs.CacheTransparency
import LogRules.Proofs.CleanSources
import LogRules.Proofs.Quoting
import LogRules.Proofs.Readable
import LogRules.Proofs.Rereading

/-!
Rules with the same body that call the same functions behave alike, so a key stands for one
behaviour as long as fingerprints do not collide.
-/
namespace LogRules

open Parse Grammar

namespace Grammar.Clean

variable {callable : String → Prop} {env : Env} {e : Expr}

/-- An expression is clean against every registry that resolves its calls alike. -/
theorem transport {registry : Registry} (h : Clean callable env e)
    (hcalls : e.ResolvedIn registry) :
    Clean callable ⟨registry, env.scope, env.inCondition⟩ e := by
  induction h with
  | literal site value hvalue htype => exact .literal site value hvalue htype
  | array site items htype hitems ih =>
    refine .array site items htype fun e he => ih e he fun call hcall => hcalls call ?_
    rw [Expr.calls, Expr.callsItems_eq]
    exact List.mem_flatMap.mpr ⟨e, he, hcall⟩
  | map site entries htype hentries ih =>
    refine .map site entries htype fun entry hentry => ih entry hentry fun call hcall =>
      hcalls call ?_
    rw [Expr.calls, Expr.callsEntries_eq]
    exact List.mem_flatMap.mpr ⟨entry, hentry, hcall⟩
  | var site name hname hscope => exact .var site name hname hscope
  | field site name htype hname => exact .field site name htype hname
  | access site object name htype hname hobject hclean ih =>
    exact .access site object name htype hname (ih hcalls) hclean
  | index site object key htype hobject hkey hclean ih ihKey =>
    exact .index site object key htype (ih fun call h => hcalls call (List.mem_append_left _ h))
      (ihKey fun call h => hcalls call (List.mem_append_right _ h)) hclean
  | not site operand htype hoperand hclean ih =>
    exact .not site operand htype (ih hcalls) hclean
  | signed site op operand hop htype hoperand hclean ih =>
    exact .signed site op operand hop htype (ih hcalls) hclean
  | binary site op left right htype hleft hright hclean ihLeft ihRight =>
    exact .binary site op left right htype
      (ihLeft fun call h => hcalls call (List.mem_append_left _ h))
      (ihRight fun call h => hcalls call (List.mem_append_right _ h)) hclean
  | call site name target args named hname hfind htype hargs hparams hnamed hbound hclean ih =>
    have hfind' : registry.find? name = some target := hcalls _ List.mem_cons_self
    refine .call site name target args named hname hfind' htype (fun entry hentry => ?_) hparams
      hnamed hbound ?_
    · refine ih entry hentry fun call hcall => hcalls call (List.mem_cons_of_mem _ ?_)
      rw [Expr.callsEntries_eq]
      exact List.mem_flatMap.mpr ⟨entry, hentry, hcall⟩
    · rw [Typing.call_errors .nowhere hfind']
      rw [Typing.call_errors .nowhere hfind] at hclean
      exact hclean

end Grammar.Clean

namespace Expr

variable {env : Env} {e e' : Expr}

theorem closed_text (h : Accepted env e) : Quoting.Closed e.text.toList := by
  rw [toList_text h]
  exact Quoting.closed_text ((standalone_pieces h).2 [] stops_nil)

/-- Accepted expressions with one text are read back as one tree. -/
theorem exists_common (h : Accepted env e) (hdepth : e.depth ≤ maxNesting) (h' : Accepted env e')
    (hdepth' : e'.depth ≤ maxNesting) (htext : e.text = e'.text) :
    ∃ found : Expr, found.Rereads e ∧ found.Rereads e' := by
  have hpieces : Piece.text e.pieces = Piece.text e'.pieces := by
    rw [← toList_text h, htext, toList_text h']
  have hlexemes : e.lexemes = e'.lexemes := Piece.lexemes_eq_of_text
    ((standalone_pieces h).2 [] stops_nil) ((standalone_pieces h').2 [] stops_nil) hpieces
  let tokens : List Token := e.lexemes.map fun l => ⟨l, .nowhere⟩
  have htokens : tokens.map Token.lexeme = e.lexemes := by
    rw [List.map_map]
    exact List.map_id' _
  have hends : (tokenAt 0 []).EndsLevel 0 := endsLevel_eof 0
  obtain ⟨found, hreply, hfound⟩ := reads_of_accepted h hdepth tokens [] htokens hends
  obtain ⟨found', hreply', hfound'⟩ :=
    reads_of_accepted h' hdepth' tokens [] (htokens.trans hlexemes) hends
  have hsame : some found = some found' := congrArg Reply.result (hreply.symm.trans hreply')
  cases hsame
  exact ⟨found, hfound, hfound'⟩

end Expr

theorem eq_of_line {line line' rest rest' : List Char} (h : '\n' ∉ line) (h' : '\n' ∉ line')
    (heq : line ++ '\n' :: rest = line' ++ '\n' :: rest') : line = line' ∧ rest = rest' := by
  have hnone {line line' rest rest' between : List Char} (h : '\n' ∉ line')
      (hline : line' = line ++ between) (heq : '\n' :: rest = between ++ '\n' :: rest') :
      between = [] := by
    cases between with
    | nil => rfl
    | cons c between =>
      obtain ⟨rfl, -⟩ := List.cons.inj heq
      exact absurd (by simp [hline]) h
  obtain ⟨hline, hrest⟩ := eq_of_append_eq (fun _ => hnone h') (fun _ => hnone h) heq
  exact ⟨hline, (List.cons.inj hrest).2⟩

namespace Statement

variable {registry : Registry} {scope : Typing.Scope} {s t : Statement}

theorem toList_perform (e : Expr) : (perform e).text.toList = e.text.toList ++ [';'] :=
  String.toList_append

theorem toList_bind (name : String) (type : ValueType) (value : Expr) (p : Position) :
    (bind name type value p).text.toList =
      'l' :: 'e' :: 't' :: ' ' ::
        (name.toList ++ ' ' :: '=' :: ' ' :: (value.text.toList ++ [';'])) := by
  simp [text]

theorem newline_not_mem_text (h : s.Accepted registry scope) : '\n' ∉ s.text.toList := by
  have hexpression := (Expr.closed_text h.admits.accepted).newline_not_mem
  cases s with
  | perform e =>
    rw [toList_perform]
    simpa [expression] using hexpression
  | bind name type value p =>
    have hname := (h.binds name type value p rfl).2.1
    rw [toList_bind]
    simpa [OnOneLine, expression] using And.intro hname hexpression

theorem perform_ne_bind {e : Expr} (h : (perform e).Accepted registry scope) (name : String)
    (type : ValueType) (value : Expr) (p : Position) :
    (perform e).text ≠ (bind name type value p).text := by
  intro heq
  have hcall := h.admits.isCall scope rfl
  have haccepted := h.admits.accepted
  have htext := congrArg String.toList heq
  rw [toList_perform, toList_bind] at htext
  cases haccepted with
  | call site callee target args named hname =>
    obtain ⟨-, -, -, -, hchars⟩ := exists_cons_of_plain hname.1
    have hcallee : ∃ more, (Expr.call site callee target args named true).text.toList ++ [';'] =
        callee.toList ++ '(' :: more := by
      simp [Expr.text]
    obtain ⟨more, hmore⟩ := hcallee
    have hends : EndsRun Text.isNameChar ('(' :: more) := endsRun_cons.mpr (by decide)
    have hword := takeWhile_run hchars hends
    rw [← hmore, htext] at hword
    have hlet : callee = String.ofList ['l', 'e', 't'] := by
      rw [← String.ofList_toList (s := callee), ← hword]
      rfl
    have hreserved : isReserved (String.ofList ['l', 'e', 't']) = true := by decide
    rw [← hlet, hname.2] at hreserved
    cases hreserved
  | _ => cases hcall

/-- Statements with one text do the same and leave the same scope. -/
theorem alike_of_text (hs : s.Accepted registry scope) (ht : t.Accepted registry scope)
    (htext : s.text = t.text) :
    s.execute = t.execute ∧ s.scopeAfter scope = t.scopeAfter scope := by
  have hlist := congrArg String.toList htext
  cases s with
  | perform e =>
    cases t with
    | perform e' =>
      rw [toList_perform, toList_perform, List.append_left_inj, String.toList_inj] at hlist
      obtain ⟨found, he, he'⟩ := Expr.exists_common hs.admits.accepted hs.admits.depth_le
        ht.admits.accepted ht.admits.depth_le hlist
      have heval : e.eval = e'.eval := he.eval_eq.symm.trans he'.eval_eq
      refine ⟨?_, rfl⟩
      rw [execute, execute, heval]
    | bind name type value p => exact absurd htext (perform_ne_bind hs name type value p)
  | bind name type value p =>
    cases t with
    | perform e => exact absurd htext.symm (perform_ne_bind ht name type value p)
    | bind name' type' value' p' =>
      obtain ⟨htype, -, -⟩ := hs.binds name type value p rfl
      obtain ⟨htype', -, -⟩ := ht.binds name' type' value' p' rfl
      have hbinding : name.toList ++ ' ' :: '=' :: ' ' :: value.text.toList =
          name'.toList ++ ' ' :: '=' :: ' ' :: value'.text.toList := by
        rw [toList_bind, toList_bind] at hlist
        have hends : (name.toList ++ ' ' :: '=' :: ' ' :: value.text.toList) ++ [';'] =
            (name'.toList ++ ' ' :: '=' :: ' ' :: value'.text.toList) ++ [';'] := by
          simpa using hlist
        exact List.append_cancel_right hends
      obtain ⟨hname, hvalue⟩ := (Expr.closed_text hs.admits.accepted).eq_of_binding
        (Expr.closed_text ht.admits.accepted) hbinding
      rw [String.toList_inj] at hname hvalue
      obtain ⟨found, he, he'⟩ := Expr.exists_common hs.admits.accepted hs.admits.depth_le
        ht.admits.accepted ht.admits.depth_le hvalue
      have hsame : value.type = value'.type := he.type_eq.symm.trans he'.type_eq
      have heval : value.eval = value'.eval := he.eval_eq.symm.trans he'.eval_eq
      rw [execute, execute, scopeAfter, scopeAfter, hname, htype, htype', hsame, heval]
      exact ⟨rfl, rfl⟩

theorem Clean.transport {callable : String → Prop} {registry' : Registry}
    (h : s.Clean callable registry scope) (hcalls : s.expression.ResolvedIn registry') :
    s.Clean callable registry' scope := by
  refine ⟨⟨?_, h.admits.depth_le, h.admits.boolean, h.admits.isCall⟩, h.binds⟩
  have haccepted := h.admits.accepted.transport hcalls
  cases s with
  | perform e => exact haccepted
  | bind name type value p => exact haccepted

/-- The line of a statement in the body of its rule. -/
def line (s : Statement) : List Char := ' ' :: ' ' :: (s.text.toList ++ ['\n'])

theorem texts_of_lines {statements statements' : List Statement}
    (h : AllAccepted registry scope statements) {registry' : Registry} {scope' : Typing.Scope}
    (h' : AllAccepted registry' scope' statements')
    (heq : statements.flatMap line = statements'.flatMap line) :
    statements.map text = statements'.map text := by
  induction statements generalizing scope scope' statements' with
  | nil =>
    cases statements' with
    | nil => rfl
    | cons t rest' => cases heq
  | cons s rest ih =>
    cases statements' with
    | nil => cases heq
    | cons t rest' =>
      simp only [List.flatMap_cons, line, List.cons_append, List.append_assoc, List.nil_append,
        List.cons.injEq, true_and] at heq
      obtain ⟨hfirst, hrest⟩ :=
        eq_of_line (newline_not_mem_text h.1) (newline_not_mem_text h'.1) heq
      rw [List.map_cons, List.map_cons, String.toList_inj.mp hfirst, ih h.2 h'.2 hrest]

theorem executeAll_eq {statements statements' : List Statement}
    (h : AllAccepted registry scope statements) {registry' : Registry}
    (h' : AllAccepted registry' scope statements')
    (hcalls : ∀ t ∈ statements', t.expression.ResolvedIn registry)
    (htext : statements.map text = statements'.map text) :
    executeAll statements = executeAll statements' := by
  induction statements generalizing scope statements' with
  | nil =>
    cases statements' with
    | nil => rfl
    | cons t rest' => cases htext
  | cons s rest ih =>
    cases statements' with
    | nil => cases htext
    | cons t rest' =>
      obtain ⟨hfirst, hrest⟩ := List.cons.inj htext
      obtain ⟨hexecute, hscope⟩ := alike_of_text h.1
        (h'.1.transport (hcalls t (by simp))) hfirst
      have hnext := h'.2
      rw [← hscope] at hnext
      rw [executeAll, executeAll, hexecute,
        ih h.2 hnext (fun u hu => hcalls u (by simp [hu])) hrest]

end Statement

namespace Rule

variable {registry registry' : Registry} {r s : Rule}

/-- The functions behind all calls of a rule, with the names that they are called by. -/
def callTargets (r : Rule) : List (String × Function) :=
  r.expressions.flatMap fun e => e.calls.map fun call => (call.name, call.target)

theorem toList_body (r : Rule) : r.body.toList =
    "when ".toList ++ (r.condition.text.toList ++ '\n' :: ("then\n".toList ++
      r.statements.flatMap Statement.line)) := by
  have hline (t : Statement) : ("  " ++ t.text ++ "\n").toList = t.line := by
    simp [Statement.line]
  simp [body, String.toList_join, List.flatMap_map, hline]

/-- The texts of condition and statements can be told from a body. -/
theorem texts_of_body (hr : r.Accepted registry) (hs : s.Accepted registry')
    (h : r.body = s.body) : r.condition.text = s.condition.text ∧
      r.statements.map Statement.text = s.statements.map Statement.text := by
  have hlist := congrArg String.toList h
  rw [toList_body, toList_body, List.append_cancel_left_eq] at hlist
  obtain ⟨hcondition, hrest⟩ := eq_of_line (Expr.closed_text hr.condition.accepted).newline_not_mem
    (Expr.closed_text hs.condition.accepted).newline_not_mem hlist
  rw [List.append_cancel_left_eq] at hrest
  exact ⟨String.toList_inj.mp hcondition,
    Statement.texts_of_lines hr.statements hs.statements hrest⟩

theorem Accepted.alike (hr : r.Accepted registry) (hs : s.Accepted registry')
    (hbody : r.body = s.body) (hcalls : r.callTargets = s.callTargets) : r.Alike s := by
  obtain ⟨hcondition, hstatements⟩ := texts_of_body hr hs hbody
  have hresolved : ∀ e ∈ s.expressions, e.ResolvedIn registry := by
    intro e he call hcall
    have hmem : (call.name, call.target) ∈ r.callTargets := by
      rw [hcalls]
      exact List.mem_flatMap.mpr ⟨e, he, List.mem_map_of_mem hcall⟩
    obtain ⟨e', he', hsame⟩ := List.mem_flatMap.mp hmem
    obtain ⟨call', hcall', heq⟩ := List.mem_map.mp hsame
    obtain ⟨hname, htarget⟩ := Prod.mk.inj heq
    rw [← hname, ← htarget]
    exact hr.resolvedIn e' he' call' hcall'
  have hadmits : Grammar.Accepted ⟨registry, [], true⟩ s.condition :=
    hs.condition.accepted.transport (hresolved s.condition List.mem_cons_self)
  obtain ⟨found, hfound, hfound'⟩ := Expr.exists_common hr.condition.accepted hr.condition.depth_le
    hadmits hs.condition.depth_le hcondition
  have heval : r.condition.eval = s.condition.eval := hfound.eval_eq.symm.trans hfound'.eval_eq
  have hexecute := Statement.executeAll_eq hr.statements hs.statements
    (fun t ht => hresolved _ (List.mem_cons_of_mem _ (List.mem_map_of_mem ht))) hstatements
  intro c
  rw [Expr.evalCondition, Expr.evalCondition, heval, hexecute]
  exact ⟨rfl, rfl⟩

/-- In one registry the names of the calls determine the functions. -/
theorem Accepted.callTargets_eq (h : r.Accepted registry) :
    r.callTargets = (r.callTargets.map Prod.fst).map fun name => (name, registry.resolve name) := by
  have hsame : ∀ target ∈ r.callTargets, (target.1, registry.resolve target.1) = target := by
    intro target htarget
    obtain ⟨e, he, hmem⟩ := List.mem_flatMap.mp htarget
    obtain ⟨call, hcall, rfl⟩ := List.mem_map.mp hmem
    have hfind := h.resolvedIn e he call hcall
    rw [Registry.resolve, hfind]
    rfl
  rw [List.map_map]
  exact ((List.map_congr_left hsame).trans (List.map_id _)).symm

/-- The key is sound: rules of sources without errors that have the same body and call the same
functions in the same order behave alike, whatever registries they were parsed against. -/
theorem alike_of_body {source source' : String} (hfree : registry.Unreserved)
    (hfree' : registry'.Unreserved) (hclean : (parseSource source registry).isClean)
    (hclean' : (parseSource source' registry').isClean)
    (hr : r ∈ (parseSource source registry).rules)
    (hs : s ∈ (parseSource source' registry').rules) (hbody : r.body = s.body)
    (hcalls : r.callTargets = s.callTargets) : r.Alike s :=
  (accepted_of_clean hfree hclean hr).alike (accepted_of_clean hfree' hclean' hs) hbody hcalls

end Rule

/-- A function that does nothing. -/
def idle : Function := ⟨⟨1, "idle"⟩, .simple "idle" .any [], fun _ => return .null⟩

def draftSource : String :=
  "rule \"draft\" when -(1) < $message.`odd name` then let `x = \"y` = \"a = `b\"; idle(); end"

def finalSource : String :=
  "rule \"final\" WHEN (-1 < $message.`odd name`) THEN LET `x = \"y` = \"a = `b\"; idle() END"

def draftRegistry : Registry := .ofList [idle]

def finalRegistry : Registry := .ofList [idle, .unresolved]

theorem draftSource_rules_ne_nil : (parseSource draftSource draftRegistry).rules ≠ [] := by
  rw [Ne, ← List.isEmpty_iff]
  decide +kernel

theorem finalSource_rules_ne_nil : (parseSource finalSource finalRegistry).rules ≠ [] := by
  rw [Ne, ← List.isEmpty_iff]
  decide +kernel

def draftRule : Rule :=
  (parseSource draftSource draftRegistry).rules.head draftSource_rules_ne_nil

def finalRule : Rule :=
  (parseSource finalSource finalRegistry).rules.head finalSource_rules_ne_nil

theorem Rule.alike_of_body_draftRule :
    draftRule.body = finalRule.body ∧ draftRule.Alike finalRule := by
  have hfree : draftRegistry.Unreserved := by
    unfold Registry.Unreserved
    decide
  have hfree' : finalRegistry.Unreserved := by
    unfold Registry.Unreserved
    decide
  have hclean : (parseSource draftSource draftRegistry).isClean := by
    decide +kernel
  have hclean' : (parseSource finalSource finalRegistry).isClean := by
    decide +kernel
  have hdraft : draftRule ∈ (parseSource draftSource draftRegistry).rules :=
    List.head_mem draftSource_rules_ne_nil
  have hfinal : finalRule ∈ (parseSource finalSource finalRegistry).rules :=
    List.head_mem finalSource_rules_ne_nil
  have hbody : draftRule.body = finalRule.body := by
    decide +kernel
  have hnames : draftRule.callTargets.map Prod.fst = ["idle"] := by
    decide +kernel
  have hnames' : finalRule.callTargets.map Prod.fst = ["idle"] := by
    decide +kernel
  have hcalls : draftRule.callTargets = finalRule.callTargets := by
    rw [(accepted_of_clean hfree hclean hdraft).callTargets_eq,
      (accepted_of_clean hfree' hclean' hfinal).callTargets_eq, hnames, hnames']
    rfl
  exact ⟨hbody, alike_of_body hfree hfree' hclean hclean' hdraft hfinal hbody hcalls⟩

/-- Keys are sound among rules without errors when fingerprints tell their bodies apart and
identities tell the functions that they call apart. -/
theorem keysSound_of_accepted {rules : List Rule} (known : FunctionId → Function)
    (haccepted : ∀ r ∈ rules, ∃ registry, r.Accepted registry)
    (hknown : ∀ r ∈ rules, ∀ target ∈ r.callTargets, known target.2.id = target.2)
    (hbodies : ∀ r ∈ rules, ∀ s ∈ rules, r.fingerprint = s.fingerprint → r.body = s.body) :
    KeysSound rules := by
  have hcalls : ∀ r ∈ rules,
      r.callTargets = r.key.calls.map fun call => (call.1, known call.2) := by
    intro r hr
    have hkey : r.key.calls = r.callTargets.map fun target => (target.1, target.2.id) := by
      rw [Rule.key, Rule.callTargets, List.map_flatMap]
      simp [List.map_map, Function.comp_def]
    have hsame : ∀ target ∈ r.callTargets, (target.1, known target.2.id) = target :=
      fun target htarget => Prod.ext rfl (hknown r hr target htarget)
    rw [hkey, List.map_map]
    exact ((List.map_congr_left hsame).trans (List.map_id _)).symm
  intro r hr s hs hkey
  obtain ⟨registry, hr'⟩ := haccepted r hr
  obtain ⟨registry', hs'⟩ := haccepted s hs
  have hbody : r.body = s.body := hbodies r hr s hs (congrArg RuleKey.fingerprint hkey)
  refine hr'.alike hs' hbody ?_
  rw [hcalls r hr, hcalls s hs, hkey]

end LogRules
