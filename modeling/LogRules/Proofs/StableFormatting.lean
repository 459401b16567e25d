import LogRules.Command
import LogRules.Proofs.Builtins
import LogRules.Proofs.Composition
import LogRules.Proofs.RereadDeclarations

/-!
Formatting twice is formatting once. What is read back from the text of a source differs from it in
minus signs that have become a part of their numbers, and these are written alike, but for the
integer zero, which has no sign to carry.
-/
namespace LogRules

open Parse Grammar

section Signs

theorem Long.neg_lt_zero {n : Int64} (hn : ¬ n < 0) (hzero : n ≠ 0) : -n < 0 := by
  rw [Int64.lt_iff_toInt_lt, Int64.toInt_zero] at hn ⊢
  have hne : n.toInt ≠ 0 := fun h => hzero (Int64.toInt_inj.mp (h.trans Int64.toInt_zero.symm))
  rw [Long.toInt_neg (by rw [Long.least]; omega)]
  omega

variable {plain : Value}

theorem Value.writable_negateNumber (h : plain.Writable) (hplain : plain.isUnsigned) :
    (negateNumber plain).Writable := by
  cases plain with
  | long n =>
    have hhigh := n.toInt_lt
    have hn : Long.least < n.toInt := h
    rw [negateNumber, Writable, Long.toInt_neg hn, Long.least]
    omega
  | double x => rwa [negateNumber, Writable, Double.isFinite_neg]
  | _ => cases hplain

theorem Value.pieces_negateNumber (h : plain.isUnsigned) (hzero : plain ≠ .long 0) :
    (negateNumber plain).pieces = .symbol .minus :: plain.pieces := by
  cases plain with
  | long n =>
    have hn : ¬ n < 0 := by simpa [isUnsigned] using h
    have hneg : -n < 0 := Long.neg_lt_zero hn (by simpa using hzero)
    simp [negateNumber, pieces, hn, hneg]
  | double x =>
    have hx : x.isNegative = false := by simpa [isUnsigned] using h
    simp [negateNumber, pieces, hx, Double.isNegative_neg, Double.neg_neg]
  | _ => cases h

/-- A signed number is written as the sign and the number. -/
theorem Value.literal_negateNumber (hvalue : plain.Writable) (h : plain.isUnsigned)
    (hzero : plain ≠ .long 0) : (negateNumber plain).literal = "-" ++ plain.literal := by
  rw [← String.toList_inj, toList_literal (writable_negateNumber hvalue h),
    pieces_negateNumber h hzero, String.toList_append, toList_literal hvalue]
  rfl

namespace Expr

theorem precedence_of_isUnsigned (site : Site) (h : plain.isUnsigned) :
    precedence (.literal site plain) = atomPrecedence := by
  cases plain with
  | long n =>
    have hn : ¬ n < 0 := by simpa [Value.isUnsigned] using h
    rw [precedence, if_neg hn]
  | double x =>
    have hx : x.isNegative = false := by simpa [Value.isUnsigned] using h
    rw [precedence, hx, if_neg Bool.false_ne_true]
  | _ => cases h

theorem precedence_negateNumber (site : Site) (h : plain.isUnsigned) (hzero : plain ≠ .long 0) :
    precedence (.literal site (negateNumber plain)) = signPrecedence := by
  cases plain with
  | long n =>
    have hn : ¬ n < 0 := by simpa [Value.isUnsigned] using h
    rw [negateNumber, precedence, if_pos (Long.neg_lt_zero hn (by simpa using hzero))]
  | double x =>
    have hx : x.isNegative = false := by simpa [Value.isUnsigned] using h
    rw [negateNumber, precedence, Double.isNegative_neg, hx, Bool.not_false, if_pos rfl]
  | _ => cases h

/-- A minus sign before the integer zero. -/
def isNegatedZero : Expr → Bool
  | unary _ .negate (literal _ (.long n)) => n == 0
  | _ => false

/-- No minus sign stands before the integer zero. -/
def Steady (e : Expr) : Prop := ∀ n ∈ e.nodes, n.isNegatedZero = false

instance (e : Expr) : Decidable e.Steady := inferInstanceAs (Decidable (∀ n ∈ e.nodes, _))

theorem Steady.child {e child : Expr} (h : e.Steady) (hchild : child ∈ e.children) :
    child.Steady :=
  fun n hn => h n (mem_nodes_of_child hchild hn)

theorem Steady.isNegatedZero_eq {e : Expr} (h : e.Steady) : e.isNegatedZero = false := by
  apply h e
  rw [nodes_eq]
  exact List.mem_cons_self

theorem textItems_foldItems {items : List Expr} (h : ∀ e ∈ items, e.foldSigns.text = e.text) :
    textItems (foldItems items) = textItems items := by
  induction items with
  | nil => rfl
  | cons e rest ih =>
    rw [foldItems, textItems, textItems, h e (by simp), ih fun e he => h e (by simp [he])]

theorem textEntries_foldEntries {entries : List (String × Expr)}
    (h : ∀ entry ∈ entries, entry.2.foldSigns.text = entry.2.text) :
    textEntries (foldEntries entries) = textEntries entries := by
  induction entries with
  | nil => rfl
  | cons entry rest ih =>
    rw [foldEntries, textEntries, textEntries, h entry (by simp), ih fun e he => h e (by simp [he])]

theorem textArgs_foldEntries (named : Bool) {args : List (String × Expr)}
    (h : ∀ arg ∈ args, arg.2.foldSigns.text = arg.2.text) :
    textArgs named (foldEntries args) = textArgs named args := by
  induction args with
  | nil => rfl
  | cons arg rest ih =>
    rw [foldEntries, textArgs, textArgs, h arg (by simp), ih fun e he => h e (by simp [he])]

/-- A sign that becomes a part of its number is written as before. -/
theorem text_foldedSign {site : Site} {op : UnaryOp} {operand : Expr} {value : Value} {env : Env}
    (hfold : signedLiteral? (.unary site op operand) = some value) (hoperand : Accepted env operand)
    (hzero : isNegatedZero (.unary site op operand) = false) :
    precedence (.literal site value) = precedence (.unary site op operand) ∧
      text (.literal site value) = text (.unary site op operand) := by
  obtain ⟨literalSite, plain, rfl, rfl, hplain, rfl⟩ := signedLiteral?_eq_some hfold
  have hwritable : plain.Writable := by
    cases hoperand with
    | literal _ _ hvalue _ => exact hvalue
  have hne : plain ≠ .long 0 := by
    rintro rfl
    cases hzero
  refine ⟨precedence_negateNumber site hplain hne, ?_⟩
  rw [text, text, precedence_of_isUnsigned literalSite hplain, text,
    Value.literal_negateNumber hwritable hplain hne]
  rfl

/-- Folded signs do not show in the text. -/
theorem text_foldSigns {env : Env} {e : Expr} (h : Accepted env e) (hsteady : e.Steady) :
    e.foldSigns.precedence = e.precedence ∧ e.foldSigns.text = e.text := by
  induction h with
  | literal | var | field => exact ⟨by rw [foldSigns], by rw [foldSigns]⟩
  | array site items htype hitems ih =>
    have hitems := textItems_foldItems fun e he => (ih e he (hsteady.child he)).2
    rw [foldSigns, text, text, hitems]
    exact ⟨rfl, rfl⟩
  | map site entries htype hentries ih =>
    have hentries := textEntries_foldEntries fun entry hentry =>
      (ih entry hentry (hsteady.child (List.mem_map_of_mem hentry))).2
    rw [foldSigns, text, text, hentries]
    exact ⟨rfl, rfl⟩
  | access site object name htype hname hobject hclean ih =>
    obtain ⟨hprecedence, htext⟩ := ih (hsteady.child (by simp [children]))
    rw [foldSigns, text, text, hprecedence, htext]
    exact ⟨rfl, rfl⟩
  | index site object key htype hobject hkey hclean ih ihKey =>
    obtain ⟨hprecedence, htext⟩ := ih (hsteady.child (by simp [children]))
    have hkey := (ihKey (hsteady.child (by simp [children]))).2
    rw [foldSigns, text, text, hprecedence, htext, hkey]
    exact ⟨rfl, rfl⟩
  | not site operand htype hoperand hclean ih =>
    obtain ⟨hprecedence, htext⟩ := ih (hsteady.child (by simp [children]))
    have hnone : signedLiteral? (.unary site .not operand) = none := rfl
    rw [foldSigns, hnone]
    simp only [text, hprecedence, htext]
    exact ⟨rfl, trivial⟩
  | signed site op operand hop htype hoperand hclean ih =>
    obtain ⟨hprecedence, htext⟩ := ih (hsteady.child (by simp [children]))
    rw [foldSigns]
    cases hfold : signedLiteral? (.unary site op operand) with
    | some value => exact text_foldedSign hfold hoperand hsteady.isNegatedZero_eq
    | none =>
      cases op with
      | not => exact absurd rfl hop
      | negate | plus =>
        simp only [text, hprecedence, htext]
        exact ⟨rfl, trivial⟩
  | binary site op left right htype hleft hright hclean ihLeft ihRight =>
    obtain ⟨hprecedence, htext⟩ := ihLeft (hsteady.child (by simp [children]))
    obtain ⟨hprecedence', htext'⟩ := ihRight (hsteady.child (by simp [children]))
    rw [foldSigns, text, text, hprecedence, htext, hprecedence', htext']
    exact ⟨rfl, rfl⟩
  | call site name target args named hname hfind htype hargs hparams hnamed hbound hclean ih =>
    have hargs := textArgs_foldEntries named fun arg harg =>
      (ih arg harg (hsteady.child (List.mem_map_of_mem harg))).2
    rw [foldSigns, text, text, hargs]
    exact ⟨rfl, rfl⟩

theorem text_unplaced (e : Expr) : e.unplaced.text = e.text := by
  rw [unplaced_eq, text_relocate]

theorem Rereads.text_eq {env : Env} {found e : Expr} (h : found.Rereads e)
    (haccepted : Accepted env e) (hsteady : e.Steady) : found.text = e.text := by
  rw [← text_unplaced, h, text_unplaced, (text_foldSigns haccepted hsteady).2]

end Expr

end Signs

/-- No minus sign of a rule stands before the integer zero. -/
def Rule.Steady (r : Rule) : Prop := ∀ e ∈ r.expressions, e.Steady

instance (r : Rule) : Decidable r.Steady := inferInstanceAs (Decidable (∀ e ∈ r.expressions, _))

section Texts

variable {registry : Registry} {scope : Typing.Scope}

theorem Statement.Rereads.text_eq {found s : Statement} (h : found.Rereads s)
    (haccepted : s.Accepted registry scope) (hsteady : s.expression.Steady) :
    found.text = s.text := by
  have hexpression := haccepted.admits.accepted
  cases h with
  | perform h => rw [text, text, h.text_eq hexpression hsteady]
  | bind name type p q h => rw [text, text, h.text_eq hexpression hsteady]

theorem Statement.map_text_of_rereads {found ss : List Statement}
    (h : List.Forall₂ Rereads found ss) (haccepted : AllAccepted registry scope ss)
    (hsteady : ∀ s ∈ ss, s.expression.Steady) : found.map text = ss.map text := by
  induction h generalizing scope with
  | nil => rfl
  | cons hfirst hrest ih =>
    rw [List.map_cons, List.map_cons, hfirst.text_eq haccepted.1 (hsteady _ (by simp)),
      ih haccepted.2 fun s hs => hsteady s (by simp [hs])]

theorem Rule.Rereads.body_eq {found r : Rule} (h : found.Rereads r)
    (haccepted : r.Accepted registry) (hsteady : r.Steady) : found.body = r.body := by
  have hcondition := h.condition.text_eq haccepted.condition.accepted
    (hsteady r.condition (by simp [expressions]))
  have hstatements := Statement.map_text_of_rereads h.statements haccepted.statements
    fun s hs => hsteady s.expression (by simpa [expressions] using .inr ⟨s, hs, rfl⟩)
  have hlines (r : Rule) : r.statements.map (fun statement => "  " ++ statement.text ++ "\n") =
      (r.statements.map Statement.text).map fun text => "  " ++ text ++ "\n" := by
    rw [List.map_map]
    rfl
  rw [body, body, hcondition, hlines, hstatements, ← hlines]

theorem Stage.Rereads.text_eq {found s : Stage} (h : found.Rereads s) : found.text = s.text := by
  rw [text, text, h.number, h.policy, h.refs]

theorem Pipeline.Rereads.text_eq {found p : Pipeline} (h : found.Rereads p) :
    found.text = p.text := by
  rw [text, text, h.name, map_eq_of_forall₂ h.stages fun _ _ _ h => h.text_eq]

theorem Declaration.Rereads.text_eq {found d : Declaration} (h : found.Rereads d)
    (haccepted : d.Accepted registry) (hsteady : ∀ r, d = .rule r → r.Steady) :
    found.text = d.text := by
  cases h with
  | rule h =>
    have hbody := h.body_eq haccepted (hsteady _ rfl)
    rw [text, text, Rule.text, Rule.text, h.name, hbody]
  | pipeline h => exact h.text_eq

end Texts

namespace ParsedSource

variable {registry : Registry} {again parsed : ParsedSource}
  (h : List.Forall₂ Declaration.Rereads again.declarations parsed.declarations)
  (haccepted : ∀ d ∈ parsed.declarations, d.Accepted registry)
  (hsteady : ∀ r ∈ parsed.rules, r.Steady)

include h haccepted hsteady

theorem text_eq_of_rereads : again.text = parsed.text := by
  rw [text, text, map_eq_of_forall₂ h fun found d hd h => h.text_eq (haccepted d hd) ?_]
  rintro r rfl
  exact hsteady r (mem_rules.mpr hd)

theorem fingerprints_eq_of_rereads : again.rules.map (fun r => (r.name, r.fingerprint)) =
    parsed.rules.map (fun r => (r.name, r.fingerprint)) := by
  have hrules : List.Forall₂ Rule.Rereads again.rules parsed.rules := by
    refine List.rel_filterMap (fun found d hd => ?_) h
    cases hd with
    | rule h => exact .some h
    | pipeline h => exact .none
  refine map_eq_of_forall₂ hrules fun found r hr h => ?_
  have hbody := h.body_eq (haccepted _ (mem_rules.mp hr)) (hsteady r hr)
  rw [h.name, Rule.fingerprint, Rule.fingerprint, hbody]

end ParsedSource

/-- The end of the last line says nothing. -/
theorem parseSource_newline {source : String} {registry : Registry}
    (hclean : (parseSource source registry).isClean) :
    parseSource (source ++ "\n") registry = parseSource source registry := by
  obtain ⟨inner, hinner, hends⟩ := (Cursor.start source).scan_ends
  rw [← Cursor.tokenize_eq] at hinner
  obtain ⟨hscan, hparse⟩ := errors_of_isClean hclean
  obtain ⟨last, hlast, htokens⟩ : ∃ last : Token, last.lexeme = .eof ∧
      tokenize (source ++ "\n") = (inner ++ [last], []) := by
    have hempty : tokenize "" = ([⟨.eof, .start⟩], []) := by decide +kernel
    have happend := tokenize_append "" hinner hscan
    rw [String.append_empty, hempty] at happend
    exact ⟨_, rfl, happend⟩
  rw [hinner] at hparse
  obtain ⟨found, fuel, -, hfound, happend⟩ := Grammar.declarations_append hends rfl
    (List.cons_ne_nil last []) (by simp) (List.length_append ..).ge hparse
  have hend : declarations registry fuel [last] = ⟨[], [last], some []⟩ :=
    declarations_of_eof registry (show tokenAt 0 [last] = .eof from hlast) fuel
  rw [hend, Option.map_some, List.append_nil] at happend
  rw [← hinner] at hparse hfound
  simp only [parseSource, Parse.run, htokens, happend, hscan, hparse, hfound]

/-- The text that formatting a source gives. -/
def formatted (registry : Registry) (source : String) : String := (parseSource source registry).text

theorem Command.run_format {world : World} {path source : String}
    (hfile : world.file? path = some source)
    (hclean : (parseSource source world.registry).isClean) :
    (Request.format path).run world = ⟨[formatted world.registry source], none⟩ := by
  have hread : readSource world path = pure source := by rw [readSource, hfile]
  have hformat : runFormat world path = print (formatted world.registry source) := by
    rw [runFormat, hread, pure_bind, if_pos hclean, formatted]
  rw [Request.run, hformat]
  rfl

/-- Formatting is stable. Where every variable is bound under a plain name and no minus sign stands
before the integer zero, a formatted source that has no errors is not changed by formatting, nor are
the fingerprints of its rules. -/
theorem formatting_stable {source : String} {registry : Registry} (hfree : registry.Unreserved)
    (hclean : (parseSource source registry).isClean)
    (hplain : ∀ r ∈ (parseSource source registry).rules, ∀ s ∈ r.statements, s.isPlain)
    (hsteady : ∀ r ∈ (parseSource source registry).rules, r.Steady)
    (hagain : (parseSource (formatted registry source) registry).isClean) :
    formatted registry (formatted registry source) = formatted registry source ∧
      (parseSource (formatted registry source) registry).rules.map
          (fun r => (r.name, r.fingerprint)) =
        (parseSource source registry).rules.map (fun r => (r.name, r.fingerprint)) ∧
      ∀ (world : Command.World) (path : String), world.registry = registry →
        world.file? path = some (formatted registry source ++ "\n") →
        (Command.Request.format path).run world = ⟨[formatted registry source], none⟩ := by
  have hprintable := declarations_printable hfree hclean hplain
  have haccepted := fun d hd => (hprintable d hd).accepted
  have hreread := ParsedSource.text_reread hprintable hagain
  have htext := ParsedSource.text_eq_of_rereads hreread haccepted hsteady
  refine ⟨htext, ParsedSource.fingerprints_eq_of_rereads hreread haccepted hsteady, ?_⟩
  rintro world path rfl hfile
  have hnewline := parseSource_newline hagain
  have hclean' :
      (parseSource (formatted world.registry source ++ "\n") world.registry).isClean := by
    rw [hnewline]
    exact hagain
  calc (Command.Request.format path).run world
      = ⟨[formatted world.registry (formatted world.registry source ++ "\n")], none⟩ :=
        Command.run_format hfile hclean'
    _ = ⟨[(parseSource (formatted world.registry source) world.registry).text], none⟩ := by
        rw [formatted, hnewline]
    _ = ⟨[formatted world.registry source], none⟩ :=
        congrArg (fun text => Command.Outcome.mk [text] none) htext

def looseSource : String :=
  "rule \"loose\" when -(5) < 2 and not ($message.`a b` == -(0.0)) " ++
    "then let x = (-(7) * (1 + 2)); set_field(\"x\", -x) end " ++
    "pipeline \"p\" stage 0 match any rule \"loose\" stage -1 match all end"

def tidySource : String :=
  "rule \"loose\"\nwhen -5 < 2 and not $message.`a b` == -0.0\nthen\n  let x = -7 * (1 + 2);\n" ++
    "  set_field(\"x\", -x);\nend\n\n" ++
    "pipeline \"p\"\nstage -1 match all\nstage 0 match either\n  rule \"loose\";\nend"

/-- Signs, parentheses and the order of stages differ, and nothing is left for a second time. -/
theorem formatting_stable_looseSource :
    formatted (.builtin 0) looseSource = tidySource ∧
      formatted (.builtin 0) tidySource = tidySource ∧
      (parseSource tidySource (.builtin 0)).rules.map (fun r => (r.name, r.fingerprint)) =
        (parseSource looseSource (.builtin 0)).rules.map (fun r => (r.name, r.fingerprint)) ∧
      ∀ (world : Command.World) (path : String), world.registry = .builtin 0 →
        world.file? path = some (tidySource ++ "\n") →
        (Command.Request.format path).run world = ⟨[tidySource], none⟩ := by
  have hloose : (parseSource looseSource (.builtin 0)).isClean = true ∧
      formatted (.builtin 0) looseSource = tidySource ∧
      ∀ r ∈ (parseSource looseSource (.builtin 0)).rules,
        (∀ s ∈ r.statements, s.isPlain = true) ∧ r.Steady := by
    decide +kernel
  have htidy : (parseSource tidySource (.builtin 0)).isClean = true := by decide +kernel
  obtain ⟨hclean, hformatted, hrules⟩ := hloose
  have hstable := formatting_stable (Registry.unreserved_builtin 0) hclean
    (fun r hr => (hrules r hr).1) (fun r hr => (hrules r hr).2) (hformatted ▸ htidy)
  rw [hformatted] at hstable
  exact ⟨hformatted, hstable⟩

/-- Formatting a source gives another one without errors, and formatting that one changes the text
and the fingerprints of the rules once more. -/
def Unsettled (registry : Registry) (source : String) : Prop :=
  (parseSource source registry).isClean = true ∧
    (parseSource (formatted registry source) registry).isClean = true ∧
    formatted registry (formatted registry source) ≠ formatted registry source ∧
    (parseSource (formatted registry source) registry).rules.map Rule.fingerprint ≠
      (parseSource source registry).rules.map Rule.fingerprint

instance (registry : Registry) (source : String) : Decidable (Unsettled registry source) :=
  inferInstanceAs (Decidable (_ ∧ _))

def negatedZeroSource : String := "rule \"r\" when -(0) == 0 then end"

def crowdedNameSource : String := "rule \"r\" when true then let `x = 1; let y` = 2; end"

/-- A negated zero loses its sign when it is read back, and a quoted name that is written without
quotes can be read back as more than a name. -/
theorem formatting_unstable :
    Unsettled .empty negatedZeroSource ∧ Unsettled .empty crowdedNameSource := by
  decide +kernel

end LogRules
