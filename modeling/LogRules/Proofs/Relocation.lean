import LogRules.Eval
import LogRules.Grammar.Declaration
import LogRules.Proofs.Checks

/-!
The same tokens and trees at other places. Neither a static check nor evaluation looks at a place,
so what is built from moved parts is what is built from the parts, moved.
-/
namespace LogRules

def Token.relocate (move : Position → Position) (t : Token) : Token := ⟨t.lexeme, move t.position⟩

def Diagnostic.relocate (move : Position → Position) (d : Diagnostic) : Diagnostic :=
  ⟨move d.position, d.problem⟩

def Site.relocate (move : Position → Position) (site : Site) : Site :=
  ⟨site.type, move site.position⟩

namespace Expr

mutual

def relocate (move : Position → Position) : Expr → Expr
  | literal site value => literal (site.relocate move) value
  | array site items => array (site.relocate move) (relocateItems move items)
  | map site entries => map (site.relocate move) (relocateEntries move entries)
  | var site name => var (site.relocate move) name
  | field site name => field (site.relocate move) name
  | access site object name => access (site.relocate move) (relocate move object) name
  | index site object key => index (site.relocate move) (relocate move object) (relocate move key)
  | unary site op operand => unary (site.relocate move) op (relocate move operand)
  | binary site op left right =>
    binary (site.relocate move) op (relocate move left) (relocate move right)
  | call site name target args named resolved =>
    call (site.relocate move) name target (relocateEntries move args) named resolved

def relocateItems (move : Position → Position) : List Expr → List Expr
  | [] => []
  | e :: rest => relocate move e :: relocateItems move rest

def relocateEntries (move : Position → Position) : List (String × Expr) → List (String × Expr)
  | [] => []
  | (key, e) :: rest => (key, relocate move e) :: relocateEntries move rest

end

section Relocation

variable (move : Position → Position)

theorem relocateItems_eq (items : List Expr) :
    relocateItems move items = items.map (relocate move) := by
  induction items with
  | nil => rfl
  | cons e rest ih => rw [relocateItems, ih, List.map_cons]

theorem relocateEntries_eq (entries : List (String × Expr)) :
    relocateEntries move entries = Typing.mapArgs (relocate move) entries := by
  induction entries with
  | nil => rfl
  | cons entry rest ih => rw [relocateEntries, ih, Typing.mapArgs, Typing.mapArgs, List.map_cons]

theorem site_relocate (e : Expr) : (e.relocate move).site = e.site.relocate move := by
  cases e <;> rw [relocate] <;> rfl

@[simp] theorem type_relocate (e : Expr) : (e.relocate move).type = e.type := by
  rw [type, site_relocate]
  rfl

@[simp] theorem position_relocate (e : Expr) : (e.relocate move).position = move e.position := by
  rw [position, site_relocate]
  rfl

@[simp] theorem isCall_relocate (e : Expr) : (e.relocate move).isCall = e.isCall := by
  cases e <;> rw [relocate] <;> rfl

theorem relocate_moveTo (p : Position) (e : Expr) :
    (e.moveTo p).relocate move = (e.relocate move).moveTo (move p) := by
  cases e <;> rw [moveTo, relocate, relocate, moveTo] <;> rfl

theorem relocate_ofValue (p : Position) (value : Value) :
    (ofValue p value).relocate move = ofValue (move p) value := by
  rw [ofValue, relocate]
  rfl

mutual

@[simp] theorem depth_relocate : ∀ e : Expr, (e.relocate move).depth = e.depth
  | literal _ _ | var _ _ | field _ _ => by simp only [relocate, depth]
  | array _ items => by simp only [relocate, depth, depthItems_relocate items]
  | map _ entries => by simp only [relocate, depth, depthEntries_relocate entries]
  | access _ object _ => by simp only [relocate, depth, depth_relocate object]
  | index _ object key => by
    simp only [relocate, depth, depth_relocate object, depth_relocate key]
  | unary _ _ operand => by simp only [relocate, depth, depth_relocate operand]
  | binary _ _ left right => by
    simp only [relocate, depth, depth_relocate left, depth_relocate right]
  | call _ _ _ args _ _ => by simp only [relocate, depth, depthEntries_relocate args]

theorem depthItems_relocate :
    ∀ items, depthItems (relocateItems move items) = depthItems items
  | [] => rfl
  | e :: rest => by
    simp only [relocateItems, depthItems, depth_relocate e, depthItems_relocate rest]

theorem depthEntries_relocate :
    ∀ entries, depthEntries (relocateEntries move entries) = depthEntries entries
  | [] => rfl
  | (_, e) :: rest => by
    simp only [relocateEntries, depthEntries, depth_relocate e, depthEntries_relocate rest]

end

theorem eval_binary_congr {site site' : Site} (op : BinaryOp) {left left' right right' : Expr}
    (hl : left.eval = left'.eval) (hr : right.eval = right'.eval) :
    eval (.binary site op left right) = eval (.binary site' op left' right') := by
  cases op <;> simp only [eval, hl, hr]

mutual

/-- Evaluation does not look at places. -/
@[simp] theorem eval_relocate : ∀ e : Expr, (e.relocate move).eval = e.eval
  | literal _ _ | var _ _ | field _ _ => by simp only [relocate, eval]
  | array _ items => by simp only [relocate, eval, evalItems_relocate items]
  | map _ entries => by simp only [relocate, eval, evalEntries_relocate entries]
  | access _ object _ => by simp only [relocate, eval, eval_relocate object]
  | index _ object key => by simp only [relocate, eval, eval_relocate object, eval_relocate key]
  | unary _ _ operand => by simp only [relocate, eval, eval_relocate operand]
  | binary _ op left right => by
    rw [relocate]
    exact eval_binary_congr op (eval_relocate left) (eval_relocate right)
  | call _ _ _ args _ _ => by simp only [relocate, eval, evalEntries_relocate args]

theorem evalItems_relocate : ∀ items, evalItems (relocateItems move items) = evalItems items
  | [] => rfl
  | e :: rest => by
    simp only [relocateItems, evalItems, eval_relocate e, evalItems_relocate rest]

theorem evalEntries_relocate :
    ∀ entries, evalEntries (relocateEntries move entries) = evalEntries entries
  | [] => rfl
  | (_, e) :: rest => by
    simp only [relocateEntries, evalEntries, eval_relocate e, evalEntries_relocate rest]

end

theorem precedence_relocate (e : Expr) : (e.relocate move).precedence = e.precedence := by
  cases e with
  | literal site value => cases value <;> rw [relocate] <;> rfl
  | unary site op operand => cases op <;> rw [relocate] <;> rfl
  | _ => rw [relocate]; rfl

mutual

@[simp] theorem text_relocate : ∀ e : Expr, (e.relocate move).text = e.text
  | literal _ _ | var _ _ | field _ _ => by simp only [relocate, text]
  | array _ items => by simp only [relocate, text, textItems_relocate items]
  | map _ entries => by simp only [relocate, text, textEntries_relocate entries]
  | access _ object _ => by
    simp only [relocate, text, precedence_relocate, text_relocate object]
  | index _ object key => by
    simp only [relocate, text, precedence_relocate, text_relocate object, text_relocate key]
  | unary _ op operand => by
    cases op <;> simp only [relocate, text, precedence_relocate, text_relocate operand]
  | binary _ _ left right => by
    simp only [relocate, text, precedence_relocate, text_relocate left, text_relocate right]
  | call _ _ _ args named _ => by simp only [relocate, text, textArgs_relocate named args]

theorem textItems_relocate : ∀ items, textItems (relocateItems move items) = textItems items
  | [] => rfl
  | e :: rest => by
    simp only [relocateItems, textItems, text_relocate e, textItems_relocate rest]

theorem textEntries_relocate :
    ∀ entries, textEntries (relocateEntries move entries) = textEntries entries
  | [] => rfl
  | (_, e) :: rest => by
    simp only [relocateEntries, textEntries, text_relocate e, textEntries_relocate rest]

theorem textArgs_relocate (named : Bool) :
    ∀ args, textArgs named (relocateEntries move args) = textArgs named args
  | [] => rfl
  | (_, e) :: rest => by
    simp only [relocateEntries, textArgs, text_relocate e, textArgs_relocate named rest]

end

end Relocation

mutual

theorem relocate_id : ∀ e : Expr, e.relocate id = e
  | literal _ _ | var _ _ | field _ _ => by rw [relocate]; rfl
  | array _ items => by rw [relocate, relocateItems_id items]; rfl
  | map _ entries => by rw [relocate, relocateEntries_id entries]; rfl
  | access _ object _ => by rw [relocate, relocate_id object]; rfl
  | index _ object key => by rw [relocate, relocate_id object, relocate_id key]; rfl
  | unary _ _ operand => by rw [relocate, relocate_id operand]; rfl
  | binary _ _ left right => by rw [relocate, relocate_id left, relocate_id right]; rfl
  | call _ _ _ args _ _ => by rw [relocate, relocateEntries_id args]; rfl

theorem relocateItems_id : ∀ items, relocateItems id items = items
  | [] => rfl
  | e :: rest => by rw [relocateItems, relocate_id e, relocateItems_id rest]

theorem relocateEntries_id : ∀ entries, relocateEntries id entries = entries
  | [] => rfl
  | (_, e) :: rest => by rw [relocateEntries, relocate_id e, relocateEntries_id rest]

end

end Expr

def Checked.relocate (move : Position → Position) (checked : Checked) : Checked :=
  ⟨checked.expr.relocate move, checked.errors.map (Diagnostic.relocate move)⟩

def Statement.relocate (move : Position → Position) : Statement → Statement
  | perform e => perform (e.relocate move)
  | bind name type value position => bind name type (value.relocate move) (move position)

def Rule.relocate (move : Position → Position) (r : Rule) : Rule :=
  ⟨r.name, r.condition.relocate move, r.statements.map (Statement.relocate move), move r.position⟩

def Stage.relocate (move : Position → Position) (s : Stage) : Stage :=
  { s with rules := s.rules.map (Rule.relocate move), position := move s.position }

def Pipeline.relocate (move : Position → Position) (p : Pipeline) : Pipeline :=
  ⟨p.name, p.stages.map (Stage.relocate move), move p.position⟩

def Declaration.relocate (move : Position → Position) : Declaration → Declaration
  | rule r => rule (r.relocate move)
  | pipeline p => pipeline (p.relocate move)

theorem Statement.text_relocate (move : Position → Position) (s : Statement) :
    (s.relocate move).text = s.text := by
  cases s <;> simp only [relocate, text, Expr.text_relocate]

@[simp] theorem Rule.body_relocate (move : Position → Position) (r : Rule) :
    (r.relocate move).body = r.body := by
  simp [relocate, body, Function.comp_def, Statement.text_relocate]

theorem Rule.text_relocate (move : Position → Position) (r : Rule) :
    (r.relocate move).text = r.text := by
  rw [text, text, body_relocate, relocate]

@[simp] theorem Stage.number_relocate (move : Position → Position) (s : Stage) :
    (s.relocate move).number = s.number := by
  rw [relocate]

@[simp] theorem Stage.position_relocate (move : Position → Position) (s : Stage) :
    (s.relocate move).position = move s.position := by
  rw [relocate]

theorem Token.relocate_id (t : Token) : t.relocate id = t := rfl

theorem Statement.relocate_id (s : Statement) : s.relocate id = s := by
  cases s with
  | perform e => rw [relocate, Expr.relocate_id]
  | bind name type value position =>
    rw [relocate, Expr.relocate_id]
    rfl

theorem Rule.relocate_id (r : Rule) : r.relocate id = r := by
  have hstatements : r.statements.map (Statement.relocate id) = r.statements :=
    List.map_id'' Statement.relocate_id _
  rw [relocate, Expr.relocate_id, hstatements]
  rfl

theorem Stage.relocate_id (s : Stage) : s.relocate id = s := by
  rw [relocate, List.map_id'' Rule.relocate_id]
  rfl

theorem Pipeline.relocate_id (p : Pipeline) : p.relocate id = p := by
  rw [relocate, List.map_id'' Stage.relocate_id]
  rfl

theorem Declaration.relocate_id (d : Declaration) : d.relocate id = d := by
  cases d with
  | rule r => rw [relocate, Rule.relocate_id]
  | pipeline p => rw [relocate, Pipeline.relocate_id]

namespace Typing

variable (move : Position → Position)

section Operators

variable (left right operand : Expr) (p : Position)

@[simp] theorem relocate_fault (problem : Problem) :
    (fault p problem).map (Diagnostic.relocate move) = fault (move p) problem :=
  rfl

theorem checkBoolean_relocate (e : Expr) :
    checkBoolean (e.relocate move) = (checkBoolean e).map (Diagnostic.relocate move) := by
  simp only [checkBoolean, Expr.type_relocate, Expr.position_relocate]
  split <;> rfl

theorem binary_relocate (type : ValueType) (op : BinaryOp) :
    binary type op (left.relocate move) (right.relocate move) =
      (binary type op left right).relocate move := by
  simp only [binary, Expr.position_relocate, Expr.relocate]
  rfl

theorem comparisonErrors_relocate (op : BinaryOp) (a b : ValueType) :
    comparisonErrors op a b (move p) =
      (comparisonErrors op a b p).map (Diagnostic.relocate move) := by
  simp only [comparisonErrors]
  split_ifs <;> rfl

theorem arithmeticErrors_relocate (op : BinaryOp) (a b : ValueType) :
    arithmeticErrors op a b (move p) =
      (arithmeticErrors op a b p).map (Diagnostic.relocate move) := by
  simp only [arithmeticErrors]
  split_ifs <;> rfl

theorem join_relocate (op : BinaryOp) :
    join op (left.relocate move) (right.relocate move) (move p) =
      (join op left right p).relocate move := by
  simp only [join]
  split_ifs
  · simp only [comparison, Checked.relocate, Expr.type_relocate, binary_relocate,
      comparisonErrors_relocate]
  · simp only [arithmetic, Checked.relocate, Expr.type_relocate, binary_relocate,
      arithmeticErrors_relocate]
  · simp only [logical, Checked.relocate, binary_relocate, checkBoolean_relocate, List.map_append]

theorem negation_relocate :
    negation (move p) (operand.relocate move) = (negation p operand).relocate move := by
  simp only [negation, Checked.relocate, checkBoolean_relocate, Expr.relocate]
  rfl

theorem signed_relocate (op : UnaryOp) :
    signed op (move p) (operand.relocate move) = (signed op p operand).relocate move := by
  simp only [signed, Checked.relocate, Expr.type_relocate, Expr.relocate, Checked.mk.injEq]
  refine ⟨rfl, ?_⟩
  split_ifs <;> rfl

theorem access_relocate (name : String) :
    access (operand.relocate move) name (move p) = (access operand name p).relocate move := by
  simp only [access, Checked.relocate, Expr.type_relocate, Expr.position_relocate, Expr.relocate,
    Checked.mk.injEq]
  refine ⟨rfl, ?_⟩
  split_ifs <;> rfl

theorem indexErrors_relocate (object : ValueType) (key : Expr) :
    indexErrors object (key.relocate move) (move p) =
      (indexErrors object key p).map (Diagnostic.relocate move) := by
  simp only [indexErrors, Expr.type_relocate, Expr.position_relocate]
  split
  · rfl
  · split_ifs <;> rfl
  · split_ifs <;> rfl
  · rfl

theorem index_relocate :
    index (left.relocate move) (right.relocate move) (move p) =
      (index left right p).relocate move := by
  simp only [index, Checked.relocate, Expr.type_relocate, Expr.position_relocate, Expr.relocate,
    indexErrors_relocate]
  rfl

theorem variableIn_relocate (scope : Scope) (name : String) :
    variableIn scope name (move p) = (variableIn scope name p).relocate move := by
  simp only [variableIn]
  split <;> simp only [Checked.relocate, Expr.relocate] <;> rfl

end Operators

section Calls

variable (name : String) (d : Descriptor) (args : List (String × Expr)) (raw : List RawArg)
  (inCondition : Bool) (p : Position)

theorem namedErrors_relocate :
    namedErrors name d (mapArgs (Expr.relocate move) args) (move p) =
      (namedErrors name d args p).map (Diagnostic.relocate move) := by
  have hnames (param : String) :
      (mapArgs (Expr.relocate move) args).any (·.1 == param) = args.any (·.1 == param) := by
    rw [mapArgs, List.any_map]
    rfl
  simp only [namedErrors, List.map_append, List.map_flatMap, hnames]
  congr 1
  · rw [mapArgs, List.flatMap_map]
    refine List.flatMap_congr fun entry _ => ?_
    simp only [Expr.position_relocate]
    split_ifs <;> rfl
  · refine List.flatMap_congr fun param _ => ?_
    split_ifs <;> rfl

theorem placeErrors_relocate (given : Nat) :
    placeErrors name d given (move p) =
      (placeErrors name d given p).map (Diagnostic.relocate move) := by
  simp only [placeErrors]
  split_ifs <;> rfl

theorem argumentErrors_relocate :
    argumentErrors name d (mapArgs (Expr.relocate move) args) =
      (argumentErrors name d args).map (Diagnostic.relocate move) := by
  simp only [argumentErrors, List.map_flatMap, mapArgs, List.flatMap_map]
  refine List.flatMap_congr fun entry _ => ?_
  simp only [Expr.type_relocate, Expr.position_relocate]
  split
  · rfl
  · split_ifs <;> rfl

theorem effectErrors_relocate :
    effectErrors name d inCondition (move p) =
      (effectErrors name d inCondition p).map (Diagnostic.relocate move) := by
  simp only [effectErrors]
  split_ifs <;> rfl

theorem mixedErrors_relocate :
    mixedErrors name (raw.map (RawArg.mapValue (Expr.relocate move))) (move p) =
      (mixedErrors name raw p).map (Diagnostic.relocate move) := by
  have hcount : (raw.map (RawArg.mapValue (Expr.relocate move))).countP (·.name.isSome) =
      raw.countP (·.name.isSome) := by
    rw [List.countP_map]
    rfl
  rw [mixedErrors, mixedErrors, isNamed_mapValue, hcount, List.length_map]
  split_ifs <;> rfl

theorem bindingErrors_relocate (f : Function) :
    bindingErrors name f (raw.map (RawArg.mapValue (Expr.relocate move))) (move p) =
      (bindingErrors name f raw p).map (Diagnostic.relocate move) := by
  rw [bindingErrors, bindingErrors, isNamed_mapValue, boundArgs_mapValue, List.length_map,
    namedErrors_relocate, placeErrors_relocate]
  split_ifs <;> rfl

theorem call_relocate (registry : Registry) :
    call registry inCondition name (raw.map (RawArg.mapValue (Expr.relocate move))) (move p) =
      (call registry inCondition name raw p).relocate move := by
  cases hfind : registry.find? name with
  | none =>
    simp only [call_of_unknown _ hfind, Checked.relocate, Expr.relocate, nameArgs_mapValue,
      isNamed_mapValue, mixedErrors_relocate, Expr.relocateEntries_eq, List.map_append,
      relocate_fault]
    rfl
  | some f =>
    have hexpr : (call registry inCondition name (raw.map (RawArg.mapValue (Expr.relocate move)))
        (move p)).expr = (call registry inCondition name raw p).expr.relocate move := by
      rw [call_expr _ hfind, call_expr _ hfind, Expr.relocate, Expr.relocateEntries_eq,
        boundArgs_mapValue, isNamed_mapValue]
      rfl
    have herrors : (call registry inCondition name (raw.map (RawArg.mapValue (Expr.relocate move)))
        (move p)).errors =
          (call registry inCondition name raw p).errors.map (Diagnostic.relocate move) := by
      rw [call_errors _ hfind, call_errors _ hfind, boundArgs_mapValue, mixedErrors_relocate,
        bindingErrors_relocate, argumentErrors_relocate, effectErrors_relocate]
      simp only [List.map_append]
    rw [Checked.relocate, ← hexpr, ← herrors]

end Calls

end Typing

end LogRules
