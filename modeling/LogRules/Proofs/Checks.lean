import LogRules.Grammar.Typing
import Mathlib.Data.List.Basic
import Mathlib.Tactic.SplitIfs
import Mathlib.Tactic.Tauto

/-!
Static checks look at the types of the parts of a construct and at nothing else. So a construct
whose parts are exchanged for others of the same types stays free of errors.
-/
namespace LogRules.Typing

theorem fault_ne_nil (p : Position) (problem : Problem) : fault p problem ≠ [] := by simp [fault]

/-- How an operator joins its operands. -/
def join (op : BinaryOp) (left right : Expr) (p : Position) : Checked :=
  if op.isComparison then comparison op left right p
  else if op.isArithmetic then arithmetic op left right p
  else logical op left right

section Operators

variable {left left' right right' operand operand' : Expr} (p p' : Position)

theorem checkBoolean_eq_nil {e : Expr} :
    checkBoolean e = [] ↔ ValueType.accepts .boolean e.type = true := by
  rw [checkBoolean]
  split <;> simp_all [fault]

theorem checkBoolean_congr (h : operand.type = operand'.type) :
    checkBoolean operand = [] ↔ checkBoolean operand' = [] := by
  rw [checkBoolean_eq_nil, checkBoolean_eq_nil, h]

theorem comparisonErrors_congr (op : BinaryOp) (a b : ValueType) :
    comparisonErrors op a b p = [] ↔ comparisonErrors op a b p' = [] := by
  simp only [comparisonErrors]
  split_ifs <;> simp [fault]

theorem arithmeticErrors_congr (op : BinaryOp) (a b : ValueType) :
    arithmeticErrors op a b p = [] ↔ arithmeticErrors op a b p' = [] := by
  simp only [arithmeticErrors]
  split_ifs <;> simp [fault]

theorem join_congr (op : BinaryOp) (hl : left.type = left'.type) (hr : right.type = right'.type) :
    (join op left right p).errors = [] ↔ (join op left' right' p').errors = [] := by
  simp only [join]
  split_ifs
  · simp only [comparison, hl, hr]
    exact comparisonErrors_congr p p' op _ _
  · simp only [arithmetic, hl, hr]
    exact arithmeticErrors_congr p p' op _ _
  · simp only [logical, List.append_eq_nil_iff, checkBoolean_congr hl, checkBoolean_congr hr]

/-- The type of a joined node depends on the types of the operands. -/
def joinType (op : BinaryOp) (a b : ValueType) : ValueType :=
  if op.isArithmetic then arithmeticType op a b else .boolean

theorem join_expr (op : BinaryOp) :
    (join op left right p).expr = binary (joinType op left.type right.type) op left right := by
  cases op <;> rfl

theorem negation_congr (h : operand.type = operand'.type) :
    (negation p operand).errors = [] ↔ (negation p' operand').errors = [] :=
  checkBoolean_congr h

theorem signed_congr (op : UnaryOp) (h : operand.type = operand'.type) :
    (signed op p operand).errors = [] ↔ (signed op p' operand').errors = [] := by
  simp only [signed, h]
  split_ifs <;> simp [fault]

theorem access_congr (name : String) (h : left.type = left'.type) :
    (access left name p).errors = [] ↔ (access left' name p').errors = [] := by
  simp only [access, h]
  split_ifs <;> simp [fault]

theorem index_congr (hl : left.type = left'.type) (hr : right.type = right'.type) :
    (index left right p).errors = [] ↔ (index left' right' p').errors = [] := by
  simp only [index, indexErrors, hl, hr]
  split
  · rfl
  · split_ifs <;> simp [fault]
  · split_ifs <;> simp [fault]
  · simp [fault]

end Operators

/-- The same argument with another value. -/
def RawArg.mapValue (g : Expr → Expr) (arg : RawArg) : RawArg := ⟨arg.name, g arg.value⟩

/-- Bound arguments with other values. -/
def mapArgs (g : Expr → Expr) (args : List (String × Expr)) : List (String × Expr) :=
  args.map fun entry => (entry.1, g entry.2)

/-- Whether a call is written with names. -/
def isNamed (raw : List RawArg) : Bool := 0 < raw.countP (·.name.isSome)

/-- The arguments of a call as they are bound. -/
def boundArgs (f : Function) (raw : List RawArg) : List (String × Expr) :=
  if isNamed raw then nameArgs 0 raw else placeArgs f.descriptor.params 0 raw

/-- The arguments of a call as they were written. -/
def rawArgs (named : Bool) (args : List (String × Expr)) : List RawArg :=
  args.map fun entry => ⟨if named then some entry.1 else none, entry.2⟩

theorem values_nameArgs (place : Nat) (raw : List RawArg) :
    (nameArgs place raw).map (·.2) = raw.map (·.value) := by
  induction raw generalizing place with
  | nil => rfl
  | cons arg rest ih => rw [nameArgs, List.map_cons, ih, List.map_cons]

theorem values_placeArgs (params : List Parameter) (place : Nat) (raw : List RawArg) :
    (placeArgs params place raw).map (·.2) = raw.map (·.value) := by
  induction raw generalizing place with
  | nil => rfl
  | cons arg rest ih => rw [placeArgs, List.map_cons, ih, List.map_cons]

section Calls

variable {registry : Registry} {inCondition : Bool} {name : String} {raw : List RawArg}
  {f : Function} (p p' : Position)

theorem call_expr (h : registry.find? name = some f) :
    (call registry inCondition name raw p).expr =
      .call ⟨f.descriptor.returns, p⟩ name f (boundArgs f raw) (isNamed raw) true := by
  simp only [call, h, knownCall, boundArgs, isNamed, decide_eq_true_eq]

/-- A call keeps its name and the values that it was written with, whatever is wrong with it. -/
theorem exists_call_expr : ∃ site target args named resolved,
    (call registry inCondition name raw p).expr = .call site name target args named resolved ∧
      args.map (·.2) = raw.map (·.value) := by
  cases hfind : registry.find? name with
  | none =>
    refine ⟨⟨.any, p⟩, .unresolved, nameArgs 0 raw, isNamed raw, false, ?_, values_nameArgs 0 raw⟩
    simp only [call, hfind, unknownCall, isNamed]
  | some f =>
    refine ⟨_, _, boundArgs f raw, _, _, call_expr p hfind, ?_⟩
    rw [boundArgs]
    split
    exacts [values_nameArgs 0 raw, values_placeArgs f.descriptor.params 0 raw]

theorem find?_of_call (h : (call registry inCondition name raw p).errors = []) :
    ∃ f, registry.find? name = some f := by
  cases hfind : registry.find? name with
  | some f => exact ⟨f, rfl⟩
  | none => simp [call, hfind, unknownCall, fault] at h

theorem isNamed_mapValue (g : Expr → Expr) :
    isNamed (raw.map (RawArg.mapValue g)) = isNamed raw := by
  rw [isNamed, isNamed, List.countP_map]
  rfl

theorem nameArgs_mapValue (g : Expr → Expr) (place : Nat) (raw : List RawArg) :
    nameArgs place (raw.map (RawArg.mapValue g)) = mapArgs g (nameArgs place raw) := by
  induction raw generalizing place with
  | nil => rfl
  | cons arg rest ih =>
    rw [List.map_cons, nameArgs, nameArgs, ih]
    rfl

theorem placeArgs_mapValue (g : Expr → Expr) (params : List Parameter) (place : Nat)
    (raw : List RawArg) :
    placeArgs params place (raw.map (RawArg.mapValue g)) =
      mapArgs g (placeArgs params place raw) := by
  induction raw generalizing place with
  | nil => rfl
  | cons arg rest ih =>
    rw [List.map_cons, placeArgs, placeArgs, ih]
    rfl

theorem boundArgs_mapValue (g : Expr → Expr) :
    boundArgs f (raw.map (RawArg.mapValue g)) = mapArgs g (boundArgs f raw) := by
  rw [boundArgs, boundArgs, isNamed_mapValue, nameArgs_mapValue, placeArgs_mapValue]
  split <;> rfl

theorem flatMap_mapArgs_eq_nil {check check' : String × Expr → List Diagnostic} {g : Expr → Expr}
    (h : ∀ entry, check' (entry.1, g entry.2) = [] ↔ check entry = [])
    (args : List (String × Expr)) :
    (mapArgs g args).flatMap check' = [] ↔ args.flatMap check = [] := by
  simp only [mapArgs, List.flatMap_map, List.flatMap_eq_nil_iff, h]

theorem namedErrors_mapArgs (d : Descriptor) (g : Expr → Expr) (args : List (String × Expr)) :
    namedErrors name d (mapArgs g args) p' = [] ↔ namedErrors name d args p = [] := by
  have hnames (param : String) : (mapArgs g args).any (·.1 == param) = args.any (·.1 == param) := by
    rw [mapArgs, List.any_map]
    rfl
  rw [namedErrors, namedErrors, List.append_eq_nil_iff, List.append_eq_nil_iff]
  refine and_congr (flatMap_mapArgs_eq_nil (fun entry => ?_) args) ?_
  · simp only
    split_ifs <;> simp [fault]
  · simp only [List.flatMap_eq_nil_iff, hnames]
    refine forall₂_congr fun param _ => ?_
    split_ifs <;> simp [fault]

theorem placeErrors_congr (d : Descriptor) (given : Nat) :
    placeErrors name d given p' = [] ↔ placeErrors name d given p = [] := by
  simp only [placeErrors]
  split_ifs <;> simp [fault]

theorem argumentErrors_mapArgs (d : Descriptor) {g : Expr → Expr} (hg : ∀ e, (g e).type = e.type)
    (args : List (String × Expr)) :
    argumentErrors name d (mapArgs g args) = [] ↔ argumentErrors name d args = [] := by
  refine flatMap_mapArgs_eq_nil (fun entry => ?_) args
  simp only [hg]
  split
  · rfl
  · split_ifs <;> simp [fault]

theorem effectErrors_congr (d : Descriptor) :
    effectErrors name d inCondition p' = [] ↔ effectErrors name d inCondition p = [] := by
  simp only [effectErrors]
  split_ifs <;> simp [fault]

/-- What is wrong with names before some of the arguments only. -/
def mixedErrors (name : String) (raw : List RawArg) (p : Position) : List Diagnostic :=
  if isNamed raw ∧ raw.countP (·.name.isSome) ≠ raw.length then
    fault p (.syntactic s!"function '{name}' mixes positional and named arguments")
  else []

/-- What is wrong with the names or the number of the arguments. -/
def bindingErrors (name : String) (f : Function) (raw : List RawArg) (p : Position) :
    List Diagnostic :=
  if isNamed raw then namedErrors name f.descriptor (boundArgs f raw) p
  else placeErrors name f.descriptor raw.length p

theorem call_errors (h : registry.find? name = some f) :
    (call registry inCondition name raw p).errors =
      mixedErrors name raw p ++ (bindingErrors name f raw p ++
        argumentErrors name f.descriptor (boundArgs f raw) ++
        effectErrors name f.descriptor inCondition p) := by
  simp only [call, h, knownCall, mixedErrors, bindingErrors, boundArgs, isNamed, decide_eq_true_eq]

theorem call_of_unknown (h : registry.find? name = none) :
    call registry inCondition name raw p =
      ⟨.call ⟨.any, p⟩ name .unresolved (nameArgs 0 raw) (isNamed raw) false,
        mixedErrors name raw p ++ fault p (.undeclaredFunction name)⟩ := by
  simp only [call, h, unknownCall, mixedErrors, isNamed, decide_eq_true_eq]

theorem mixedErrors_mapValue (g : Expr → Expr) :
    mixedErrors name (raw.map (RawArg.mapValue g)) p' = [] ↔ mixedErrors name raw p = [] := by
  have hcount : (raw.map (RawArg.mapValue g)).countP (·.name.isSome) =
      raw.countP (·.name.isSome) := by
    rw [List.countP_map]
    rfl
  rw [mixedErrors, mixedErrors, isNamed_mapValue, hcount, List.length_map]
  split_ifs
  · simp only [fault_ne_nil]
  · rfl

theorem bindingErrors_mapValue (g : Expr → Expr) :
    bindingErrors name f (raw.map (RawArg.mapValue g)) p' = [] ↔
      bindingErrors name f raw p = [] := by
  rw [bindingErrors, bindingErrors, isNamed_mapValue, boundArgs_mapValue, List.length_map]
  split_ifs
  · exact namedErrors_mapArgs p p' f.descriptor g _
  · exact placeErrors_congr p p' f.descriptor _

/-- A call keeps its errors when its arguments are exchanged for others of the same types. -/
theorem call_mapValue {g : Expr → Expr} (hg : ∀ e, (g e).type = e.type)
    (h : registry.find? name = some f) :
    (call registry inCondition name (raw.map (RawArg.mapValue g)) p').errors = [] ↔
      (call registry inCondition name raw p).errors = [] := by
  simp only [call_errors _ h, List.append_eq_nil_iff, mixedErrors_mapValue p p',
    bindingErrors_mapValue p p', boundArgs_mapValue, argumentErrors_mapArgs f.descriptor hg,
    effectErrors_congr p p']

theorem call_congr (h : registry.find? name = some f) :
    (call registry inCondition name raw p').errors = [] ↔
      (call registry inCondition name raw p).errors = [] := by
  have hid : raw.map (RawArg.mapValue id) = raw := List.map_id' raw
  rw [← call_mapValue p p' (g := id) (fun _ => rfl) h, hid]

theorem rawArgs_nameArgs (h : raw.countP (·.name.isSome) = raw.length) (place : Nat) :
    rawArgs true (nameArgs place raw) = raw := by
  induction raw generalizing place with
  | nil => rfl
  | cons arg rest ih =>
    have hall := List.countP_eq_length.mp h
    obtain ⟨param, hparam⟩ := Option.isSome_iff_exists.mp (hall arg (by simp))
    have hrest := ih (List.countP_eq_length.mpr fun a ha => hall a (by simp [ha])) (place + 1)
    rw [nameArgs, rawArgs, List.map_cons, ← rawArgs, hrest, hparam]
    cases arg
    simp_all

theorem rawArgs_placeArgs (h : raw.countP (·.name.isSome) = 0) (params : List Parameter)
    (place : Nat) : rawArgs false (placeArgs params place raw) = raw := by
  induction raw generalizing place with
  | nil => rfl
  | cons arg rest ih =>
    have hall := List.countP_eq_zero.mp h
    have harg : arg.name = none := by simpa using hall arg (by simp)
    have hrest := ih (List.countP_eq_zero.mpr fun a ha => hall a (by simp [ha])) (place + 1)
    rw [placeArgs, rawArgs, List.map_cons, ← rawArgs, hrest]
    cases arg
    simp_all

/-- The arguments of a call without errors can be taken back from the way they are bound. -/
theorem rawArgs_boundArgs (h : mixedErrors name raw p = []) :
    rawArgs (isNamed raw) (boundArgs f raw) = raw := by
  rw [mixedErrors] at h
  rw [boundArgs]
  cases hnamed : isNamed raw with
  | true =>
    have hcount : raw.countP (·.name.isSome) = raw.length := by
      by_contra hne
      simp [hnamed, hne, fault] at h
    exact rawArgs_nameArgs hcount 0
  | false =>
    have hcount : raw.countP (·.name.isSome) = 0 := by simpa [isNamed] using hnamed
    simpa using rawArgs_placeArgs hcount f.descriptor.params 0

theorem mem_rawArgs (named : Bool) {args : List (String × Expr)} {entry : String × Expr}
    (h : entry ∈ args) : ⟨if named then some entry.1 else none, entry.2⟩ ∈ rawArgs named args :=
  List.mem_map_of_mem h

end Calls

end LogRules.Typing
