import LogRules.Proofs.Shape

/-!
Two runs of a parser against different registries. They go on from the same places, report the same
errors in the structure of the source and build trees of one shape.
-/
namespace LogRules

/-- Problems in the structure of a source, in which no registry has a say. -/
def Problem.isStructural : Problem → Bool
  | .syntactic _ | .nestingTooDeep _ | .emptyPipeline _ | .duplicateStage _ _
  | .nonContiguousStages _ _ _ => true
  | _ => false

namespace Diagnostic

def isStructural (d : Diagnostic) : Bool := d.problem.isStructural

def structural (errors : List Diagnostic) : List Diagnostic := errors.filter isStructural

theorem structural_append (errors more : List Diagnostic) :
    structural (errors ++ more) = structural errors ++ structural more :=
  List.filter_append errors more

end Diagnostic

open Diagnostic

namespace Parse

variable {α β γ δ : Type} {view : α → γ} {view' : β → δ}

/-- What two runs are to agree on: where parsing goes on, the errors in the structure of the source
and what is seen of the result. -/
def seen (view : α → γ) (reply : Reply α) : Reply γ :=
  ⟨structural reply.errors, reply.rest, reply.result.map view⟩

def Alike (view : α → γ) (p q : Parse α) : Prop :=
  ∀ tokens, seen view (p tokens) = seen view (q tokens)

theorem Alike.refl (view : α → γ) (p : Parse α) : Alike view p p := fun _ => rfl

theorem Alike.bind {p q : Parse α} {f g : α → Parse β} (hp : Alike view p q)
    (hf : ∀ a b, view a = view b → Alike view' (f a) (g b)) :
    Alike view' (p >>= f) (q >>= g) := by
  intro tokens
  have hbind (p : Parse α) (f : α → Parse β) : (p >>= f) tokens = Parse.bind p f tokens := rfl
  have hseen := hp tokens
  simp only [seen, Reply.mk.injEq] at hseen
  obtain ⟨herrors, hrest, hresult⟩ := hseen
  rw [hbind, hbind, Parse.bind, Parse.bind]
  cases ha : (p tokens).result with
  | none =>
    have hb : (q tokens).result = none := by simpa [ha, eq_comm] using hresult
    simp only [hb, seen, herrors, hrest, Option.map_none]
  | some a =>
    obtain ⟨b, hb, hab⟩ : ∃ b, (q tokens).result = some b ∧ view b = view a := by
      simpa [ha, eq_comm] using hresult
    have hnext := hf a b hab.symm (q tokens).rest
    simp only [seen, Reply.mk.injEq] at hnext
    simp only [hb, seen, hrest, structural_append, herrors, hnext]

theorem Alike.after (p : Parse α) {f g : α → Parse β} (hf : ∀ a, Alike view' (f a) (g a)) :
    Alike view' (p >>= f) (p >>= g) :=
  (Alike.refl id p).bind fun a _ (hab : a = _) => hab ▸ hf a

theorem Alike.pure {a b : α} (h : view a = view b) : Alike view (Pure.pure a) (Pure.pure b) := by
  intro tokens
  show Reply.mk [] tokens (some (view a)) = Reply.mk [] tokens (some (view b))
  rw [h]

theorem Alike.map {p q : Parse α} {f g : α → β} (hp : Alike view p q)
    (hf : ∀ a b, view a = view b → view' (f a) = view' (g b)) :
    Alike view' (do return f (← p)) (do return g (← q)) :=
  hp.bind fun a b hab => .pure (hf a b hab)

theorem Alike.attempt {p q : Parse α} (hp : Alike view p q) :
    Alike (Option.map view) (attempt p) (attempt q) := by
  intro tokens
  have hseen := hp tokens
  simp only [seen, Reply.mk.injEq] at hseen
  obtain ⟨herrors, hrest, hresult⟩ := hseen
  simp only [Parse.attempt, seen, herrors, hrest, hresult, Option.map_some]

/-- Two runs fail together, and go on alike behind the failure. -/
theorem Alike.recover {p q : Parse α} {f g : Option α → Parse β} (hp : Alike view p q)
    (hnone : Alike view' (f none) (g none))
    (hsome : ∀ a b, view a = view b → Alike view' (f (some a)) (g (some b))) :
    Alike view' (Parse.attempt p >>= f) (Parse.attempt q >>= g) := by
  refine hp.attempt.bind fun found found' hfound => ?_
  cases found with
  | none => cases found' with
    | none => exact hnone
    | some b => cases hfound
  | some a => cases found' with
    | none => cases hfound
    | some b => exact hsome a b (Option.some.inj hfound)

theorem Alike.reportAll (view : Unit → γ) {errors errors' : List Diagnostic}
    (h : structural errors = structural errors') :
    Alike view (reportAll errors) (reportAll errors') := fun tokens => by
  simp only [seen, Parse.reportAll, h]

theorem Alike.separatedLoop {item item' : Parse α} (h : Alike view item item') (close : Symbol)
    (expected : String) (fuel : Nat) : Alike (List.map view)
      (separatedLoop item close expected fuel) (separatedLoop item' close expected fuel) := by
  induction fuel with
  | zero => exact .refl _ _
  | succ fuel ih =>
    refine h.bind fun a b hab => .after _ fun closed => ?_
    split
    · exact .pure (by simp only [List.map_cons, hab])
    · exact .after _ fun _ => ih.map fun as bs hrest => by simp only [List.map_cons, hab, hrest]

theorem Alike.separated {item item' : Parse α} (h : Alike view item item') (close : Symbol)
    (expected : String) : Alike (List.map view)
      (separated item close expected) (separated item' close expected) := by
  refine .after _ fun closed => ?_
  split
  · exact .refl _ _
  · exact .after _ fun fuel => h.separatedLoop close expected fuel

end Parse

/-- Constructs of one shape with the same errors in the structure of the source. -/
structure Checked.Alike (c c' : Checked) : Prop where
  shape : c.expr.shape = c'.expr.shape
  errors : structural c.errors = structural c'.errors

namespace Typing

variable {left left' right right' operand operand' : Expr} (p : Position)

theorem structural_flatMap {α : Type} {check : α → List Diagnostic}
    (h : ∀ a, structural (check a) = []) (items : List α) :
    structural (items.flatMap check) = [] := by
  rw [structural, List.filter_flatMap]
  exact List.flatMap_eq_nil_iff.mpr fun a _ => h a

theorem structural_checkBoolean (e : Expr) : structural (checkBoolean e) = [] := by
  rw [checkBoolean]
  split <;> rfl

theorem shape_binary (type type' : ValueType) (op : BinaryOp) (hl : left.shape = left'.shape)
    (hr : right.shape = right'.shape) :
    (binary type op left right).shape = (binary type' op left' right').shape := by
  simp only [binary, Expr.shape, hl, hr, Expr.position_of_shape hl, Site.shape]

theorem alike_logical (op : BinaryOp) (hl : left.shape = left'.shape)
    (hr : right.shape = right'.shape) :
    (logical op left right).Alike (logical op left' right') := by
  refine ⟨shape_binary _ _ op hl hr, ?_⟩
  simp only [logical, structural_append, structural_checkBoolean]

theorem structural_comparisonErrors (op : BinaryOp) (a b : ValueType) :
    structural (comparisonErrors op a b p) = [] := by
  simp only [comparisonErrors]
  split_ifs <;> rfl

theorem alike_comparison (op : BinaryOp) (hl : left.shape = left'.shape)
    (hr : right.shape = right'.shape) :
    (comparison op left right p).Alike (comparison op left' right' p) := by
  refine ⟨shape_binary _ _ op hl hr, ?_⟩
  simp only [comparison, structural_comparisonErrors]

theorem structural_arithmeticErrors (op : BinaryOp) (a b : ValueType) :
    structural (arithmeticErrors op a b p) = [] := by
  simp only [arithmeticErrors]
  split_ifs <;> rfl

theorem alike_arithmetic (op : BinaryOp) (hl : left.shape = left'.shape)
    (hr : right.shape = right'.shape) :
    (arithmetic op left right p).Alike (arithmetic op left' right' p) := by
  refine ⟨shape_binary _ _ op hl hr, ?_⟩
  simp only [arithmetic, structural_arithmeticErrors]

theorem alike_negation (h : operand.shape = operand'.shape) :
    (negation p operand).Alike (negation p operand') := by
  refine ⟨by simp only [negation, Expr.shape, h], ?_⟩
  simp only [negation, structural_checkBoolean]

theorem alike_signed (op : UnaryOp) (h : operand.shape = operand'.shape) :
    (signed op p operand).Alike (signed op p operand') := by
  have herrors (e : Expr) : structural (signed op p e).errors = [] := by
    simp only [signed]
    split_ifs <;> rfl
  exact ⟨by simp only [signed, Expr.shape, h, Site.shape], by rw [herrors, herrors]⟩

theorem alike_access (name : String) (h : left.shape = left'.shape) :
    (access left name p).Alike (access left' name p) := by
  have herrors (e : Expr) : structural (access e name p).errors = [] := by
    simp only [access]
    split_ifs <;> rfl
  exact ⟨by simp only [access, Expr.shape, h, Expr.position_of_shape h], by rw [herrors, herrors]⟩

theorem alike_index (hl : left.shape = left'.shape) (hr : right.shape = right'.shape) :
    (index left right p).Alike (index left' right' p) := by
  have herrors (e key : Expr) : structural (index e key p).errors = [] := by
    simp only [index, indexErrors]
    split
    case h_1 | h_4 => rfl
    all_goals split_ifs <;> rfl
  refine ⟨?_, by rw [herrors, herrors]⟩
  simp only [index, Expr.shape, hl, hr, Expr.position_of_shape hl]

theorem alike_variableIn (scope scope' : Scope) (name : String) :
    (variableIn scope name p).Alike (variableIn scope' name p) := by
  have hvar (scope : Scope) : (variableIn scope name p).expr.shape = .var ⟨.any, p⟩ name ∧
      structural (variableIn scope name p).errors = [] := by
    rw [variableIn]
    split <;> exact ⟨rfl, rfl⟩
  exact ⟨(hvar scope).1.trans (hvar scope').1.symm, (hvar scope).2.trans (hvar scope').2.symm⟩

section Calls

variable (registry registry' : Registry) (inCondition inCondition' : Bool) (name : String)
  {raw raw' : List RawArg}

/-- An argument without what only a registry can tell. -/
def RawArg.shape : RawArg → RawArg := RawArg.mapValue Expr.shape

theorem shapeEntries_placeArgs (params : List Parameter) (place : Nat) (raw : List RawArg) :
    Expr.shapeEntries false (placeArgs params place raw) =
      Expr.shapeEntries false (nameArgs place raw) := by
  induction raw generalizing place with
  | nil => rfl
  | cons arg rest ih => rw [placeArgs, nameArgs, Expr.shapeEntries, Expr.shapeEntries, ih]; rfl

/-- A known function changes nothing in the shape of a call. -/
theorem shape_call : (call registry inCondition name raw p).expr.shape =
    (unknownCall name (isNamed raw) raw p).expr.shape := by
  cases hfind : registry.find? name with
  | none => simp only [call, hfind, isNamed]
  | some f =>
    rw [call_expr p hfind, unknownCall, Expr.shape, Expr.shape, boundArgs]
    cases isNamed raw with
    | true => rfl
    | false => simp only [Bool.false_eq_true, if_false, shapeEntries_placeArgs, Site.shape]

theorem shapeEntries_nameArgs (written : Bool) (place : Nat) (raw : List RawArg) :
    Expr.shapeEntries written (nameArgs place raw) =
      (nameArgs place (raw.map RawArg.shape)).map
        fun entry => (if written then entry.1 else "", entry.2) := by
  rw [RawArg.shape, nameArgs_mapValue, Expr.shapeEntries_eq, mapArgs, List.map_map]
  rfl

theorem mixedErrors_shape : mixedErrors name (raw.map RawArg.shape) p = mixedErrors name raw p := by
  have hcount : (raw.map RawArg.shape).countP (·.name.isSome) = raw.countP (·.name.isSome) := by
    rw [List.countP_map]
    rfl
  rw [mixedErrors, mixedErrors, RawArg.shape, isNamed_mapValue, ← RawArg.shape, hcount,
    List.length_map]

theorem structural_call : structural (call registry inCondition name raw p).errors =
    mixedErrors name raw p := by
  have hmixed : structural (mixedErrors name raw p) = mixedErrors name raw p := by
    rw [mixedErrors]
    split_ifs <;> rfl
  cases hfind : registry.find? name with
  | none =>
    rw [call_of_unknown p hfind, structural_append, hmixed]
    exact List.append_nil _
  | some f =>
    have hbinding : structural (bindingErrors name f raw p) = [] := by
      simp only [bindingErrors, namedErrors, placeErrors]
      split_ifs
      · rw [structural_append, structural_flatMap, structural_flatMap]
        · rfl
        all_goals intro entry; split_ifs <;> rfl
      all_goals rfl
    have hargs : structural (argumentErrors name f.descriptor (boundArgs f raw)) = [] := by
      refine structural_flatMap (fun entry => ?_) _
      cases hparam : f.descriptor.param? entry.1 with
      | none => simp only [hparam]; rfl
      | some declared => simp only [hparam]; split_ifs <;> rfl
    have heffect : structural (effectErrors name f.descriptor inCondition p) = [] := by
      rw [effectErrors]
      split_ifs <;> rfl
    simp only [call_errors p hfind, structural_append, hmixed, hbinding, hargs, heffect,
      List.append_nil]

theorem alike_call (h : raw.map RawArg.shape = raw'.map RawArg.shape) :
    (call registry inCondition name raw p).Alike (call registry' inCondition' name raw' p) := by
  have hnamed : isNamed raw = isNamed raw' := by
    rw [← isNamed_mapValue Expr.shape, ← RawArg.shape, h, RawArg.shape, isNamed_mapValue]
  constructor
  · rw [shape_call, shape_call, hnamed, unknownCall, unknownCall, Expr.shape, Expr.shape,
      shapeEntries_nameArgs, shapeEntries_nameArgs, h]
  · rw [structural_call, structural_call, ← mixedErrors_shape, h, mixedErrors_shape]

end Calls

end Typing

end LogRules
