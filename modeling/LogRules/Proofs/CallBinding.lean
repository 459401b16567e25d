import LogRules.Proofs.Accepted

/-!
A call without errors can always be bound: every parameter that it has to supply is supplied, by
name or by place.
-/
namespace LogRules

namespace Args

theorem map_fst_put (name : String) (value : Value) (values : List (String × Value)) :
    ∀ key ∈ values.map (·.1), key ∈ (put name value values).map (·.1) := by
  induction values with
  | nil => simp
  | cons entry rest ih =>
    rw [put]
    split
    · simp
    · intro key hkey
      rw [List.map_cons, List.mem_cons] at hkey ⊢
      exact hkey.imp_right (ih key)

theorem bound?_isSome {args : Args} {name : String} (h : name ∈ args.values.map (·.1)) :
    (args.bound? name).isSome = true := by
  rw [bound?, Option.isSome_map, List.find?_isSome]
  obtain ⟨entry, hentry, rfl⟩ := List.mem_map.mp h
  exact ⟨entry, hentry, by simp⟩

/-- A parameter that is supplied or may be left out is filled, and what was bound stays bound. -/
theorem fill_ok {args : Args} {param : Parameter}
    (h : param.optional = false → param.name ∈ args.values.map (·.1)) :
    ∃ filled, args.fill param = .ok filled ∧
      ∀ key ∈ args.values.map (·.1), key ∈ filled.values.map (·.1) := by
  rw [fill]
  by_cases hbound : (args.bound? param.name).isSome = true
  · exact ⟨args, by rw [if_pos hbound], fun _ h => h⟩
  · rw [if_neg hbound]
    cases param.default with
    | some value => exact ⟨_, rfl, map_fst_put param.name value args.values⟩
    | none =>
      cases hoptional : param.optional with
      | true => exact ⟨args, rfl, fun _ h => h⟩
      | false => exact absurd (bound?_isSome (h hoptional)) hbound

theorem bind_ok (function : String) {d : Descriptor} {supplied : List (String × Value)}
    (h : ∀ param ∈ d.params, param.optional = false → param.name ∈ supplied.map (·.1)) :
    ∃ args, bind function d supplied = .ok args := by
  have hfold (params : List Parameter) (args : Args)
      (h : ∀ param ∈ params, param.optional = false → param.name ∈ args.values.map (·.1)) :
      ∃ filled, params.foldlM fill args = .ok filled := by
    induction params generalizing args with
    | nil => exact ⟨args, rfl⟩
    | cons param rest ih =>
      obtain ⟨filled, hfilled, hkept⟩ := fill_ok (h param List.mem_cons_self)
      rw [List.foldlM_cons, hfilled]
      exact ih filled fun p hp hoptional => hkept _ (h p (List.mem_cons_of_mem _ hp) hoptional)
  exact hfold d.params ⟨function, supplied⟩ h

theorem bound?_put (args : Args) (name key : String) (value : Value) :
    (args.insert name value).bound? key = if name = key then some value else args.bound? key := by
  simp only [bound?, insert]
  induction args.values with
  | nil =>
    rw [put]
    split <;> simp_all
  | cons entry rest ih =>
    rw [put]
    split <;> grind

/-- The value that a parameter has by itself under a name. -/
def defaultOf? (key : String) (param : Parameter) : Option Value :=
  if param.name = key then param.default else none

/-- What is bound stays, and a parameter that is not bound gets its default. -/
theorem bound?_fill {args filled : Args} {param : Parameter} (h : args.fill param = .ok filled)
    (key : String) : filled.bound? key = (args.bound? key).or (defaultOf? key param) := by
  rw [fill] at h
  rw [defaultOf?]
  split at h
  · next hbound =>
    cases h
    split
    · next hname =>
      rw [hname] at hbound
      rw [Option.or_of_isSome hbound]
    · rw [Option.or_none]
  · next hbound =>
    split at h
    · next value hdefault =>
      cases h
      rw [bound?_put, hdefault]
      split
      · next hname =>
        rw [hname, Option.not_isSome_iff_eq_none] at hbound
        rw [hbound, Option.none_or]
      · rw [Option.or_none]
    · next hdefault =>
      split at h
      · cases h
        rw [hdefault, ite_self, Option.or_none]
      · cases h

/-- What a call supplies is bound as it is. Under any other name the first default of a parameter
of this name is bound, if there is one. -/
theorem bound?_bind {function : String} {d : Descriptor} {supplied : List (String × Value)}
    {args : Args} (h : bind function d supplied = .ok args) (key : String) :
    args.bound? key =
      (Args.bound? ⟨function, supplied⟩ key).or (d.params.findSome? (defaultOf? key)) := by
  have hfold (params : List Parameter) (args filled : Args)
      (h : params.foldlM fill args = .ok filled) :
      filled.bound? key = (args.bound? key).or (params.findSome? (defaultOf? key)) := by
    induction params generalizing args with
    | nil =>
      cases h
      rw [List.findSome?_nil, Option.or_none]
    | cons param rest ih =>
      rw [List.foldlM_cons] at h
      cases hfill : args.fill param with
      | error error =>
        rw [hfill] at h
        cases h
      | ok next =>
        rw [hfill] at h
        rw [ih next h, bound?_fill hfill, Option.or_assoc, List.findSome?_cons]
        cases defaultOf? key param <;> rfl
  exact hfold d.params ⟨function, supplied⟩ args h

/-- A value that is bound to a name was bound by an entry of this name. -/
theorem mem_of_bound? {args : Args} {name : String} {value : Value}
    (h : args.bound? name = some value) : (name, value) ∈ args.values := by
  rw [bound?, Option.map_eq_some_iff] at h
  obtain ⟨⟨key, found⟩, hfind, rfl⟩ := h
  have hkey : key = name := by simpa using List.find?_some hfind
  rw [← hkey]
  exact List.mem_of_find?_eq_some hfind

end Args

namespace Typing

/-- Where no parameter that may be left out stands before one that may not, the latter come
first. -/
theorem lt_requiredCount {params : List Parameter} {place : Nat} {param : Parameter}
    (horder : (params.dropWhile (!·.optional)).any (!·.optional) = false)
    (hplace : params[place]? = some param) (hrequired : param.optional = false) :
    place < params.countP (!·.optional) := by
  induction params generalizing place with
  | nil => cases hplace
  | cons first rest ih =>
    cases hfirst : first.optional with
    | true =>
      have hmem : param ∈ first :: rest := List.mem_of_getElem? hplace
      simp only [List.dropWhile_cons, hfirst, Bool.not_true, Bool.false_eq_true, if_false,
        List.any_eq_false] at horder
      exact absurd (by simp [hrequired]) (horder param hmem)
    | false =>
      rw [List.countP_cons_of_pos (by simp [hfirst])]
      cases place with
      | zero => omega
      | succ place =>
        have hrest := ih (by simpa [hfirst] using horder) (by simpa using hplace)
        omega

theorem name_mem_placeArgs {params : List Parameter} {raw : List RawArg} {param : Parameter}
    {start place : Nat} (hplace : place < raw.length)
    (hparam : params[start + place]? = some param) :
    param.name ∈ (placeArgs params start raw).map (·.1) := by
  induction raw generalizing start place with
  | nil => simp at hplace
  | cons arg rest ih =>
    rw [placeArgs, List.map_cons, List.mem_cons]
    cases place with
    | zero =>
      left
      rw [Nat.add_zero] at hparam
      simp [hparam]
    | succ place =>
      right
      apply @ih (start + 1) place (by simpa using hplace)
      rw [← hparam]
      congr 1
      omega

theorem supplied_by_place {name : String} {d : Descriptor} {raw : List RawArg} {p : Position}
    (hclean : placeErrors name d raw.length p = []) {param : Parameter} (hmem : param ∈ d.params)
    (hrequired : param.optional = false) :
    param.name ∈ (placeArgs d.params 0 raw).map (·.1) := by
  obtain ⟨place, hplace⟩ := List.mem_iff_getElem?.mp hmem
  have hcount : ¬(d.params.length < raw.length ∨ raw.length < d.requiredCount) := by
    intro hwrong
    simp [placeErrors, hwrong, fault] at hclean
  have horder : ¬(d.optionalBeforeRequired = true ∧ raw.length < d.params.length) := by
    intro hwrong
    simp [placeErrors, hcount, hwrong, fault] at hclean
  apply @name_mem_placeArgs _ _ _ 0 place _ (by simpa using hplace)
  by_cases hall : raw.length < d.params.length
  · have hfirst : place < d.requiredCount := by
      apply lt_requiredCount _ hplace hrequired
      simpa [Descriptor.optionalBeforeRequired, hall] using horder
    omega
  · have hlast := (List.getElem?_eq_some_iff.mp hplace).1
    omega

theorem supplied_by_name {name : String} {d : Descriptor} {args : List (String × Expr)}
    {p : Position} (hclean : namedErrors name d args p = []) {param : Parameter}
    (hmem : param ∈ d.params) (hrequired : param.optional = false) :
    param.name ∈ args.map (·.1) := by
  rw [namedErrors, List.append_eq_nil_iff, List.flatMap_eq_nil_iff, List.flatMap_eq_nil_iff]
    at hclean
  have hsupplied := hclean.2 param (List.mem_filter.mpr ⟨hmem, by simp [hrequired]⟩)
  by_contra hmissing
  have hany : args.any (·.1 == param.name) = false := by
    simp only [List.any_eq_false, beq_iff_eq]
    exact fun entry hentry hsame => hmissing (hsame ▸ List.mem_map_of_mem hentry)
  simp [hany, fault] at hsupplied

end Typing

/-- A call without errors supplies every parameter that may not be left out. -/
theorem Grammar.supplied_of_clean {env : Env} {name : String} {target : Function}
    {args : List (String × Expr)} {named : Bool}
    (hfind : env.registry.find? name = some target)
    (hbound : Typing.boundArgs target (Typing.rawArgs named args) = args)
    (hclean : (Typing.call env.registry env.inCondition name (Typing.rawArgs named args)
      .nowhere).errors = []) {param : Parameter} (hmem : param ∈ target.descriptor.params)
    (hrequired : param.optional = false) : param.name ∈ args.map (·.1) := by
  rw [Typing.call_errors .nowhere hfind, List.append_eq_nil_iff, List.append_eq_nil_iff,
    List.append_eq_nil_iff, Typing.bindingErrors] at hclean
  obtain ⟨-, ⟨hbinding, -⟩, -⟩ := hclean
  rw [← hbound]
  rw [Typing.boundArgs] at hbinding ⊢
  split at hbinding
  · next hnamed =>
    rw [if_pos hnamed]
    exact Typing.supplied_by_name hbinding hmem hrequired
  · next hnamed =>
    rw [if_neg hnamed]
    exact Typing.supplied_by_place hbinding hmem hrequired

end LogRules
