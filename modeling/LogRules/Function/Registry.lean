import LogRules.Function.Builtin
import LogRules.Text.Spelled

/-!
Registries: the functions that a source is parsed against, by name. A registry does not change; the
catalog is the place where functions are collected before one is taken.
-/
namespace LogRules

/-- Functions in ascending order of their names. -/
structure Registry where
  functions : Entries Function

namespace Registry

def empty : Registry := ⟨[]⟩

/-- Of two functions of one name the later one stays. -/
def ofList (functions : List Function) : Registry :=
  ⟨Entries.ofList (functions.map fun f => (f.descriptor.name, f))⟩

def builtin (generation : Nat) : Registry := ofList (Builtin.all generation)

/-- Adds a function or replaces the one of its name. -/
def add (r : Registry) (f : Function) : Registry := ⟨r.functions.insert f.descriptor.name f⟩

def find? (r : Registry) (name : String) : Option Function := r.functions.find? name

theorem eq_or_of_find?_add {r : Registry} {f g : Function} {name : String}
    (h : (r.add f).find? name = some g) : g = f ∨ r.find? name = some g := by
  rw [find?, add, Entries.find?_insert] at h
  split at h
  · exact .inl (Option.some.inj h).symm
  · exact .inr h

/-- An unknown name stands for the function that always fails. -/
def resolve (r : Registry) (name : String) : Function := (r.find? name).getD .unresolved

def contains (r : Registry) (name : String) : Bool := r.functions.contains name

def names (r : Registry) : List String := r.functions.keys

def size (r : Registry) : Nat := r.functions.length

def isEmpty (r : Registry) : Bool := r.functions.isEmpty

def listing (r : Registry) : String :=
  "FunctionRegistry \x7b functions: [" ++ ", ".intercalate (r.names.map Text.spell) ++ "] \x7d"

end Registry

end LogRules
