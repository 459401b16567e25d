import LogRules.Function.Registry

/-!
The catalog: the place where functions are collected. A registry taken from it is a value of its
own, which no later registration changes.
-/
namespace LogRules

structure Catalog where
  functions : Registry

namespace Catalog

/-- The catalog that starts with the built-in functions of a generation. -/
def builtin (generation : Nat) : Catalog := ⟨.builtin generation⟩

/-- Adds a function. The one of its name that it replaces, if there is one, comes back. -/
def register (c : Catalog) (f : Function) : Option Function × Catalog :=
  (c.functions.find? f.descriptor.name, ⟨c.functions.add f⟩)

/-- The catalog of these functions only; of two of one name the later one stays. -/
def ofList (functions : List Function) : Catalog := ⟨.ofList functions⟩

def contains (c : Catalog) (name : String) : Bool := c.functions.contains name

def snapshot (c : Catalog) : Registry := c.functions

end Catalog

end LogRules
