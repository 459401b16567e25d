/-!
Settings of an engine.
-/
namespace LogRules

structure Config where
  /-- Whether rules that are used often are compiled. -/
  compileRules : Bool
  /-- How many uses of a rule precede its compilation. -/
  compileThreshold : Nat
  /-- The deepest expression that is compiled. -/
  maxCompileDepth : Nat
  /-- The message field that collects the texts of faults, if any does. -/
  errorField : Option String
deriving DecidableEq, Inhabited, Repr

namespace Config

def standard : Config := ⟨true, 1, 64, some "processing_error"⟩

/-- Settings under which nothing is compiled. -/
def interpretedOnly : Config := { standard with compileRules := false }

end Config

end LogRules
