/-!
Tables over code points: classes of characters as ranges, and mappings as runs of characters that
are all shifted by one distance.
-/
namespace LogRules.Text

/-- Whether a code point lies in one of the ranges, ends included. -/
def inRanges (ranges : List (Nat × Nat)) (n : Nat) : Bool :=
  ranges.any fun (first, last) => first ≤ n && n ≤ last

/-- Every `step`-th code point from `first` to `last` maps to the one `shift` away. -/
structure Run where
  first : Nat
  last : Nat
  step : Nat
  shift : Int

def Run.covers (run : Run) (n : Nat) : Bool :=
  run.first ≤ n && n ≤ run.last && (n - run.first) % run.step == 0

/-- The image of a code point under the first run that covers it. -/
def mapRuns (runs : List Run) (n : Nat) : Option Nat :=
  (runs.find? (·.covers n)).map fun run => ((n : Int) + run.shift).toNat

end LogRules.Text
