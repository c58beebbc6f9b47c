import Cascade.Scalar

/-!
# Cascade.Machine.Output

Where a run prints to. A destination takes one line at a time and may refuse it; either way it may
have changed afterwards.

* `Lines` keeps the lines in memory and refuses none.
-/

namespace Cascade.Machine

/-- The line that is printed for a value; without one it is empty. -/
def lineText : Option Scalar → String
  | some v => v.text
  | none => ""

def linesText (lines : List String) : String := String.join (lines.map (· ++ "\n"))

/-- A destination for printed lines. Where it refuses a line, it says why. -/
class Output (σ : Type) where
  println : σ → Option Scalar → Except String Unit × σ

abbrev Lines := Array String

instance : Output Lines := ⟨fun lines v => (.ok (), lines.push (lineText v))⟩

end Cascade.Machine
