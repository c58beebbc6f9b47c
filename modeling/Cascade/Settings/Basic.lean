import Cascade.Finding
import Cascade.Scope

/-!
# Cascade.Settings.Basic

What a user may choose: the rules of typing, and the limits of a run.
-/

namespace Cascade

/-- Choices that typing depends on. -/
structure Settings where
  /-- Name of the method of the root class that a run starts with. -/
  entryPoint : String
  switchRedeclaration : Redeclaration
  /-- An integral constant may be stored into a narrower integral type that it fits. -/
  constantNarrowing : Bool
  /-- Methods are typed by several workers. -/
  parallel : Bool
  warnings : WarningSettings
  deriving DecidableEq, Repr

namespace Settings

def default : Settings := ⟨"main", .reject, true, false, .default⟩

/-- A letter or an underscore; names are written in ASCII. -/
def isNameStart (c : Char) : Bool := c.isAlpha || c == '_'

def isNameChar (c : Char) : Bool := c.isAlphanum || c == '_'

def isName (s : String) : Bool :=
  match s.toList with
  | [] => false
  | c :: cs => isNameStart c && (c :: cs).all isNameChar

def problem? (s : Settings) : Option String :=
  if isName s.entryPoint then none
  else some ("entry-point '" ++ s.entryPoint ++ "' is not a valid method name")

end Settings

structure Limits where
  maxCallDepth : Nat
  /-- Storage slots that all active calls have together. -/
  maxRegisters : Nat
  deriving DecidableEq, Repr

namespace Limits

def default : Limits := ⟨1024, 65536⟩

def problem? (l : Limits) : Option String :=
  if l.maxCallDepth = 0 then some "max-call-depth must be at least 1" else none

end Limits

end Cascade
