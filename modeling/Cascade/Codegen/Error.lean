import Cascade.Failure
import Cascade.Scope

/-!
# Cascade.Codegen.Error

How a typed tree can be unfit for code. Typing never makes such a tree.
-/

namespace Cascade.Codegen

inductive Error where
  | voidValue (span : Span)
  | stepType (ty : Ty) (span : Span)
  | noZero (ty : Ty) (span : Span)
  | undeclaredSlot (slot : Slot)
  | breakOutsideSwitch
  deriving DecidableEq, Repr

namespace Error

/-- Where the tree is wrong; statements carry no place. -/
def span : Error → Span
  | .voidValue s => s
  | .stepType _ s => s
  | .noZero _ s => s
  | .undeclaredSlot _ => .zero
  | .breakOutsideSwitch => .zero

def message : Error → String
  | .voidValue _ => "void expression used as a value"
  | .stepType t _ => "update of non-integral " ++ t.text
  | .noZero t _ => "no zero value for " ++ t.text
  | .undeclaredSlot n => "undeclared local slot " ++ toString n
  | .breakOutsideSwitch => "break outside of a switch"

end Error

end Cascade.Codegen
