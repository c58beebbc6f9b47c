import Cascade.Code.Text

/-!
# Cascade.Machine.Fault

How a run can go wrong. Code that was compiled from an accepted program can only exceed a limit,
divide by zero or print where that is refused; the other faults are for code that was put together
in some other way.
-/

namespace Cascade.Machine

open Code

inductive TypeFault where
  | operands (left right : Ty)
  | conversion (source target : Ty)
  | switchOn (found : Ty)
  | noResult (function : String)
  | voidLocal (found : Ty)
  | voidField (name : String) (found : Ty)
  deriving DecidableEq, Repr

def TypeFault.message : TypeFault → String
  | .operands l r => (ArithFailure.operandMismatch l r).message
  | .conversion s t => "cannot convert " ++ s.text ++ " to " ++ t.text
  | .switchOn t => "switch on " ++ t.text
  | .noResult f => f ++ " returned no value"
  | .voidLocal t => "local of type " ++ t.text
  | .voidField n t => "field " ++ n ++ " has type " ++ t.text

inductive Fault where
  /-- Too many calls are active, or they need too many slots. -/
  | stackOverflow (depth : Nat)
  | divisionByZero
  | unknownFunction (f : FunctionId)
  | unknownBlock (function : String) (block : BlockId)
  | unknownField (f : FieldId)
  /-- Control came to the end of a block that is still open. -/
  | unreachable (function : String) (block : BlockId)
  | type (t : TypeFault)
  | slotRange (index top : Nat)
  /-- The destination of the output refused a line. -/
  | output (reason : String)
  deriving DecidableEq, Repr

def Fault.message : Fault → String
  | .stackOverflow d => "Stack overflow at call depth " ++ toString d
  | .divisionByZero => "Division by zero"
  | .unknownFunction f => "Unknown function " ++ functionName f
  | .unknownBlock f b => "Unknown block " ++ blockName b ++ " in " ++ f
  | .unknownField f => "Unknown field " ++ toString f
  | .unreachable f b => "Reached unreachable code in " ++ f ++ " at " ++ blockName b
  | .type t => "Type error: " ++ t.message
  | .slotRange i t => "Register index " ++ toString i ++ " out of bounds (top=" ++ toString t ++ ")"
  | .output r => "Output error: " ++ r

def Fault.ofArith : ArithFailure → Fault
  | .divisionByZero => .divisionByZero
  | .operandMismatch l r => .type (.operands l r)

end Cascade.Machine
