import Cascade.Codegen.Builder

/-!
# Cascade.Codegen.Switches

The switches around a statement, innermost first, with the blocks that control can leave them
through.
-/

namespace Cascade.Codegen

open Code

/-- A switch: the block behind it and the blocks of its cases in the order of the cases. -/
structure OpenSwitch where
  behind : BlockId
  cases : List BlockId
  deriving DecidableEq, Repr

namespace OpenSwitch

def case (s : OpenSwitch) (i : Nat) : Lower BlockId :=
  match s.cases[i]? with
  | some b => return b
  | none => .stray (.case i)

/-- Where control goes from the end of a case: to the next case, or else behind the switch. -/
def fallThrough (s : OpenSwitch) (i : Nat) : BlockId := s.cases.getD (i + 1) s.behind

end OpenSwitch

abbrev Switches := List OpenSwitch

namespace Switches

def push (s : Switches) (c : OpenSwitch) : Switches := c :: s

def pop (s : Switches) : Switches := s.tail

def innermost? (s : Switches) : Option OpenSwitch := s.head?

/-- Where a `break` goes to. -/
def exit? (s : Switches) : Option BlockId := s.innermost?.map OpenSwitch.behind

end Switches

end Cascade.Codegen
