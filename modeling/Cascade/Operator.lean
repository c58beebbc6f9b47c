/-!
# Cascade.Operator

The operators of the language, as the syntax tree, the typed tree and the code share them.
-/

namespace Cascade

inductive BinaryOp where
  | add
  | sub
  | mul
  | div
  | rem
  | eq
  | ne
  | lt
  | le
  | gt
  | ge
  deriving DecidableEq, Repr, Inhabited

namespace BinaryOp

/-- A comparison yields a truth value, every other operator a value of the operand type. -/
def isComparison : BinaryOp → Bool
  | .eq | .ne | .lt | .le | .gt | .ge => true
  | .add | .sub | .mul | .div | .rem => false

def symbol : BinaryOp → String
  | .add => "+"
  | .sub => "-"
  | .mul => "*"
  | .div => "/"
  | .rem => "%"
  | .eq => "=="
  | .ne => "!="
  | .lt => "<"
  | .le => "<="
  | .gt => ">"
  | .ge => ">="

def ofSymbol? (s : String) : Option BinaryOp :=
  [add, sub, mul, div, rem, eq, ne, lt, le, gt, ge].find? fun o => o.symbol == s

end BinaryOp

/-- Operators that compute a value from one operand. Unary plus computes nothing and is no
operation. -/
inductive UnaryOp where
  | neg
  | not
  deriving DecidableEq, Repr, Inhabited

def UnaryOp.symbol : UnaryOp → String
  | .neg => "-"
  | .not => "!"

def UnaryOp.ofSymbol? (s : String) : Option UnaryOp :=
  [neg, not].find? fun o => o.symbol == s

inductive SignOp where
  | plus
  | minus
  | not
  deriving DecidableEq, Repr, Inhabited

def SignOp.symbol : SignOp → String
  | .plus => "+"
  | .minus => "-"
  | .not => "!"

def SignOp.ofSymbol? (s : String) : Option SignOp :=
  [plus, minus, not].find? fun o => o.symbol == s

/-- The two operators that evaluate their right operand only when the left does not decide. -/
inductive LogicalOp where
  | and
  | or
  deriving DecidableEq, Repr, Inhabited

def LogicalOp.combine : LogicalOp → Bool → Bool → Bool
  | .and, a, b => a && b
  | .or, a, b => a || b

def LogicalOp.symbol : LogicalOp → String
  | .and => "&&"
  | .or => "||"

def LogicalOp.ofSymbol? (s : String) : Option LogicalOp :=
  [and, or].find? fun o => o.symbol == s

inductive UpdateOp where
  | increment
  | decrement
  deriving DecidableEq, Repr, Inhabited

def UpdateOp.symbol : UpdateOp → String
  | .increment => "++"
  | .decrement => "--"

def UpdateOp.ofSymbol? (s : String) : Option UpdateOp :=
  [increment, decrement].find? fun o => o.symbol == s

def UpdateOp.delta : UpdateOp → Int
  | .increment => 1
  | .decrement => -1

end Cascade
