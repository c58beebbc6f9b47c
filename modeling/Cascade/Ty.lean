/-!
# Cascade.Ty

The types of the language: four numeric types in promotion order, and `void` for a method that
returns nothing. There is no boolean type; a truth value is the `short` 0 or 1.

* `Ty.join` is the least upper bound in the order `short < int < long < double`.
* `Ty.widensTo` is that order itself.
-/

namespace Cascade

inductive Ty where
  | short
  | int
  | long
  | double
  | void
  deriving DecidableEq, Repr, Inhabited

namespace Ty

def truth : Ty := .short

def numeric : List Ty := [.short, .int, .long, .double]

/-- Place in the promotion order; `void` has none. -/
def rank? : Ty → Option Nat
  | .short => some 0
  | .int => some 1
  | .long => some 2
  | .double => some 3
  | .void => none

def isNumeric (t : Ty) : Bool := t.rank?.isSome

def isIntegral : Ty → Bool
  | .short | .int | .long => true
  | .double | .void => false

def isVoid : Ty → Bool
  | .void => true
  | _ => false

/-- Every value of the first type has its place in the second. -/
def widensTo (t target : Ty) : Bool :=
  match t.rank?, target.rank? with
  | some a, some b => a ≤ b
  | _, _ => false

def join (t u : Ty) : Option Ty :=
  match t.rank?, u.rank? with
  | some a, some b => some (if b ≤ a then t else u)
  | _, _ => none

def range? : Ty → Option (Int × Int)
  | .short => some (-32768, 32767)
  | .int => some (-2147483648, 2147483647)
  | .long => some (-9223372036854775808, 9223372036854775807)
  | .double | .void => none

def text : Ty → String
  | .short => "short"
  | .int => "int"
  | .long => "long"
  | .double => "double"
  | .void => "void"

def ofText? (s : String) : Option Ty :=
  [short, int, long, double, void].find? fun t => t.text == s

end Ty

end Cascade
