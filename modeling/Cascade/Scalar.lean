import Cascade.Double
import Cascade.Operator
import Cascade.Ty

/-!
# Cascade.Scalar

Numeric values and their arithmetic. Constant folding, constants in code and the machine all
compute with these definitions, so the three agree by construction.

* Integral arithmetic is two's complement arithmetic of the width of the type.
* `Scalar.binary` fails on an integral division by zero and on operands of two types, and on
  nothing else.
* `Scalar.convert` wraps into an integral type; a double is first truncated into 64 bits.
-/

namespace Cascade

inductive Scalar where
  | short (v : Int16)
  | int (v : Int32)
  | long (v : Int64)
  | double (v : Float)
  deriving DecidableEq, Inhabited

inductive ArithFailure where
  | divisionByZero
  | operandMismatch (left right : Ty)
  deriving DecidableEq, Repr

def ArithFailure.message : ArithFailure → String
  | .divisionByZero => "integral division by zero"
  | .operandMismatch l r => "operands have different types: " ++ l.text ++ " and " ++ r.text

namespace Scalar

def ty : Scalar → Ty
  | .short _ => .short
  | .int _ => .int
  | .long _ => .long
  | .double _ => .double

/-- The `short` 0 or 1 of a truth value. -/
def ofBool (b : Bool) : Scalar := .short (if b then 1 else 0)

def zero? : Ty → Option Scalar
  | .short => some (.short 0)
  | .int => some (.int 0)
  | .long => some (.long 0)
  | .double => some (.double 0)
  | .void => none

/-- The value of an integral type that is congruent to an integer. -/
def ofInt? : Ty → Int → Option Scalar
  | .short, n => some (.short (Int16.ofInt n))
  | .int, n => some (.int (Int32.ofInt n))
  | .long, n => some (.long (Int64.ofInt n))
  | .double, _ => none
  | .void, _ => none

def toInt? : Scalar → Option Int
  | .short v => some v.toInt
  | .int v => some v.toInt
  | .long v => some v.toInt
  | .double _ => none

def toDouble : Scalar → Float
  | .short v => Double.ofInt v.toInt
  | .int v => Double.ofInt v.toInt
  | .long v => Double.ofInt v.toInt
  | .double v => v

/-- Zero is false and everything else is true. -/
def isTrue : Scalar → Bool
  | .short v => v != 0
  | .int v => v != 0
  | .long v => v != 0
  | .double v => v != 0

def fits (x : Scalar) (t : Ty) : Bool :=
  match x.toInt?, t.range? with
  | some n, some (lo, hi) => lo ≤ n && n ≤ hi
  | _, _ => false

/-- The integer an integral value stands for, or a double truncated into 64 bits. -/
def truncate : Scalar → Int
  | .short v => v.toInt
  | .int v => v.toInt
  | .long v => v.toInt
  | .double v => Double.toInt v

def convert (x : Scalar) : Ty → Option Scalar
  | .double => some (.double x.toDouble)
  | .void => none
  | t => ofInt? t x.truncate

def neg : Scalar → Scalar
  | .short v => .short (-v)
  | .int v => .int (-v)
  | .long v => .long (-v)
  | .double v => .double (-v)

def unary : UnaryOp → Scalar → Scalar
  | .neg, x => x.neg
  | .not, x => ofBool (!x.isTrue)

/-- Add an integer, keeping the type. -/
def step (x : Scalar) (delta : Int) : Scalar :=
  match x with
  | .short v => .short (v + Int16.ofInt delta)
  | .int v => .int (v + Int32.ofInt delta)
  | .long v => .long (v + Int64.ofInt delta)
  | .double v => .double (v + Double.ofInt delta)

/-- Comparison of integers. Not meant for the five other operators. -/
def compareInts (op : BinaryOp) (a b : Int) : Bool :=
  match op with
  | .eq => a == b
  | .ne => a != b
  | .lt => a < b
  | .le => a ≤ b
  | .gt => b < a
  | .ge => b ≤ a
  | .add | .sub | .mul | .div | .rem => false

/-- Comparison of doubles: what is no number differs from everything and is in no order. -/
def compareDoubles (op : BinaryOp) (a b : Float) : Bool :=
  match op with
  | .eq => a == b
  | .ne => a != b
  | .lt => a < b
  | .le => a ≤ b
  | .gt => b < a
  | .ge => b ≤ a
  | .add | .sub | .mul | .div | .rem => false

/-- A binary operator on two integers of one width, where `value` makes a value of such an
integer. -/
def integralArith {w : Nat} (value : BitVec w → Scalar) (op : BinaryOp) (a b : BitVec w) :
    Except ArithFailure Scalar :=
  match op with
  | .add => .ok (value (a + b))
  | .sub => .ok (value (a - b))
  | .mul => .ok (value (a * b))
  | .div => if b = 0 then .error .divisionByZero else .ok (value (a.sdiv b))
  | .rem => if b = 0 then .error .divisionByZero else .ok (value (a.srem b))
  | op => .ok (ofBool (compareInts op a.toInt b.toInt))

def doubleArith (op : BinaryOp) (a b : Float) : Scalar :=
  match op with
  | .add => .double (a + b)
  | .sub => .double (a - b)
  | .mul => .double (a * b)
  | .div => .double (a / b)
  | .rem => .double (Double.remainder a b)
  | op => ofBool (compareDoubles op a b)

def binary (op : BinaryOp) (x y : Scalar) : Except ArithFailure Scalar :=
  match x, y with
  | .short a, .short b => integralArith (.short ∘ .ofBitVec) op a.toBitVec b.toBitVec
  | .int a, .int b => integralArith (.int ∘ .ofBitVec) op a.toBitVec b.toBitVec
  | .long a, .long b => integralArith (.long ∘ .ofBitVec) op a.toBitVec b.toBitVec
  | .double a, .double b => .ok (doubleArith op a b)
  | x, y => .error (.operandMismatch x.ty y.ty)

def text : Scalar → String
  | .short v => toString v.toInt
  | .int v => toString v.toInt
  | .long v => toString v.toInt
  | .double v => Double.text v

end Scalar

end Cascade
