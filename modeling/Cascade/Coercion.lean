import Cascade.Scalar

/-!
# Cascade.Coercion

Typing of operators and the implicit numeric conversions.

* Operands are promoted to the higher of their types.
* A value may be stored where its type widens to the type of the place. An integral constant may
  also be stored into a narrower integral type that it fits, unless that is switched off.
-/

namespace Cascade

/-- Why an operator or a store is ill typed. -/
inductive Misfit where
  | voidOperand
  | narrowing (source target : Ty)
  | notIntegral (found : Ty)
  deriving DecidableEq, Repr

def Misfit.message : Misfit → String
  | .voidOperand => "a void value cannot be used here"
  | .narrowing s t => "cannot convert " ++ s.text ++ " to " ++ t.text ++ " without loss"
  | .notIntegral t => "operator requires an integral operand, found " ++ t.text

/-- How a value reaches the type of the place it is stored into. -/
inductive Coercion where
  | identity
  | widen
  | constantNarrow
  deriving DecidableEq, Repr

namespace Coercion

def isConversion (c : Coercion) : Bool := c != .identity

def name : Coercion → String
  | .identity => "identity"
  | .widen => "widen"
  | .constantNarrow => "constant_narrow"

end Coercion

namespace Ty

/-- A type whose values can be used. -/
def needValue (t : Ty) : Except Misfit Ty :=
  if t.isVoid then .error .voidOperand else .ok t

/-- Common type of the operands and type of the result of a binary operator. -/
def binaryResult (op : BinaryOp) (l r : Ty) : Except Misfit (Ty × Ty) :=
  match l.join r with
  | none => .error .voidOperand
  | some t => .ok (t, if op.isComparison then truth else t)

/-- Type of a logical operator, whose operands may have two types. -/
def logicalResult (l r : Ty) : Except Misfit Ty :=
  match l.needValue with
  | .error e => .error e
  | .ok _ =>
    match r.needValue with
    | .error e => .error e
    | .ok _ => .ok truth

/-- Signs keep the type of the operand and negation yields a truth value. -/
def signResult (op : SignOp) (t : Ty) : Except Misfit Ty :=
  match t.needValue with
  | .error e => .error e
  | .ok t =>
    match op with
    | .plus | .minus => .ok t
    | .not => .ok truth

/-- Only integral variables can be stepped. -/
def updateResult (t : Ty) : Except Misfit Ty :=
  match t.needValue with
  | .error e => .error e
  | .ok t => if t.isIntegral then .ok t else .error (.notIntegral t)

/-- Type of an integer literal: `int` where the value fits and no suffix asks for `long`. -/
def ofLiteral (n : Int) (suffixed : Bool) : Ty :=
  if !suffixed && (Scalar.long (Int64.ofInt n)).fits .int then .int else .long

end Ty

namespace Coercion

/-- How a value of type `source`, whose constant value is known if it has one, is stored into a
place of type `target`. -/
def between (narrowing : Bool) (source target : Ty) (constant : Option Scalar) :
    Except Misfit Coercion :=
  match source.needValue with
  | .error e => .error e
  | .ok _ =>
    match target.needValue with
    | .error e => .error e
    | .ok _ =>
      if source = target then .ok .identity
      else if source.widensTo target then .ok .widen
      else
        match constant with
        | some v =>
          if narrowing && source.isIntegral && target.isIntegral && v.fits target then
            .ok .constantNarrow
          else .error (.narrowing source target)
        | none => .error (.narrowing source target)

end Coercion

end Cascade
