import Cascade.Typed.Tree

/-!
# Cascade.Typed.Constant

Constant values of typed expressions. An expression has one if it is made of literals alone and
no operation in it fails; both operands of a logical operator count, whether or not the left one
decides.
-/

namespace Cascade.Typed.Expr

def constant? : Expr → Option Scalar
  | .const v _ _ => some v
  | .convert e t _ =>
    match e.constant? with
    | some v => v.convert t
    | none => none
  | .unary op e _ _ =>
    match e.constant? with
    | some v => some (Scalar.unary op v)
    | none => none
  | .binary op l r _ _ =>
    match l.constant?, r.constant? with
    | some a, some b => (Scalar.binary op a b).toOption
    | _, _ => none
  | .logical op l r _ _ =>
    match l.constant?, r.constant? with
    | some a, some b => some (Scalar.ofBool (op.combine a.isTrue b.isTrue))
    | _, _ => none
  | .load .. | .update .. | .assign .. | .call .. | .print .. | .printBlank .. => none

def label? (e : Expr) : Option Int :=
  if e.ty.isIntegral then
    match e.constant? with
    | some v => v.toInt?
    | none => none
  else none

end Cascade.Typed.Expr
