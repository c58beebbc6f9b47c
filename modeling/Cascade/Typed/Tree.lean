import Cascade.Catalog.Basic
import Cascade.Operator
import Cascade.Scalar
import Cascade.Scope

/-!
# Cascade.Typed.Tree

Typed programs. Every expression carries its type, every name is replaced by the storage or the
method that it stands for, and every implicit conversion is a node of its own, so nothing is left
to look up.
-/

namespace Cascade.Typed

inductive Place where
  | slot (n : Slot)
  | field (f : FieldId)
  deriving DecidableEq, Repr, Inhabited

inductive Expr where
  | const (value : Scalar) (ty : Ty) (span : Span)
  | load (place : Place) (ty : Ty) (span : Span)
  /-- Conversion of the operand to the type of the node. -/
  | convert (operand : Expr) (ty : Ty) (span : Span)
  | unary (op : UnaryOp) (operand : Expr) (ty : Ty) (span : Span)
  | binary (op : BinaryOp) (left right : Expr) (ty : Ty) (span : Span)
  | logical (op : LogicalOp) (left right : Expr) (ty : Ty) (span : Span)
  /-- Add to a place; the value is the new one if `before`, else the old one. -/
  | update (place : Place) (delta : Int) (before : Bool) (ty : Ty) (span : Span)
  | assign (place : Place) (value : Expr) (ty : Ty) (span : Span)
  | call (method : MethodId) (ty : Ty) (span : Span)
  | print (value : Expr) (ty : Ty) (span : Span)
  | printBlank (ty : Ty) (span : Span)
  deriving Inhabited

namespace Expr

def ty : Expr → Ty
  | .const _ t _ => t
  | .load _ t _ => t
  | .convert _ t _ => t
  | .unary _ _ t _ => t
  | .binary _ _ _ t _ => t
  | .logical _ _ _ t _ => t
  | .update _ _ _ t _ => t
  | .assign _ _ t _ => t
  | .call _ t _ => t
  | .print _ t _ => t
  | .printBlank t _ => t

def span : Expr → Span
  | .const _ _ s => s
  | .load _ _ s => s
  | .convert _ _ s => s
  | .unary _ _ _ s => s
  | .binary _ _ _ _ s => s
  | .logical _ _ _ _ s => s
  | .update _ _ _ _ s => s
  | .assign _ _ _ s => s
  | .call _ _ s => s
  | .print _ _ s => s
  | .printBlank _ s => s

def withSpan (s : Span) : Expr → Expr
  | .const v t _ => .const v t s
  | .load p t _ => .load p t s
  | .convert e t _ => .convert e t s
  | .unary o e t _ => .unary o e t s
  | .binary o l r t _ => .binary o l r t s
  | .logical o l r t _ => .logical o l r t s
  | .update p d b t _ => .update p d b t s
  | .assign p e t _ => .assign p e t s
  | .call m t _ => .call m t s
  | .print e t _ => .print e t s
  | .printBlank t _ => .printBlank t s

def ofScalar (v : Scalar) (span : Span) : Expr := .const v v.ty span

def cast (e : Expr) (t : Ty) : Expr := if e.ty = t then e else .convert e t e.span

end Expr

mutual

inductive Stmt where
  | block (body : List Stmt)
  /-- Give a local variable its first value, zero if none is written. -/
  | declare (slot : Slot) (init : Option Expr)
  | expr (e : Expr)
  /-- The scrutinee is converted to `compare`, the type of the comparison with the labels. -/
  | switch (scrutinee : Expr) (compare : Ty) (cases : List Case)
  /-- Leaves the innermost switch. -/
  | leave
  | ret (value : Option Expr)

/-- A case with its label; the default has none. -/
inductive Case where
  | mk (label : Option Int) (body : List Stmt)

end

instance : Inhabited Stmt := ⟨.leave⟩

namespace Case

def label : Case → Option Int
  | .mk l _ => l

def body : Case → List Stmt
  | .mk _ b => b

def isDefault (c : Case) : Bool := c.label.isNone

end Case

/-- A field with its dotted name and its initial value, which has the type of the field. -/
structure Field where
  id : FieldId
  name : String
  ty : Ty
  init : Option Expr
  span : Span

structure Method where
  id : MethodId
  name : String
  returns : Ty
  locals : List Local
  body : List Stmt
  span : Span

structure Program where
  name : String
  fields : List Field
  methods : List Method
  entry : MethodId

def Program.method? (p : Program) (name : String) : Option MethodId :=
  p.methods.findIdx? fun m => m.name == name

end Cascade.Typed
