import Cascade.Operator
import Cascade.Span

/-!
# Cascade.Syntax.Expr

Expressions as they are written, with a span on every node. Parentheses are kept; a rule that
looks through them asks for `Expr.stripParens`.
-/

namespace Cascade.Syntax

structure Ident where
  name : String
  span : Span
  deriving DecidableEq, Repr, Inhabited

/-- A dotted path such as `Main.A.foo`. -/
structure Path where
  segments : List Ident
  span : Span
  deriving DecidableEq, Repr, Inhabited

namespace Path

/-- The path names a class and not only a member. -/
def isQualified (p : Path) : Bool := 1 < p.segments.length

def dotted (p : Path) : String := String.intercalate "." (p.segments.map Ident.name)

end Path

inductive Expr where
  /-- An integer literal; `suffixed` tells whether it ends in `L`. -/
  | int (value : Int) (suffixed : Bool) (span : Span)
  | float (value : Float) (span : Span)
  | name (id : Ident)
  | path (p : Path)
  | sign (op : SignOp) (operand : Expr) (span : Span)
  /-- Increment or decrement, written before or after its target. -/
  | update (op : UpdateOp) (before : Bool) (target : Expr) (span : Span)
  | binary (op : BinaryOp) (left right : Expr) (span : Span)
  | logical (op : LogicalOp) (left right : Expr) (span : Span)
  | assign (target value : Expr) (span : Span)
  | call (callee : Path) (args : List Expr) (span : Span)
  | paren (inner : Expr) (span : Span)
  deriving Inhabited

namespace Expr

def span : Expr → Span
  | .int _ _ s => s
  | .float _ s => s
  | .name id => id.span
  | .path p => p.span
  | .sign _ _ s => s
  | .update _ _ _ s => s
  | .binary _ _ _ s => s
  | .logical _ _ _ s => s
  | .assign _ _ s => s
  | .call _ _ s => s
  | .paren _ s => s

def isLiteral : Expr → Bool
  | .int .. | .float .. => true
  | _ => false

def stripParens : Expr → Expr
  | .paren e _ => e.stripParens
  | e => e

end Expr

end Cascade.Syntax
