import Cascade.Syntax.Expr
import Cascade.Ty

/-!
# Cascade.Syntax.Stmt

Statements as they are written. A switch is a list of cases that fall through into one another;
a case without a test is the default.
-/

namespace Cascade.Syntax

mutual

inductive Stmt where
  | block (body : List Stmt) (span : Span)
  | declare (ty : Ty) (name : Ident) (init : Option Expr) (span : Span)
  | expr (e : Expr) (span : Span)
  | switch (scrutinee : Expr) (cases : List Case) (span : Span)
  /-- Leaves the innermost switch. -/
  | leave (span : Span)
  | ret (value : Option Expr) (span : Span)
  | empty (span : Span)

inductive Case where
  | mk (test : Option Expr) (body : List Stmt) (span : Span)

end

namespace Case

def test : Case → Option Expr
  | .mk t _ _ => t

def body : Case → List Stmt
  | .mk _ b _ => b

def span : Case → Span
  | .mk _ _ s => s

end Case

namespace Stmt

def span : Stmt → Span
  | .block _ s => s
  | .declare _ _ _ s => s
  | .expr _ s => s
  | .switch _ _ s => s
  | .leave s => s
  | .ret _ s => s
  | .empty s => s

def isEmpty : Stmt → Bool
  | .empty _ => true
  | _ => false

end Stmt

end Cascade.Syntax
