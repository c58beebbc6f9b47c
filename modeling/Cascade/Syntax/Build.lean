import Cascade.Syntax.Class

/-!
# Cascade.Syntax.Build

Programs put together by hand. Their nodes stand for no text, so every span is zero.
-/

namespace Cascade.Syntax.Build

def ident (name : String) : Ident := ⟨name, .zero⟩

def pathOf (segments : List String) : Path := ⟨segments.map ident, .zero⟩

/-! ## Expressions -/

def int (n : Int) : Expr := .int n false .zero

def long (n : Int) : Expr := .int n true .zero

def float (x : Float) : Expr := .float x .zero

def name (s : String) : Expr := .name (ident s)

def path (segments : List String) : Expr := .path (pathOf segments)

def paren (e : Expr) : Expr := .paren e .zero

def sign (op : SignOp) (e : Expr) : Expr := .sign op e .zero

def neg (e : Expr) : Expr := sign .minus e

def not (e : Expr) : Expr := sign .not e

def preIncrement (e : Expr) : Expr := .update .increment true e .zero

def postIncrement (e : Expr) : Expr := .update .increment false e .zero

def preDecrement (e : Expr) : Expr := .update .decrement true e .zero

def postDecrement (e : Expr) : Expr := .update .decrement false e .zero

def binary (op : BinaryOp) (l r : Expr) : Expr := .binary op l r .zero

def logical (op : LogicalOp) (l r : Expr) : Expr := .logical op l r .zero

def assign (target value : Expr) : Expr := .assign target value .zero

def call (callee : List String) (args : List Expr) : Expr := .call (pathOf callee) args .zero

def printCall (e : Expr) : Expr := call ["println"] [e]

/-! ## Statements -/

def block (body : List Stmt) : Stmt := .block body .zero

def declare (ty : Ty) (name : String) (init : Option Expr) : Stmt :=
  .declare ty (ident name) init .zero

def expr (e : Expr) : Stmt := .expr e .zero

def print (e : Expr) : Stmt := expr (printCall e)

def switch (e : Expr) (cases : List Case) : Stmt := .switch e cases .zero

def case (test : Expr) (body : List Stmt) : Case := .mk (some test) body .zero

def otherwise (body : List Stmt) : Case := .mk none body .zero

def leave : Stmt := .leave .zero

def ret (e : Expr) : Stmt := .ret (some e) .zero

def retNone : Stmt := .ret none .zero

def empty : Stmt := .empty .zero

/-! ## Classes -/

def field (ty : Ty) (name : String) (init : Option Expr) : FieldDecl :=
  ⟨ident name, ty, init, .zero⟩

def method (returns : Ty) (name : String) (body : List Stmt) : MethodDecl :=
  ⟨ident name, returns, body, .zero⟩

def emptyClass (name : String) : ClassDecl := ⟨ident name, [], [], [], .zero⟩

def withField (c : ClassDecl) (f : FieldDecl) : ClassDecl :=
  ⟨c.name, c.fields ++ [f], c.methods, c.nested, c.span⟩

def withMethod (c : ClassDecl) (m : MethodDecl) : ClassDecl :=
  ⟨c.name, c.fields, c.methods ++ [m], c.nested, c.span⟩

def withNested (c d : ClassDecl) : ClassDecl :=
  ⟨c.name, c.fields, c.methods, c.nested ++ [d], c.span⟩

end Cascade.Syntax.Build
