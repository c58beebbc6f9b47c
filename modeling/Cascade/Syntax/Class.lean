import Cascade.Syntax.Stmt

/-!
# Cascade.Syntax.Class

Classes with their members. A program is one root class; the other classes are nested in it.

* `ClassDecl.preorder` is the order in which everything in a program is numbered: a class, then
  its nested classes one after another, each with all that is nested in it.
-/

namespace Cascade.Syntax

structure FieldDecl where
  name : Ident
  ty : Ty
  init : Option Expr
  span : Span

/-- A method; methods have no parameters. -/
structure MethodDecl where
  name : Ident
  returns : Ty
  body : List Stmt
  span : Span

structure ClassDecl where
  name : Ident
  fields : List FieldDecl
  methods : List MethodDecl
  nested : List ClassDecl
  span : Span

/-- A program is its root class. -/
abbrev Program := ClassDecl

mutual

/-- A class and all classes below it, each before what is nested in it. -/
def ClassDecl.preorder : ClassDecl → List ClassDecl
  | ⟨name, fields, methods, nested, span⟩ =>
    ⟨name, fields, methods, nested, span⟩ :: ClassDecl.preorderAll nested

def ClassDecl.preorderAll : List ClassDecl → List ClassDecl
  | [] => []
  | c :: cs => c.preorder ++ ClassDecl.preorderAll cs

end

def ClassDecl.count (c : ClassDecl) : Nat := c.preorder.length

/-- All fields of a program in the order of their numbers. -/
def Program.fields (p : Program) : List FieldDecl := p.preorder.flatMap ClassDecl.fields

def Program.methods (p : Program) : List MethodDecl := p.preorder.flatMap ClassDecl.methods

end Cascade.Syntax
