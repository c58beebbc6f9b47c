import Cascade.Catalog.Path
import Cascade.Coercion
import Cascade.Settings.Basic
import Cascade.Typed.Constant

/-!
# Cascade.Typing.Expr

Typing of expressions. A name that is written alone is a local variable, or else a field of the
class itself; a call of a name alone is a method of the class itself, or else the output routine.
Everything else has to be spelled from the root class.

* `typeExpr` reads the scopes and changes nothing.
* Parentheses are looked through wherever an expression or a target stands.
-/

namespace Cascade.Typing

open Syntax

structure Context where
  table : Catalog
  settings : Settings
  /-- The class whose members can be named alone. -/
  owner : ClassId
  /-- What a `return` has to give. -/
  returns : Ty

def printName : String := "println"

def mismatch (e : Misfit) (span : Span) : Rejection :=
  match e with
  | .voidOperand => .typeMismatch "a numeric value" Ty.void.text span
  | .narrowing source target => .typeMismatch target.text source.text span
  | .notIntegral found => .typeMismatch "an integral type" found.text span

def fit (settings : Settings) (value : Typed.Expr) (target : Ty) :
    Except (Failure Rejection) Typed.Expr :=
  match Coercion.between settings.constantNarrowing value.ty target value.constant? with
  | .error e => .error (.rejected (mismatch e value.span))
  | .ok _ => .ok (value.cast target)

def needValue (e : Typed.Expr) : Except (Failure Rejection) Typed.Expr :=
  match e.ty.needValue with
  | .error err => .error (.rejected (mismatch err e.span))
  | .ok _ => .ok e

def needIntegral (e : Typed.Expr) : Except (Failure Rejection) Typed.Expr :=
  match needValue e with
  | .error err => .error err
  | .ok e =>
    if e.ty.isIntegral then .ok e
    else .error (.rejected (.typeMismatch "an integral type" e.ty.text e.span))

def literal (n : Int) (suffixed : Bool) : Scalar :=
  match Ty.ofLiteral n suffixed with
  | .int => .int (Int32.ofInt n)
  | _ => .long (Int64.ofInt n)

def resolveName (cx : Context) (scopes : Scopes) (id : Ident) :
    Except (Failure Rejection) (Typed.Place × Ty) :=
  match scopes.lookup id.name with
  | some b => .ok (.slot b.slot, b.ty)
  | none =>
    match cx.table.lookup .field cx.owner id.name with
    | .error s => .error (.stray s)
    | .ok (some f) => .ok (.field f.id, f.ty)
    | .ok none => .error (.rejected (.undefinedVariable id.name id.span))

def resolvePath (cx : Context) (p : Path) : Except (Failure Rejection) (Typed.Place × Ty) :=
  match cx.table.pathMember .field p with
  | .error e => .error e
  | .ok i =>
    match cx.table.memberAt .field i with
    | .error s => .error (.stray s)
    | .ok f => .ok (.field i, f.ty)

def typeTarget (cx : Context) (scopes : Scopes) (target : Expr) :
    Except (Failure Rejection) (Typed.Place × Ty) :=
  match target.stripParens with
  | .name id => resolveName cx scopes id
  | .path p => resolvePath cx p
  | other => .error (.rejected (.invalidTarget other.span))

inductive Callee where
  | method (m : MethodId)
  | print
  deriving DecidableEq, Repr

def resolveCallee (cx : Context) (p : Path) : Except (Failure Rejection) Callee :=
  if p.isQualified then
    match cx.table.pathMember .method p with
    | .error e => .error e
    | .ok m => .ok (.method m)
  else
    let name := match p.segments with
      | [] => ""
      | s :: _ => s.name
    match cx.table.lookup .method cx.owner name with
    | .error s => .error (.stray s)
    | .ok (some m) => .ok (.method m.id)
    | .ok none =>
      if name = printName then .ok .print
      else cx.table.naming cx.owner fun owner => .methodNotFound owner name p.span

/-- A call of a method; methods take no arguments. -/
def typeMethodCall (cx : Context) (m : MethodId) (args : Nat) (span : Span) :
    Except (Failure Rejection) Typed.Expr :=
  match cx.table.memberAt .method m with
  | .error s => .error (.stray s)
  | .ok e =>
    if args = 0 then .ok (.call m e.ty span)
    else
      match cx.table.memberName .method m with
      | .error s => .error (.stray s)
      | .ok name => .error (.rejected (.argumentCount name "0" args span))

/-- A sign before an operand; a plus leaves the operand as it is. -/
def typeSign (op : SignOp) (e : Typed.Expr) (span : Span) : Except (Failure Rejection) Typed.Expr :=
  match Ty.signResult op e.ty with
  | .error err => .error (.rejected (mismatch err e.span))
  | .ok ty =>
    match op with
    | .plus => .ok (e.withSpan span)
    | .minus => .ok (.unary .neg e ty span)
    | .not => .ok (.unary .not e ty span)

def typeBinary (op : BinaryOp) (l r : Typed.Expr) (span : Span) :
    Except (Failure Rejection) Typed.Expr :=
  match Ty.binaryResult op l.ty r.ty with
  | .error err => .error (.rejected (mismatch err (if l.ty.isVoid then l.span else r.span)))
  | .ok (operand, result) =>
    .ok (.binary op (l.cast operand) (r.cast operand) result span)

mutual

def typeExpr (cx : Context) (scopes : Scopes) : Expr → Except (Failure Rejection) Typed.Expr
  | .int n suffixed span => .ok (.ofScalar (literal n suffixed) span)
  | .float x span => .ok (.ofScalar (.double x) span)
  | .name id =>
    match resolveName cx scopes id with
    | .error e => .error e
    | .ok (place, ty) => .ok (.load place ty id.span)
  | .path p =>
    match resolvePath cx p with
    | .error e => .error e
    | .ok (place, ty) => .ok (.load place ty p.span)
  | .sign op operand span =>
    match typeExpr cx scopes operand with
    | .error e => .error e
    | .ok e => typeSign op e span
  | .update op before target span =>
    match typeTarget cx scopes target with
    | .error e => .error e
    | .ok (place, ty) =>
      match ty.updateResult with
      | .error err => .error (.rejected (mismatch err target.span))
      | .ok ty => .ok (.update place op.delta before ty span)
  | .binary op left right span =>
    match typeExpr cx scopes left with
    | .error e => .error e
    | .ok l =>
      match typeExpr cx scopes right with
      | .error e => .error e
      | .ok r => typeBinary op l r span
  | .logical op left right span =>
    match typeExpr cx scopes left with
    | .error e => .error e
    | .ok l =>
      match needValue l with
      | .error e => .error e
      | .ok l =>
        match typeExpr cx scopes right with
        | .error e => .error e
        | .ok r =>
          match needValue r with
          | .error e => .error e
          | .ok r => .ok (.logical op l r .truth span)
  | .assign target value span =>
    match typeTarget cx scopes target with
    | .error e => .error e
    | .ok (place, ty) =>
      match typeExpr cx scopes value with
      | .error e => .error e
      | .ok v =>
        match fit cx.settings v ty with
        | .error e => .error e
        | .ok v => .ok (.assign place v ty span)
  | .call callee args span =>
    match resolveCallee cx callee with
    | .error e => .error e
    | .ok (.method m) => typeMethodCall cx m args.length span
    | .ok .print => typePrint cx scopes span args
  | .paren inner _ => typeExpr cx scopes inner

/-- Type a call of the output routine, which prints one value or an empty line. -/
def typePrint (cx : Context) (scopes : Scopes) (span : Span) :
    List Expr → Except (Failure Rejection) Typed.Expr
  | [] => .ok (.printBlank .void span)
  | [arg] =>
    match typeExpr cx scopes arg with
    | .error e => .error e
    | .ok v =>
      match needValue v with
      | .error e => .error e
      | .ok v => .ok (.print v .void span)
  | args => .error (.rejected (.argumentCount printName "0 or 1" args.length span))

end

end Cascade.Typing
