import Cascade.Typing.Expr
import Cascade.Typed.Flow

/-!
# Cascade.Typing.Stmt

Typing of statements. A block opens a scope; all cases of a switch share one. What follows a
`return` or a `break` in a list is typed and then dropped, and the first such statement of a list
is reported.

* Whatever happens in a list of statements, the scope that was innermost before is innermost again
  afterwards, and as many switches are open as before.
-/

namespace Cascade.Typing

open Syntax

structure State where
  scopes : Scopes
  /-- How many switches are open. -/
  depth : Nat
  warnings : List Warning
  deriving DecidableEq, Repr

def State.start (settings : Settings) : State := ⟨.start settings.switchRedeclaration, 0, []⟩

/-- Typing ends with a result or an error, and in a state either way. -/
abbrev Outcome (α : Type) := Except (Failure Rejection) α × State

/-- Report a warning, unless it is switched off, or fail where it is fatal. -/
def report (cx : Context) (st : State) (w : Warning) : Outcome Unit :=
  if !cx.settings.warnings.isReported w.kind then (.ok (), st)
  else if cx.settings.warnings.isFatal w.kind then (.error (.rejected (.denied w)), st)
  else (.ok (), ⟨st.scopes, st.depth, st.warnings ++ [w]⟩)

inductive Reach where
  /-- Control can get here. -/
  | live
  /-- Control cannot get here, and that is not yet reported. -/
  | dead
  | reported
  deriving DecidableEq, Repr

def typeInit (cx : Context) (scopes : Scopes) (ty : Ty) :
    Option Expr → Except (Failure Rejection) (Option Typed.Expr)
  | none => .ok none
  | some init =>
    match typeExpr cx scopes init with
    | .error e => .error e
    | .ok v =>
      match fit cx.settings v ty with
      | .error e => .error e
      | .ok v => .ok (some v)

/-- A declaration. The variable is not yet visible in its own initial value. -/
def typeDeclare (cx : Context) (st : State) (ty : Ty) (name : Ident) (init : Option Expr) :
    Outcome Typed.Stmt :=
  if ty.isVoid then
    (.error (.rejected (.typeMismatch "a numeric variable type" Ty.void.text name.span)), st)
  else
    match typeInit cx st.scopes ty init with
    | .error e => (.error e, st)
    | .ok init =>
      match st.scopes.declare name.name ty name.span with
      | .error earlier =>
        (.error (.rejected (.duplicateDeclaration name.name earlier.span name.span)), st)
      | .ok (scopes, declared) =>
        let st : State := ⟨scopes, st.depth, st.warnings⟩
        match declared.hides with
        | none => (.ok (.declare declared.slot init), st)
        | some earlier =>
          match report cx st (.shadowedVariable name.name earlier name.span) with
          | (.error e, st) => (.error e, st)
          | (.ok (), st) => (.ok (.declare declared.slot init), st)

def typeReturn (cx : Context) (scopes : Scopes) (value : Option Expr) (span : Span) :
    Except (Failure Rejection) Typed.Stmt :=
  match value with
  | none =>
    if cx.returns.isVoid then .ok (.ret none)
    else .error (.rejected (.typeMismatch cx.returns.text Ty.void.text span))
  | some value =>
    match typeExpr cx scopes value with
    | .error e => .error e
    | .ok v =>
      if cx.returns.isVoid then
        .error (.rejected (.typeMismatch Ty.void.text v.ty.text v.span))
      else
        match fit cx.settings v cx.returns with
        | .error e => .error e
        | .ok v => .ok (.ret (some v))

structure Labels where
  /-- Labels with their places. -/
  seen : List (Int × Span)
  default? : Option Span
  /-- Common type of the scrutinee and the labels. -/
  compare : Ty

def typeLabel (cx : Context) (scopes : Scopes) (test : Expr) :
    Except (Failure Rejection) (Typed.Expr × Int) :=
  match typeExpr cx scopes test with
  | .error e => .error e
  | .ok e =>
    match needIntegral e with
    | .error err => .error err
    | .ok e =>
      match e.label? with
      | none => .error (.rejected (.invalidLabel e.span))
      | some n => .ok (e, n)

/-- The labels of the cases of a switch, no two of them equal, and their common type. -/
def typeLabels (cx : Context) (scopes : Scopes) (ls : Labels) :
    List Case → Except (Failure Rejection) (List (Option Int) × Ty)
  | [] => .ok ([], ls.compare)
  | c :: cs =>
    match c.test with
    | none =>
      match ls.default? with
      | some earlier => .error (.rejected (.duplicateDefault earlier c.span))
      | none =>
        match typeLabels cx scopes ⟨ls.seen, some c.span, ls.compare⟩ cs with
        | .error e => .error e
        | .ok (rest, compare) => .ok (none :: rest, compare)
    | some test =>
      match typeLabel cx scopes test with
      | .error e => .error e
      | .ok (e, n) =>
        match ls.seen.lookup n with
        | some earlier => .error (.rejected (.duplicateLabel n earlier e.span))
        | none =>
          let compare := (ls.compare.join e.ty).getD ls.compare
          match typeLabels cx scopes ⟨(n, e.span) :: ls.seen, ls.default?, compare⟩ cs with
          | .error e => .error e
          | .ok (rest, compare) => .ok (some n :: rest, compare)

def State.enter (st : State) (kind : ScopeKind) : State :=
  ⟨st.scopes.push kind, if kind = .switch then st.depth + 1 else st.depth, st.warnings⟩

def State.exit (st : State) (kind : ScopeKind) : State :=
  ⟨st.scopes.pop, if kind = .switch then st.depth - 1 else st.depth, st.warnings⟩

mutual

def typeStmt (cx : Context) (st : State) : Stmt → Outcome Typed.Stmt
  | .block body _ =>
    match typeList cx (st.enter .block) .live body with
    | (.error e, st) => (.error e, st.exit .block)
    | (.ok body, st) => (.ok (.block body), st.exit .block)
  | .declare ty name init _ => typeDeclare cx st ty name init
  | .expr e _ =>
    match typeExpr cx st.scopes e with
    | .error e => (.error e, st)
    | .ok e => (.ok (.expr e), st)
  | .switch scrutinee cases _ =>
    match typeExpr cx st.scopes scrutinee with
    | .error e => (.error e, st)
    | .ok e =>
      match needIntegral e with
      | .error err => (.error err, st)
      | .ok e =>
        match typeLabels cx st.scopes ⟨[], none, e.ty⟩ cases with
        | .error err => (.error err, st)
        | .ok (labels, compare) =>
          match typeBodies cx (st.enter .switch) cases with
          | (.error err, st) => (.error err, st.exit .switch)
          | (.ok bodies, st) =>
            (.ok (.switch (e.cast compare) compare (labels.zipWith .mk bodies)),
              st.exit .switch)
  | .leave span =>
    if st.depth = 0 then (.error (.rejected (.breakOutsideSwitch span)), st) else (.ok .leave, st)
  | .ret value span => (typeReturn cx st.scopes value span, st)
  | .empty _ => (.ok (.block []), st)

def typeList (cx : Context) (st : State) (reach : Reach) :
    List Stmt → Outcome (List Typed.Stmt)
  | [] => (.ok [], st)
  | s :: ss =>
    match typeStmt cx st s with
    | (.error e, st) => (.error e, st)
    | (.ok t, st) =>
      match reach with
      | .live =>
        match typeList cx st (if t.completes then .live else .dead) ss with
        | (.error e, st) => (.error e, st)
        | (.ok ts, st) => (.ok (t :: ts), st)
      | .dead =>
        if s.isEmpty then typeList cx st .dead ss
        else
          match report cx st (.unreachableCode s.span) with
          | (.error e, st) => (.error e, st)
          | (.ok (), st) => typeList cx st .reported ss
      | .reported => typeList cx st .reported ss

def typeBodies (cx : Context) (st : State) : List Case → Outcome (List (List Typed.Stmt))
  | [] => (.ok [], st)
  | .mk _ body _ :: cs =>
    match typeList cx st .live body with
    | (.error e, st) => (.error e, st)
    | (.ok b, st) =>
      match typeBodies cx st cs with
      | (.error e, st) => (.error e, st)
      | (.ok bs, st) => (.ok (b :: bs), st)

end

def typeBody (cx : Context) (st : State) (body : List Stmt) : Outcome (List Typed.Stmt) :=
  typeList cx st .live body

end Cascade.Typing
