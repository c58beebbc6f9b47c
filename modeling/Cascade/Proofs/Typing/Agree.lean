import Cascade.Typing.Program

/-!
# Cascade.Proofs.Typing.Agree

What typing looks at. The type of an expression depends on the table of classes, on the class that
it stands in and on one of the settings, and that of a statement on the result of its method and on
the settings for warnings as well.

* `Context.SameValues`, `typeExpr_same`: contexts in which expressions are typed alike.
* `Context.Same`, `typeBody_same`: contexts in which statements are typed alike.
-/

namespace Cascade.Typing

open Syntax

/-- Two contexts that agree on what expressions depend on. -/
structure Context.SameValues (cx cx' : Context) : Prop where
  table : cx'.table = cx.table
  owner : cx'.owner = cx.owner
  narrowing : cx'.settings.constantNarrowing = cx.settings.constantNarrowing

/-- Two contexts that agree on what statements depend on. -/
structure Context.Same (cx cx' : Context) : Prop extends Context.SameValues cx cx' where
  returns : cx'.returns = cx.returns
  warnings : cx'.settings.warnings = cx.settings.warnings

variable {cx cx' : Context}

/-! ## Expressions -/

section

variable (h : cx.SameValues cx')
include h

theorem fit_same (e : Typed.Expr) (t : Ty) : fit cx'.settings e t = fit cx.settings e t := by
  rw [fit, fit, h.narrowing]

theorem resolveName_same (scopes : Scopes) (id : Ident) :
    resolveName cx' scopes id = resolveName cx scopes id := by
  rw [resolveName, resolveName, h.table, h.owner]

theorem resolvePath_same (p : Path) : resolvePath cx' p = resolvePath cx p := by
  rw [resolvePath, resolvePath, h.table]

theorem typeTarget_same (scopes : Scopes) (target : Expr) :
    typeTarget cx' scopes target = typeTarget cx scopes target := by
  unfold typeTarget
  split
  · exact resolveName_same h scopes _
  · exact resolvePath_same h _
  · rfl

theorem resolveCallee_same (p : Path) : resolveCallee cx' p = resolveCallee cx p := by
  rw [resolveCallee, resolveCallee, h.table, h.owner]

theorem typeMethodCall_same (m : MethodId) (args : Nat) (span : Span) :
    typeMethodCall cx' m args span = typeMethodCall cx m args span := by
  rw [typeMethodCall, typeMethodCall, h.table]

end

mutual

theorem typeExpr_same (h : cx.SameValues cx') (scopes : Scopes) :
    ∀ e : Expr, typeExpr cx' scopes e = typeExpr cx scopes e
  | .int n suffixed span => by simp only [typeExpr]
  | .float x span => by simp only [typeExpr]
  | .name id => by simp only [typeExpr, resolveName_same h]
  | .path p => by simp only [typeExpr, resolvePath_same h]
  | .sign op operand span => by simp only [typeExpr, typeExpr_same h scopes operand]
  | .update op before target span => by simp only [typeExpr, typeTarget_same h]
  | .binary op left right span => by
    simp only [typeExpr, typeExpr_same h scopes left, typeExpr_same h scopes right]
  | .logical op left right span => by
    simp only [typeExpr, typeExpr_same h scopes left, typeExpr_same h scopes right]
  | .assign target value span => by
    simp only [typeExpr, typeTarget_same h, typeExpr_same h scopes value, fit_same h]
  | .call callee args span => by
    simp only [typeExpr, resolveCallee_same h, typeMethodCall_same h,
      typePrint_same h scopes span args]
  | .paren inner span => by simp only [typeExpr, typeExpr_same h scopes inner]

theorem typePrint_same (h : cx.SameValues cx') (scopes : Scopes) (span : Span) :
    ∀ args : List Expr, typePrint cx' scopes span args = typePrint cx scopes span args
  | [] => by simp only [typePrint]
  | [arg] => by simp only [typePrint, typeExpr_same h scopes arg]
  | _ :: _ :: _ => by simp only [typePrint]

end

section

variable (h : cx.SameValues cx')
include h

theorem typeInit_same (scopes : Scopes) (t : Ty) (init : Option Expr) :
    typeInit cx' scopes t init = typeInit cx scopes t init := by
  cases init with
  | none => rfl
  | some e => simp only [typeInit, typeExpr_same h, fit_same h]

theorem typeLabel_same (scopes : Scopes) (test : Expr) :
    typeLabel cx' scopes test = typeLabel cx scopes test := by
  simp only [typeLabel, typeExpr_same h]

theorem typeLabels_same (scopes : Scopes) : ∀ (ls : Labels) (cs : List Case),
    typeLabels cx' scopes ls cs = typeLabels cx scopes ls cs := by
  intro ls cs
  induction cs generalizing ls with
  | nil => rfl
  | cons c cs ih => simp only [typeLabels, typeLabel_same h, ih]

end

/-! ## Statements -/

section

variable (h : cx.Same cx')
include h

theorem report_same (st : State) (w : Warning) : report cx' st w = report cx st w := by
  rw [report, report, h.warnings]

theorem typeDeclare_same (st : State) (t : Ty) (name : Ident) (init : Option Expr) :
    typeDeclare cx' st t name init = typeDeclare cx st t name init := by
  simp only [typeDeclare, typeInit_same h.toSameValues, report_same h]

theorem typeReturn_same (scopes : Scopes) (value : Option Expr) (span : Span) :
    typeReturn cx' scopes value span = typeReturn cx scopes value span := by
  simp only [typeReturn, typeExpr_same h.toSameValues, fit_same h.toSameValues, h.returns]

end

mutual

theorem typeStmt_same (h : cx.Same cx') :
    ∀ (st : State) (s : Stmt), typeStmt cx' st s = typeStmt cx st s
  | st, .block body span => by simp only [typeStmt, typeList_same h _ _ body]
  | st, .declare t name init span => by simp only [typeStmt, typeDeclare_same h]
  | st, .expr e span => by simp only [typeStmt, typeExpr_same h.toSameValues]
  | st, .switch scrutinee cases span => by
    simp only [typeStmt, typeExpr_same h.toSameValues, typeLabels_same h.toSameValues,
      typeBodies_same h _ cases]
  | st, .leave span => by simp only [typeStmt]
  | st, .ret value span => by simp only [typeStmt, typeReturn_same h]
  | st, .empty span => by simp only [typeStmt]

theorem typeList_same (h : cx.Same cx') : ∀ (st : State) (reach : Reach) (ss : List Stmt),
    typeList cx' st reach ss = typeList cx st reach ss
  | st, reach, [] => by simp only [typeList]
  | st, reach, s :: ss => by
    simp only [typeList, typeStmt_same h _ s, typeList_same h _ _ ss, report_same h]

theorem typeBodies_same (h : cx.Same cx') : ∀ (st : State) (cs : List Case),
    typeBodies cx' st cs = typeBodies cx st cs
  | st, [] => by simp only [typeBodies]
  | st, .mk test body span :: cs => by
    simp only [typeBodies, typeList_same h _ _ body, typeBodies_same h _ cs]

end

theorem typeBody_same (h : cx.Same cx') (st : State) (body : List Stmt) :
    typeBody cx' st body = typeBody cx st body :=
  typeList_same h st .live body

end Cascade.Typing
