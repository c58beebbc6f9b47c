import Cascade.Typing.Expr

/-!
# Cascade.Proofs.Typing.Parens

Parentheses group and mean nothing else. An expression without any of its parentheses is typed as
the same tree, or it is rejected for the same reason.

They are looked through in two places: an expression in parentheses is typed as what stands in
them, and a target is freed from its parentheses before it is looked at. The one thing that still
tells them apart is where an error points, since an update of an ill-typed target points at the
target as it is written.

* `Expr.bare`: an expression without its parentheses, at any depth.
* `Rejection.moveTo`: the same error at another place.
* `Alike`: the same value, or the same error at some place.
* `typeTarget_bare`, `typeExpr_bare`: targets and expressions; `parens_unseen`: all of it.
-/

namespace Cascade

/-- The same error, as if it were found at another place. -/
def Rejection.moveTo (s : Span) : Rejection → Rejection
  | .duplicateDeclaration n o _ => .duplicateDeclaration n o s
  | .duplicateClass n o _ => .duplicateClass n o s
  | .duplicateMember c n o _ => .duplicateMember c n o s
  | .unresolvedAccess p r _ => .unresolvedAccess p r s
  | .memberNotFound c n k _ => .memberNotFound c n k s
  | .methodNotFound c n _ => .methodNotFound c n s
  | .typeMismatch e a _ => .typeMismatch e a s
  | .invalidTarget _ => .invalidTarget s
  | .undefinedVariable n _ => .undefinedVariable n s
  | .argumentCount n e a _ => .argumentCount n e a s
  | .duplicateLabel v o _ => .duplicateLabel v o s
  | .duplicateDefault o _ => .duplicateDefault o s
  | .invalidLabel _ => .invalidLabel s
  | .breakOutsideSwitch _ => .breakOutsideSwitch s
  | .missingReturn n t _ => .missingReturn n t s
  | .missingEntry c n _ => .missingEntry c n s
  | .denied (.unreachableCode _) => .denied (.unreachableCode s)
  | .denied (.shadowedVariable n o _) => .denied (.shadowedVariable n o s)

namespace Rejection

@[simp] theorem moveTo_span (e : Rejection) : e.moveTo e.span = e := by
  cases e with
  | denied w => cases w <;> rfl
  | _ => rfl

@[simp] theorem message_moveTo (e : Rejection) (s : Span) : (e.moveTo s).message = e.message := by
  cases e with
  | denied w => cases w <;> rfl
  | _ => rfl

@[simp] theorem code_moveTo (e : Rejection) (s : Span) : (e.moveTo s).code = e.code := by
  cases e with
  | denied w => cases w <;> rfl
  | _ => rfl

end Rejection

namespace Syntax

mutual

/-- The expression without its parentheses. All else stays, the spans included. -/
def Expr.bare : Expr → Expr
  | .int n suffixed span => .int n suffixed span
  | .float x span => .float x span
  | .name id => .name id
  | .path p => .path p
  | .sign op operand span => .sign op operand.bare span
  | .update op before target span => .update op before target.bare span
  | .binary op left right span => .binary op left.bare right.bare span
  | .logical op left right span => .logical op left.bare right.bare span
  | .assign target value span => .assign target.bare value.bare span
  | .call callee args span => .call callee (bareArgs args) span
  | .paren inner _ => inner.bare

def bareArgs : List Expr → List Expr
  | [] => []
  | e :: es => e.bare :: bareArgs es

end

theorem bareArgs_length (args : List Expr) : (bareArgs args).length = args.length := by
  induction args with
  | nil => rw [bareArgs]
  | cons e es ih => rw [bareArgs, List.length_cons, List.length_cons, ih]

theorem Expr.stripParens_ne (e inner : Expr) (span : Span) : e.stripParens ≠ .paren inner span := by
  fun_induction Expr.stripParens e with
  | case1 e span' ih => exact ih
  | case2 e he => exact fun h => he inner span h

theorem Expr.stripParens_bare (e : Expr) : e.bare.stripParens = e.stripParens.bare := by
  fun_induction Expr.stripParens e with
  | case1 e span ih => rw [Expr.bare, ih]
  | case2 e he =>
    cases e with
    | paren inner span => exact absurd rfl (he inner span)
    | _ => simp only [Expr.bare, Expr.stripParens]

end Syntax

namespace Typing

open Syntax

/-- The same value, or the same error up to its place. -/
inductive Alike {α : Type} :
    Except (Failure Rejection) α → Except (Failure Rejection) α → Prop where
  | ok (v : α) : Alike (.ok v) (.ok v)
  | error (e : Failure Rejection) (s : Span) : Alike (.error e) (.error (e.map (·.moveTo s)))

theorem Alike.refl {α : Type} (r : Except (Failure Rejection) α) : Alike r r := by
  cases r with
  | ok v => exact .ok v
  | error e =>
    cases e with
    | stray s => exact .error (.stray s) .zero
    | rejected e =>
      have h : Alike (.error (.rejected e) : Except (Failure Rejection) α)
          (.error (.rejected (e.moveTo e.span))) := .error (.rejected e) e.span
      rwa [e.moveTo_span] at h

theorem mismatch_alike {α : Type} (e : Misfit) (s s' : Span) :
    Alike (.error (.rejected (mismatch e s)) : Except (Failure Rejection) α)
      (.error (.rejected (mismatch e s'))) := by
  have h : mismatch e s' = (mismatch e s).moveTo s' := by cases e <;> rfl
  rw [h]
  exact .error (.rejected _) s'

variable {cx : Context} {scopes : Scopes}

theorem typeTarget_bare (target : Expr) :
    typeTarget cx scopes target.bare = typeTarget cx scopes target := by
  unfold typeTarget
  rw [Expr.stripParens_bare]
  have hne := target.stripParens_ne
  generalize target.stripParens = t at hne ⊢
  cases t with
  | paren inner span => exact absurd rfl (hne inner span)
  | _ => simp only [Expr.bare, Expr.span]

mutual

theorem typeExpr_bare : ∀ e : Expr, Alike (typeExpr cx scopes e) (typeExpr cx scopes e.bare)
  | .int n suffixed span => by
    simp only [Expr.bare]
    exact .refl _
  | .float x span => by
    simp only [Expr.bare]
    exact .refl _
  | .name id => by
    simp only [Expr.bare]
    exact .refl _
  | .path p => by
    simp only [Expr.bare]
    exact .refl _
  | .sign op operand span => by
    simp only [Expr.bare, typeExpr]
    have h := typeExpr_bare operand
    generalize typeExpr cx scopes operand = r, typeExpr cx scopes operand.bare = r' at h
    cases h with
    | ok v => exact .refl _
    | error e s => exact .error e s
  | .update op before target span => by
    simp only [Expr.bare, typeExpr, typeTarget_bare]
    split
    · exact .refl _
    · split
      · exact mismatch_alike _ _ _
      · exact .refl _
  | .binary op left right span => by
    simp only [Expr.bare, typeExpr]
    have hl := typeExpr_bare left
    have hr := typeExpr_bare right
    generalize typeExpr cx scopes left = l, typeExpr cx scopes left.bare = l' at hl
    generalize typeExpr cx scopes right = r, typeExpr cx scopes right.bare = r' at hr
    cases hl with
    | error e s => exact .error e s
    | ok v =>
      cases hr with
      | error e s => exact .error e s
      | ok w => exact .refl _
  | .logical op left right span => by
    simp only [Expr.bare, typeExpr]
    have hl := typeExpr_bare left
    have hr := typeExpr_bare right
    generalize typeExpr cx scopes left = l, typeExpr cx scopes left.bare = l' at hl
    generalize typeExpr cx scopes right = r, typeExpr cx scopes right.bare = r' at hr
    cases hl with
    | error e s => exact .error e s
    | ok v =>
      dsimp only
      cases needValue v with
      | error e => exact .refl _
      | ok v =>
        cases hr with
        | error e s => exact .error e s
        | ok w => exact .refl _
  | .assign target value span => by
    simp only [Expr.bare, typeExpr, typeTarget_bare]
    have hv := typeExpr_bare value
    generalize typeExpr cx scopes value = v, typeExpr cx scopes value.bare = v' at hv
    cases typeTarget cx scopes target with
    | error e => exact .refl _
    | ok place =>
      cases hv with
      | error e s => exact .error e s
      | ok w => exact .refl _
  | .call callee args span => by
    simp only [Expr.bare, typeExpr, bareArgs_length]
    split
    · exact .refl _
    · exact .refl _
    · exact typePrint_bare span args
  | .paren inner span => by
    simp only [Expr.bare, typeExpr]
    exact typeExpr_bare inner

theorem typePrint_bare (span : Span) : ∀ args : List Expr,
    Alike (typePrint cx scopes span args) (typePrint cx scopes span (bareArgs args))
  | [] => by
    simp only [bareArgs]
    exact .refl _
  | [arg] => by
    simp only [bareArgs, typePrint]
    have h := typeExpr_bare arg
    generalize typeExpr cx scopes arg = r, typeExpr cx scopes arg.bare = r' at h
    cases h with
    | error e s => exact .error e s
    | ok v => exact .refl _
  | a :: b :: rest => by
    simp only [bareArgs, typePrint, List.length_cons, bareArgs_length]
    exact .refl _

end

/-- A value is fitted to a place alike with and without its parentheses: a constant in parentheses
may be narrowed if it may be without them. -/
theorem fit_bare (e : Expr) (t : Ty) :
    Alike ((typeExpr cx scopes e).bind (fit cx.settings · t))
      ((typeExpr cx scopes e.bare).bind (fit cx.settings · t)) := by
  have h : Alike (typeExpr cx scopes e) (typeExpr cx scopes e.bare) := typeExpr_bare e
  generalize typeExpr cx scopes e = r, typeExpr cx scopes e.bare = r' at h
  cases h with
  | error e s => exact .error e s
  | ok v => exact .refl _

/-- With and without its parentheses an expression is typed as the same tree, or rejected by the
same error, though perhaps at another place, or a look-up in the table of the classes fails alike.
The same places are targets, and the same values fit them. -/
theorem parens_unseen (cx : Context) (scopes : Scopes) (e : Expr) :
    ((∃ t, typeExpr cx scopes e = .ok t ∧ typeExpr cx scopes e.bare = .ok t) ∨
      (∃ r s, typeExpr cx scopes e = .error (.rejected r) ∧
        typeExpr cx scopes e.bare = .error (.rejected (r.moveTo s)) ∧
        (r.moveTo s).message = r.message ∧ (r.moveTo s).code = r.code) ∨
      ∃ s, typeExpr cx scopes e = .error (.stray s) ∧
        typeExpr cx scopes e.bare = .error (.stray s)) ∧
    typeTarget cx scopes e.bare = typeTarget cx scopes e ∧
    ∀ t : Ty, Alike ((typeExpr cx scopes e).bind (fit cx.settings · t))
      ((typeExpr cx scopes e.bare).bind (fit cx.settings · t)) := by
  refine ⟨?_, typeTarget_bare e, fit_bare e⟩
  have h : Alike (typeExpr cx scopes e) (typeExpr cx scopes e.bare) := typeExpr_bare e
  generalize typeExpr cx scopes e = r, typeExpr cx scopes e.bare = r' at h
  cases h with
  | ok v => exact .inl ⟨v, rfl, rfl⟩
  | error e s =>
    cases e with
    | rejected e => exact .inr (.inl ⟨e, s, rfl, rfl, e.message_moveTo s, e.code_moveTo s⟩)
    | stray s => exact .inr (.inr ⟨s, rfl, rfl⟩)

end Typing
end Cascade
