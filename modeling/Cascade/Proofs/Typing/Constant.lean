import Cascade.Proofs.Typing.Expr

/-!
# Cascade.Proofs.Typing.Constant

Accepted expressions with a constant value. Such a tree names neither storage nor a method, so it
is well typed against every signature, whatever the scopes are in which it was accepted.
-/

namespace Cascade.Typing

open Syntax

variable {g : Signature} {slots : List Ty} {v : Scalar}

theorem constant?_withSpan (s : Span) (e : Typed.Expr) :
    (e.withSpan s).constant? = e.constant? := by
  cases e <;> rfl

theorem constant?_cast {e : Typed.Expr} {t : Ty} (h : (e.cast t).constant? = some v) :
    ∃ w, e.constant? = some w := by
  unfold Typed.Expr.cast at h
  split at h
  · exact ⟨v, h⟩
  · simp only [Typed.Expr.constant?] at h
    split at h
    · exact ⟨_, ‹_›⟩
    · cases h

theorem constant?_unary {op : UnaryOp} {e : Typed.Expr} {t : Ty} {span : Span}
    (h : (Typed.Expr.unary op e t span).constant? = some v) : ∃ w, e.constant? = some w := by
  simp only [Typed.Expr.constant?] at h
  split at h
  · exact ⟨_, ‹_›⟩
  · cases h

theorem constant?_binary {op : BinaryOp} {l r : Typed.Expr} {t : Ty} {span : Span}
    (h : (Typed.Expr.binary op l r t span).constant? = some v) :
    ∃ a b, l.constant? = some a ∧ r.constant? = some b := by
  simp only [Typed.Expr.constant?] at h
  split at h
  · exact ⟨_, _, ‹_›, ‹_›⟩
  · cases h

theorem constant?_logical {op : LogicalOp} {l r : Typed.Expr} {t : Ty} {span : Span}
    (h : (Typed.Expr.logical op l r t span).constant? = some v) :
    ∃ a b, l.constant? = some a ∧ r.constant? = some b := by
  simp only [Typed.Expr.constant?] at h
  split at h
  · exact ⟨_, _, ‹_›, ‹_›⟩
  · cases h

theorem typeSign_constant {op : SignOp} {e t : Typed.Expr} {span : Span}
    (h : typeSign op e span = .ok t) (hv : t.constant? = some v) :
    ∃ w, e.constant? = some w := by
  unfold typeSign at h
  split at h
  · cases h
  cases op with
  | plus => cases h; exact ⟨v, (constant?_withSpan span e).symm.trans hv⟩
  | minus => cases h; exact constant?_unary hv
  | not => cases h; exact constant?_unary hv

theorem typeBinary_constant {op : BinaryOp} {l r t : Typed.Expr} {span : Span}
    (h : typeBinary op l r span = .ok t) (hv : t.constant? = some v) :
    ∃ a b, l.constant? = some a ∧ r.constant? = some b := by
  unfold typeBinary at h
  split at h
  · cases h
  cases h
  obtain ⟨a, b, ha, hb⟩ := constant?_binary hv
  obtain ⟨a', ha'⟩ := constant?_cast ha
  obtain ⟨b', hb'⟩ := constant?_cast hb
  exact ⟨a', b', ha', hb'⟩

theorem typePrint_constant {cx : Context} {scopes : Scopes} {span : Span} {args : List Expr}
    {t : Typed.Expr} (h : typePrint cx scopes span args = .ok t) : t.constant? = none := by
  match args with
  | [] => simp only [typePrint] at h; cases h; rfl
  | [arg] =>
    simp only [typePrint] at h
    repeat' split at h
    all_goals cases h
    rfl
  | _ :: _ :: _ => simp only [typePrint] at h; cases h

/-- An accepted expression with a constant value is well typed everywhere. -/
theorem typeExpr_constant {cx : Context} {scopes : Scopes} : ∀ (e : Expr) {t : Typed.Expr}
    {v : Scalar}, typeExpr cx scopes e = .ok t → t.constant? = some v → t.WellTyped g slots
  | .int n suffixed span, t, v, h, _ => by simp only [typeExpr] at h; cases h; exact .const
  | .float x span, t, v, h, _ => by simp only [typeExpr] at h; cases h; exact .const
  | .name id, t, v, h, hv => by
    simp only [typeExpr] at h
    split at h
    · cases h
    · cases h; cases hv
  | .path p, t, v, h, hv => by
    simp only [typeExpr] at h
    split at h
    · cases h
    · cases h; cases hv
  | .sign op operand span, t, v, h, hv => by
    simp only [typeExpr] at h
    split at h
    · cases h
    rename_i he
    obtain ⟨w, hw⟩ := typeSign_constant h hv
    exact typeSign_wellTyped (typeExpr_constant operand he hw) h
  | .update op before target span, t, v, h, hv => by
    simp only [typeExpr] at h
    split at h
    · cases h
    split at h
    · cases h
    cases h
    cases hv
  | .binary op left right span, t, v, h, hv => by
    simp only [typeExpr] at h
    split at h
    · cases h
    rename_i hl
    split at h
    · cases h
    rename_i hr
    obtain ⟨a, b, ha, hb⟩ := typeBinary_constant h hv
    exact typeBinary_wellTyped (typeExpr_constant left hl ha) (typeExpr_constant right hr hb) h
  | .logical op left right span, t, v, h, hv => by
    simp only [typeExpr] at h
    split at h
    · cases h
    rename_i hl
    split at h
    · cases h
    rename_i hnl
    split at h
    · cases h
    rename_i hr
    split at h
    · cases h
    rename_i hnr
    cases h
    obtain ⟨rfl, hnl⟩ := needValue_ok hnl
    obtain ⟨rfl, hnr⟩ := needValue_ok hnr
    obtain ⟨a, b, ha, hb⟩ := constant?_logical hv
    exact .logical (typeExpr_constant left hl ha) (typeExpr_constant right hr hb) hnl hnr
  | .assign target value span, t, v, h, hv => by
    simp only [typeExpr] at h
    split at h
    · cases h
    split at h
    · cases h
    split at h
    · cases h
    cases h
    cases hv
  | .call callee args span, t, v, h, hv => by
    simp only [typeExpr] at h
    split at h
    · cases h
    · unfold typeMethodCall at h
      repeat' split at h
      all_goals cases h
      cases hv
    · rw [typePrint_constant h] at hv
      cases hv
  | .paren inner _, t, v, h, hv => by
    simp only [typeExpr] at h
    exact typeExpr_constant inner h hv

end Cascade.Typing
