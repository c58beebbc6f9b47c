import Cascade.Proofs.Typing.Agree

/-!
# Cascade.Proofs.Typing.Wider

Wider rules: a switch may bind a name again, or a constant may be narrowed, where neither was
allowed. Whatever was accepted before is accepted still, and becomes the same tree.

* `Settings.Widens`: settings whose rules are wider than those of others.
* `typeExpr_wider`: expressions under wider rules.
* `Within`: a result beside the one that wider rules give; after it, all of typing that reads the
  scopes and changes nothing.
-/

namespace Cascade

/-- The same scopes, with the policy of some settings. -/
def Scopes.under (s : Scopes) (settings : Settings) : Scopes :=
  ⟨settings.switchRedeclaration, s.inner, s.outer, s.made, s.locals⟩

namespace Settings

/-- Each of the two choices by which typing accepts more or less is made as before, unless it was
made in the way that accepts less. -/
structure Widens (s s' : Settings) : Prop where
  policy : s.switchRedeclaration = .reject ∨ s'.switchRedeclaration = s.switchRedeclaration
  narrowing : s.constantNarrowing = false ∨ s'.constantNarrowing = s.constantNarrowing

structure SameRules (s s' : Settings) : Prop where
  policy : s'.switchRedeclaration = s.switchRedeclaration
  narrowing : s'.constantNarrowing = s.constantNarrowing

theorem SameRules.widens {s s' : Settings} (h : s.SameRules s') : s.Widens s' :=
  ⟨.inr h.policy, .inr h.narrowing⟩

end Settings

theorem Scopes.under_same {s s' : Settings} (h : s.SameRules s') (scopes : Scopes) :
    scopes.under s' = scopes.under s := by
  rw [under, under, h.policy]

theorem Coercion.between_wider {source target : Ty} {constant : Option Scalar} {c : Coercion}
    (h : between false source target constant = .ok c) (narrowing : Bool) :
    between narrowing source target constant = .ok c := by
  unfold between at h ⊢
  split at h
  · cases h
  split at h
  · cases h
  split at h
  · rwa [if_pos ‹_›]
  split at h
  · rwa [if_neg ‹_›, if_pos ‹_›]
  -- only a constant is left, and it was not to be narrowed
  split at h
  · simp only [Bool.false_and, Bool.false_eq_true, if_false] at h
    cases h
  · cases h

namespace Typing

open Syntax

def Context.under (cx : Context) (settings : Settings) : Context :=
  ⟨cx.table, settings, cx.owner, cx.returns⟩

variable {cx : Context} {s s' : Settings}

@[simp] theorem Context.under_settings : (cx.under s).settings = s := rfl

theorem Context.under_same (h : s.SameRules s') : (cx.under s).SameValues (cx.under s') :=
  ⟨rfl, rfl, h.narrowing⟩

/-! ## Expressions -/

theorem fit_congr (h : s'.constantNarrowing = s.constantNarrowing) (e : Typed.Expr) (t : Ty) :
    fit s' e t = fit s e t := by
  rw [fit, fit, h]

theorem fit_wider (h : s.Widens s') {e v : Typed.Expr} {t : Ty} (hok : fit s e t = .ok v) :
    fit s' e t = .ok v := by
  obtain hfalse | hs := h.narrowing
  · unfold fit at hok ⊢
    rw [hfalse] at hok
    split at hok
    · cases hok
    rename_i hc
    rw [Coercion.between_wider hc]
    exact hok
  · rw [fit_congr hs, hok]

theorem typeTarget_under (scopes : Scopes) (target : Expr) :
    typeTarget (cx.under s') (scopes.under s') target =
      typeTarget (cx.under s) (scopes.under s) target :=
  rfl

theorem resolveCallee_under (callee : Path) :
    resolveCallee (cx.under s') callee = resolveCallee (cx.under s) callee :=
  rfl

mutual

theorem typeExpr_wider (h : s.Widens s') (scopes : Scopes) : ∀ (e : Expr) {t : Typed.Expr},
    typeExpr (cx.under s) (scopes.under s) e = .ok t →
      typeExpr (cx.under s') (scopes.under s') e = .ok t
  | .int n suffixed span, t, hok => by
    simp only [typeExpr] at hok ⊢
    exact hok
  | .float x span, t, hok => by
    simp only [typeExpr] at hok ⊢
    exact hok
  | .name id, t, hok => by
    simp only [typeExpr] at hok ⊢
    exact hok
  | .path q, t, hok => by
    simp only [typeExpr] at hok ⊢
    exact hok
  | .sign op operand span, t, hok => by
    simp only [typeExpr] at hok ⊢
    split at hok
    · cases hok
    rename_i he
    rw [typeExpr_wider h scopes operand he]
    exact hok
  | .update op before target span, t, hok => by
    simp only [typeExpr] at hok ⊢
    exact hok
  | .binary op left right span, t, hok => by
    simp only [typeExpr] at hok ⊢
    split at hok
    · cases hok
    rename_i hl
    split at hok
    · cases hok
    rename_i hr
    rw [typeExpr_wider h scopes left hl]
    dsimp only
    rw [typeExpr_wider h scopes right hr]
    exact hok
  | .logical op left right span, t, hok => by
    simp only [typeExpr] at hok ⊢
    split at hok
    · cases hok
    rename_i hl
    rw [typeExpr_wider h scopes left hl]
    dsimp only
    split at hok
    · cases hok
    split at hok
    · cases hok
    rename_i hr
    rw [typeExpr_wider h scopes right hr]
    exact hok
  | .assign target value span, t, hok => by
    simp only [typeExpr, @typeTarget_under cx s s', Context.under_settings] at hok ⊢
    split at hok
    · cases hok
    split at hok
    · cases hok
    rename_i hv
    rw [typeExpr_wider h scopes value hv]
    split at hok
    · cases hok
    rename_i hf
    rw [fit_wider h hf]
    exact hok
  | .call callee args span, t, hok => by
    simp only [typeExpr, @resolveCallee_under cx s s'] at hok ⊢
    split at hok
    · cases hok
    · exact hok
    · exact typePrint_wider h scopes span args hok
  | .paren inner span, t, hok => by
    simp only [typeExpr] at hok ⊢
    exact typeExpr_wider h scopes inner hok

theorem typePrint_wider (h : s.Widens s') (scopes : Scopes) (span : Span) :
    ∀ (args : List Expr) {t : Typed.Expr},
      typePrint (cx.under s) (scopes.under s) span args = .ok t →
        typePrint (cx.under s') (scopes.under s') span args = .ok t
  | [], t, hok => by
    simp only [typePrint] at hok ⊢
    exact hok
  | [arg], t, hok => by
    simp only [typePrint] at hok ⊢
    split at hok
    · cases hok
    rename_i hv
    rw [typeExpr_wider h scopes arg hv]
    exact hok
  | _ :: _ :: _, t, hok => by
    simp only [typePrint] at hok ⊢
    exact hok

end

/-! ## Everything else that changes no state -/

/-- A result beside the one under other settings. What succeeds goes on to do so, and if the rules
are the same, nothing changes at all. -/
structure Within {α : Type} (s s' : Settings) (r r' : Except (Failure Rejection) α) : Prop where
  ok : ∀ {a : α}, r = .ok a → r' = .ok a
  same : s.SameRules s' → r' = r

/-- What a switch says before its cases: the scrutinee, the labels, and the type in which these are
compared. -/
def typeHead (cx : Context) (scopes : Scopes) (scrutinee : Expr) (cases : List Case) :
    Except (Failure Rejection) (Typed.Expr × List (Option Int) × Ty) :=
  match typeExpr cx scopes scrutinee with
  | .error e => .error e
  | .ok e =>
    match needIntegral e with
    | .error e => .error e
    | .ok e =>
      match typeLabels cx scopes ⟨[], none, e.ty⟩ cases with
      | .error e => .error e
      | .ok (labels, compare) => .ok (e, labels, compare)

variable (h : s.Widens s') (scopes : Scopes)
include h

theorem typeExpr_within (e : Expr) :
    Within s s' (typeExpr (cx.under s) (scopes.under s) e)
      (typeExpr (cx.under s') (scopes.under s') e) :=
  ⟨typeExpr_wider h scopes e, fun hs => by
    rw [Scopes.under_same hs, typeExpr_same (Context.under_same hs)]⟩

theorem typeInit_within (t : Ty) (init : Option Expr) :
    Within s s' (typeInit (cx.under s) (scopes.under s) t init)
      (typeInit (cx.under s') (scopes.under s') t init) := by
  refine ⟨fun hok => ?_, fun hs => ?_⟩
  · cases init with
    | none => exact hok
    | some e =>
      simp only [typeInit, Context.under_settings] at hok ⊢
      split at hok
      · cases hok
      rename_i hv
      rw [typeExpr_wider h scopes e hv]
      split at hok
      · cases hok
      rename_i hf
      rw [fit_wider h hf]
      exact hok
  · rw [Scopes.under_same hs, typeInit_same (Context.under_same hs)]

theorem typeReturn_within (value : Option Expr) (span : Span) :
    Within s s' (typeReturn (cx.under s) (scopes.under s) value span)
      (typeReturn (cx.under s') (scopes.under s') value span) := by
  refine ⟨fun hok => ?_, fun hs => ?_⟩
  · cases value with
    | none => exact hok
    | some e =>
      simp only [typeReturn, Context.under_settings] at hok ⊢
      split at hok
      · cases hok
      rename_i hv
      rw [typeExpr_wider h scopes e hv]
      split at hok
      · cases hok
      rename_i hvoid
      split at hok
      · cases hok
      rename_i v hf
      have hf' : fit s' _ (cx.under s').returns = .ok v := fit_wider h hf
      refine (if_neg hvoid).trans ?_
      rw [hf']
      exact hok
  · simp only [typeReturn, Scopes.under_same hs, typeExpr_same (Context.under_same hs),
      Context.under_settings, fit_congr hs.narrowing]
    rfl

theorem typeLabel_wider {test : Expr} {r : Typed.Expr × Int}
    (hok : typeLabel (cx.under s) (scopes.under s) test = .ok r) :
    typeLabel (cx.under s') (scopes.under s') test = .ok r := by
  unfold typeLabel at hok ⊢
  split at hok
  · cases hok
  rename_i he
  rw [typeExpr_wider h scopes test he]
  exact hok

theorem typeLabels_wider : ∀ (cs : List Case) (ls : Labels) {r : List (Option Int) × Ty},
    typeLabels (cx.under s) (scopes.under s) ls cs = .ok r →
      typeLabels (cx.under s') (scopes.under s') ls cs = .ok r := by
  intro cs
  induction cs with
  | nil => exact fun ls r hok => hok
  | cons c cs ih =>
    intro ls r hok
    simp only [typeLabels] at hok ⊢
    split at hok
    · split at hok
      · cases hok
      split at hok
      · cases hok
      rename_i hrest
      rw [ih _ hrest]
      exact hok
    · rename_i test _
      split at hok
      · cases hok
      rename_i hl
      rw [typeLabel_wider h scopes hl]
      split at hok
      · cases hok
      rename_i hnone
      split at hok
      · cases hok
      rename_i hrest
      dsimp only
      rw [hnone]
      dsimp only
      rw [ih _ hrest]
      exact hok

theorem typeHead_within (scrutinee : Expr) (cases : List Case) :
    Within s s' (typeHead (cx.under s) (scopes.under s) scrutinee cases)
      (typeHead (cx.under s') (scopes.under s') scrutinee cases) := by
  refine ⟨fun hok => ?_, fun hs => ?_⟩
  · unfold typeHead at hok ⊢
    split at hok
    · cases hok
    rename_i he
    rw [typeExpr_wider h scopes scrutinee he]
    dsimp only
    split at hok
    · cases hok
    split at hok
    · cases hok
    rename_i hl
    rw [typeLabels_wider h scopes cases _ hl]
    exact hok
  · simp only [typeHead, Scopes.under_same hs, typeExpr_same (Context.under_same hs),
      typeLabels_same (Context.under_same hs)]

end Typing
end Cascade
