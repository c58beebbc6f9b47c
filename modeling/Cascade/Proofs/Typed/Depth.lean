import Cascade.Proofs.Typed.Eval

/-!
# Cascade.Proofs.Typed.Depth

The bound on the depth of calls only matters where it is exceeded: an answer that does not stop for
it is the answer for every larger bound.

* `Answer.Stays`: one answer repeats another, unless that one stopped at the bound.
* `evalProgram_evaluates`: what evaluation gives for one bound is the answer of the program.
-/

namespace Cascade.Typed

namespace Answer

variable {α β : Type}

def IsTooDeep (x : Answer α) : Prop := ∃ w, x = .stop .tooDeep w

/-- `y` is the same as `x`, unless `x` stopped at the bound. -/
def Stays (x y : Answer α) : Prop := ¬ x.IsTooDeep → y = x

theorem Stays.refl (x : Answer α) : x.Stays x := fun _ => rfl

theorem Stays.trans {x y z : Answer α} (h : x.Stays y) (h' : y.Stays z) : x.Stays z := by
  intro hx
  have hy := h hx
  subst hy
  exact h' hx

theorem Stays.andThen {x y : Answer α} {f g : α → Answer β} (h : x.Stays y)
    (hf : ∀ a, (f a).Stays (g a)) : (x.andThen f).Stays (y.andThen g) := by
  intro hx
  cases x with
  | done a =>
    rw [h (by rintro ⟨w, hw⟩; cases hw)]
    exact hf a hx
  | stop why w =>
    rw [h (by rintro ⟨w', hw⟩; cases hw; exact hx ⟨w, rfl⟩)]
    rfl

theorem Stays.value {x y : Answer (Option Scalar × Memory)} (h : x.Stays y) :
    x.value.Stays y.value := by
  intro hx
  rw [h]
  rintro ⟨w, rfl⟩
  exact hx ⟨w, rfl⟩

end Answer

variable {calls calls' : Calls} {slots : List Ty}

/-- Where calls stay as they are, so do expressions. -/
theorem evalExpr_stays (h : ∀ m w, (calls m w).Stays (calls' m w)) (e : Expr) :
    ∀ μ, (evalExpr calls e μ).Stays (evalExpr calls' e μ) := by
  induction e with
  | const | load | update | printBlank => exact fun μ => .refl _
  | convert e _ _ ih | unary _ e _ _ ih | assign _ e _ _ ih | print e _ _ ih =>
    intro μ
    exact (ih μ).value.andThen fun _ => .refl _
  | binary _ l r _ _ ihl ihr =>
    intro μ
    exact (ihl μ).value.andThen fun a => (ihr a.2).value.andThen fun _ => .refl _
  | logical op l r _ _ ihl ihr =>
    intro μ
    refine (ihl μ).value.andThen fun a => ?_
    dsimp only
    split
    · exact .refl _
    · exact (ihr a.2).value.andThen fun _ => .refl _
  | call m _ _ =>
    intro μ
    exact (h m μ.world).andThen fun _ => .refl _

theorem evalSwitch_stays {cases : List Case} {run run' : Nat → Memory → Answer (Flow × Memory)}
    (h : ∀ i μ, (run i μ).Stays (run' i μ)) (v : Scalar) (μ : Memory) :
    (evalSwitch cases run v μ).Stays (evalSwitch cases run' v μ) := by
  unfold evalSwitch
  split
  · exact .refl _
  · split
    · exact .refl _
    · exact (h _ μ).andThen fun _ => .refl _

theorem evalDeclare_stays (h : ∀ m w, (calls m w).Stays (calls' m w)) (slot : Slot)
    (init : Option Expr) (μ : Memory) :
    (evalDeclare calls slots slot init μ).Stays (evalDeclare calls' slots slot init μ) := by
  cases init with
  | none => exact .refl _
  | some e => exact (evalExpr_stays h e μ).value.andThen fun _ => .refl _

theorem evalReturn_stays (h : ∀ m w, (calls m w).Stays (calls' m w)) (value : Option Expr)
    (μ : Memory) : (evalReturn calls value μ).Stays (evalReturn calls' value μ) := by
  cases value with
  | none => exact .refl _
  | some e => exact (evalExpr_stays h e μ).value.andThen fun _ => .refl _

mutual

theorem evalStmt_stays (h : ∀ m w, (calls m w).Stays (calls' m w)) : ∀ (s : Stmt) (μ : Memory),
    (evalStmt calls slots s μ).Stays (evalStmt calls' slots s μ)
  | .block body, μ => evalList_stays h body μ
  | .declare slot init, μ => evalDeclare_stays h slot init μ
  | .expr e, μ => (evalExpr_stays h e μ).andThen fun _ => .refl _
  | .switch scrutinee _ cases, μ =>
    (evalExpr_stays h scrutinee μ).value.andThen fun v =>
      evalSwitch_stays (evalCases_stays h cases) v.1 v.2
  | .leave, _ => .refl _
  | .ret value, μ => evalReturn_stays h value μ

theorem evalList_stays (h : ∀ m w, (calls m w).Stays (calls' m w)) :
    ∀ (ss : List Stmt) (μ : Memory),
    (evalList calls slots ss μ).Stays (evalList calls' slots ss μ)
  | [], _ => .refl _
  | s :: ss, μ => (evalStmt_stays h s μ).andThen fun
    | (.normal, μ) => evalList_stays h ss μ
    | (.leave, _) => .refl _
    | (.ret _, _) => .refl _

theorem evalCases_stays (h : ∀ m w, (calls m w).Stays (calls' m w)) :
    ∀ (cs : List Case) (skip : Nat) (μ : Memory),
    (evalCases calls slots cs skip μ).Stays (evalCases calls' slots cs skip μ)
  | [], _, _ => .refl _
  | .mk _ _ :: cs, skip + 1, μ => evalCases_stays h cs skip μ
  | .mk _ body :: cs, 0, μ => (evalList_stays h body μ).andThen fun
    | (.normal, μ) => evalCases_stays h cs 0 μ
    | (.leave, _) => .refl _
    | (.ret _, _) => .refl _

end

theorem evalBody_stays (h : ∀ m w, (calls m w).Stays (calls' m w)) (m : Method) (w : World) :
    (evalBody calls m w).Stays (evalBody calls' m w) := by
  unfold evalBody
  split
  · exact .refl _
  · exact (evalList_stays h m.body _).andThen fun _ => .refl _

theorem evalInits_stays (h : ∀ m w, (calls m w).Stays (calls' m w)) :
    ∀ (fs : List Field) (i : Nat) (w : World),
    (evalInits calls i fs w).Stays (evalInits calls' i fs w) := by
  intro fs
  induction fs with
  | nil =>
    intro i w
    exact .refl _
  | cons f fs ih =>
    intro i w
    unfold evalInits
    split
    · exact ih (i + 1) w
    · exact (evalExpr_stays h _ _).value.andThen fun v => ih (i + 1) _

/-- One more level of calls changes no answer that did not need it. -/
theorem evalCall_stays (p : Program) (depth : Nat) :
    ∀ id w, (evalCall p depth id w).Stays (evalCall p (depth + 1) id w) := by
  induction depth with
  | zero => exact fun id w h => absurd ⟨w, rfl⟩ h
  | succ depth ih =>
    intro id w
    rw [evalCall, evalCall]
    split
    · exact .refl _
    · exact evalBody_stays ih _ w

theorem evalCall_stays_le (p : Program) {depth n : Nat} (hle : depth ≤ n) (id : MethodId)
    (w : World) : (evalCall p depth id w).Stays (evalCall p n id w) := by
  induction hle with
  | refl => exact .refl _
  | @step n _ ih => exact ih.trans (evalCall_stays p n id w)

/-- Evaluation to a depth gives the answer of a program, if the depth is not exceeded. Fields may
have been given their first values to a smaller depth. -/
theorem evalProgram_evaluates {p : Program} {zs : List Scalar}
    (hzs : zeros? (p.fields.map Field.ty) = some zs) {inner depth : Nat} (hle : inner ≤ depth)
    {x : Answer (Option Scalar × World)}
    (hx : (evalInits (evalCall p inner) 0 p.fields ⟨zs, #[]⟩).andThen
      (fun w => evalCall p depth p.entry w) = x) (hdeep : ¬ x.IsTooDeep) : Evaluates p x := by
  refine ⟨depth, fun n hn => ?_⟩
  subst hx
  simp only [evalProgram, hzs]
  exact Answer.Stays.andThen
    (evalInits_stays (evalCall_stays_le p (Nat.le_trans hle hn)) p.fields 0 _)
    (fun w => evalCall_stays_le p hn p.entry w) hdeep

end Cascade.Typed
