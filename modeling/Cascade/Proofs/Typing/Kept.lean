import Cascade.Typing.Stmt

/-!
# Cascade.Proofs.Typing.Kept

Typing that keeps the statements which control cannot get to, each in its place. It reads the same
scopes, fails with the same errors and raises the same warnings.

* `Typed.trimList`: a list without what stands behind a statement that does not complete, and
  likewise for the lists inside it.
* `keepList`: the statements of a list, all of them.
* `typeList_keep`: what typing leaves of a list is the trimmed form of that.
-/

namespace Cascade

namespace Typed

mutual

/-- The statement with every list inside it cut behind the first statement that, itself trimmed,
does not complete. -/
def Stmt.trim : Stmt → Stmt
  | .block body => .block (trimList body)
  | .declare slot init => .declare slot init
  | .expr e => .expr e
  | .switch scrutinee compare cases => .switch scrutinee compare (trimCases cases)
  | .leave => .leave
  | .ret value => .ret value

def trimList : List Stmt → List Stmt
  | [] => []
  | s :: ss => s.trim :: if s.trim.completes then trimList ss else []

def trimCases : List Case → List Case
  | [] => []
  | .mk label body :: cs => .mk label (trimList body) :: trimCases cs

end

theorem trimCases_zipWith : ∀ (labels : List (Option Int)) (bodies : List (List Stmt)),
    trimCases (labels.zipWith .mk bodies) = labels.zipWith .mk (bodies.map trimList)
  | [], _ => rfl
  | _ :: _, [] => rfl
  | l :: ls, b :: bs => congrArg (Case.mk l (trimList b) :: ·) (trimCases_zipWith ls bs)

theorem trimCases_label : ∀ cases : List Case,
    (trimCases cases).map Case.label = cases.map Case.label
  | [] => rfl
  | .mk l _ :: cs => congrArg (l :: ·) (trimCases_label cs)

end Typed

namespace Typing

open Syntax
open Typed (trimList trimCases_zipWith)

/-- Where typing stands behind a statement, which may be the one to report. -/
def follow (cx : Context) (st : State) (reach : Reach) (s : Stmt) (completes : Bool) :
    Outcome Reach :=
  match reach with
  | .live => (.ok (if completes then .live else .dead), st)
  | .dead =>
    if s.isEmpty then (.ok .dead, st)
    else
      match report cx st (.unreachableCode s.span) with
      | (.error e, st) => (.error e, st)
      | (.ok (), st) => (.ok .reported, st)
  | .reported => (.ok .reported, st)

mutual

/-- Type a statement and drop nothing inside it. -/
def keepStmt (cx : Context) (st : State) : Stmt → Outcome Typed.Stmt
  | .block body _ =>
    match keepList cx (st.enter .block) .live body with
    | (.error e, st) => (.error e, st.exit .block)
    | (.ok body, st) => (.ok (.block body), st.exit .block)
  | .declare ty name init _ => typeDeclare cx st ty name init
  | .expr e _ =>
    match typeExpr cx st.scopes e with
    | .error e => (.error e, st)
    | .ok e => (.ok (.expr e), st)
  | .switch scrutinee cases _ =>
    match typeExpr cx st.scopes scrutinee with
    | .error e => (.error e, st)
    | .ok e =>
      match needIntegral e with
      | .error err => (.error err, st)
      | .ok e =>
        match typeLabels cx st.scopes ⟨[], none, e.ty⟩ cases with
        | .error err => (.error err, st)
        | .ok (labels, compare) =>
          match keepBodies cx (st.enter .switch) cases with
          | (.error err, st) => (.error err, st.exit .switch)
          | (.ok bodies, st) =>
            (.ok (.switch (e.cast compare) compare (labels.zipWith .mk bodies)),
              st.exit .switch)
  | .leave span =>
    if st.depth = 0 then (.error (.rejected (.breakOutsideSwitch span)), st) else (.ok .leave, st)
  | .ret value span => (typeReturn cx st.scopes value span, st)
  | .empty _ => (.ok (.block []), st)

/-- Type a list of statements and keep all of them. Which of them control can get to is told by
their trimmed forms. -/
def keepList (cx : Context) (st : State) (reach : Reach) :
    List Stmt → Outcome (List Typed.Stmt)
  | [] => (.ok [], st)
  | s :: ss =>
    match keepStmt cx st s with
    | (.error e, st) => (.error e, st)
    | (.ok t, st) =>
      match follow cx st reach s t.trim.completes with
      | (.error e, st) => (.error e, st)
      | (.ok reach, st) =>
        match keepList cx st reach ss with
        | (.error e, st) => (.error e, st)
        | (.ok ts, st) => (.ok (t :: ts), st)

def keepBodies (cx : Context) (st : State) : List Case → Outcome (List (List Typed.Stmt))
  | [] => (.ok [], st)
  | .mk _ body _ :: cs =>
    match keepList cx st .live body with
    | (.error e, st) => (.error e, st)
    | (.ok b, st) =>
      match keepBodies cx st cs with
      | (.error e, st) => (.error e, st)
      | (.ok bs, st) => (.ok (b :: bs), st)

end

/-- The same outcome with its result changed. -/
def Outcome.map {α β : Type} (f : α → β) (o : Outcome α) : Outcome β :=
  match o with
  | (.error e, st) => (.error e, st)
  | (.ok a, st) => (.ok (f a), st)

/-- What is left of a list whose first statement control can get to, or cannot. -/
def trimFrom (reach : Reach) (ts : List Typed.Stmt) : List Typed.Stmt :=
  match reach with
  | .live => trimList ts
  | .dead | .reported => []

theorem typeDeclare_keep (cx : Context) (st : State) (ty : Ty) (name : Ident)
    (init : Option Expr) :
    typeDeclare cx st ty name init = (typeDeclare cx st ty name init).map Typed.Stmt.trim := by
  unfold typeDeclare
  split
  · rfl
  split
  · rfl
  split
  · rfl
  dsimp only
  split
  · rfl
  split <;> rfl

theorem typeReturn_keep (cx : Context) (st : State) (value : Option Expr) (span : Span) :
    (typeReturn cx st.scopes value span, st) =
      Outcome.map Typed.Stmt.trim (typeReturn cx st.scopes value span, st) := by
  unfold typeReturn
  split
  · split <;> rfl
  · split
    · rfl
    split
    · rfl
    split <;> rfl

mutual

theorem typeStmt_keep (cx : Context) : ∀ (s : Stmt) (st : State),
    typeStmt cx st s = (keepStmt cx st s).map Typed.Stmt.trim
  | .block body _, st => by
    simp only [typeStmt, keepStmt, typeList_keep cx body]
    cases keepList cx (st.enter .block) .live body with
    | mk r st => cases r <;> rfl
  | .declare ty name init _, st => by
    simp only [typeStmt, keepStmt]
    exact typeDeclare_keep cx st ty name init
  | .expr e _, st => by
    simp only [typeStmt, keepStmt]
    cases typeExpr cx st.scopes e <;> rfl
  | .switch scrutinee cases _, st => by
    simp only [typeStmt, keepStmt, typeBodies_keep cx cases]
    cases typeExpr cx st.scopes scrutinee with
    | error e => rfl
    | ok e =>
      dsimp only
      cases needIntegral e with
      | error err => rfl
      | ok e =>
        dsimp only
        cases typeLabels cx st.scopes ⟨[], none, e.ty⟩ cases with
        | error err => rfl
        | ok r =>
          obtain ⟨labels, compare⟩ := r
          dsimp only
          cases keepBodies cx (st.enter .switch) cases with
          | mk r st =>
            cases r with
            | error e => rfl
            | ok bodies => simp only [Outcome.map, Typed.Stmt.trim, trimCases_zipWith]
  | .leave _, st => by
    simp only [typeStmt, keepStmt]
    by_cases hd : st.depth = 0
    · simp only [if_pos hd, Outcome.map]
    · simp only [if_neg hd, Outcome.map, Typed.Stmt.trim]
  | .ret value span, st => by
    simp only [typeStmt, keepStmt]
    exact typeReturn_keep cx st value span
  | .empty _, st => by
    simp only [typeStmt, keepStmt]
    rfl

theorem typeList_keep (cx : Context) : ∀ (ss : List Stmt) (st : State) (reach : Reach),
    typeList cx st reach ss = (keepList cx st reach ss).map (trimFrom reach)
  | [], st, reach => by cases reach <;> rfl
  | s :: ss, st, reach => by
    simp only [typeList, keepList, typeStmt_keep cx s]
    cases keepStmt cx st s with
    | mk r st1 =>
      cases r with
      | error e => rfl
      | ok t =>
        cases reach with
        | live =>
          simp only [Outcome.map, follow, typeList_keep cx ss]
          cases hc : t.trim.completes with
          | false =>
            simp only [Bool.false_eq_true, if_false]
            rcases keepList cx st1 .dead ss with ⟨e | ts, st2⟩
            · rfl
            · simp only [trimFrom, trimList, hc, Bool.false_eq_true, if_false]
          | true =>
            simp only [if_true]
            rcases keepList cx st1 .live ss with ⟨e | ts, st2⟩
            · rfl
            · simp only [trimFrom, trimList, hc, if_true]
        | dead =>
          simp only [Outcome.map, follow, typeList_keep cx ss]
          by_cases hs : s.isEmpty = true
          · simp only [if_pos hs]
            rcases keepList cx st1 .dead ss with ⟨e | ts, st2⟩ <;> rfl
          · simp only [if_neg hs]
            rcases report cx st1 (.unreachableCode s.span) with ⟨e | u, st2⟩
            · rfl
            · dsimp only
              rcases keepList cx st2 .reported ss with ⟨e | ts, st3⟩ <;> rfl
        | reported =>
          simp only [Outcome.map, follow, typeList_keep cx ss]
          rcases keepList cx st1 .reported ss with ⟨e | ts, st2⟩ <;> rfl

theorem typeBodies_keep (cx : Context) : ∀ (cs : List Case) (st : State),
    typeBodies cx st cs = (keepBodies cx st cs).map (List.map trimList)
  | [], st => rfl
  | .mk _ body _ :: cs, st => by
    simp only [typeBodies, keepBodies, typeList_keep cx body]
    cases keepList cx st .live body with
    | mk r st1 =>
      cases r with
      | error e => rfl
      | ok b =>
        simp only [Outcome.map, typeBodies_keep cx cs]
        cases keepBodies cx st1 cs with
        | mk r st2 => cases r <;> rfl

end

/-- What typing accepts is the trimmed form of what it would keep, in the same state. -/
theorem typeList_of_ok {cx : Context} {st st' : State} {reach : Reach} {ss : List Stmt}
    {ts : List Typed.Stmt} (h : typeList cx st reach ss = (.ok ts, st')) :
    ∃ whole, keepList cx st reach ss = (.ok whole, st') ∧ ts = trimFrom reach whole := by
  rw [typeList_keep] at h
  cases hk : keepList cx st reach ss with
  | mk r st1 =>
    rw [hk] at h
    cases r with
    | error e => cases h
    | ok whole =>
      cases h
      exact ⟨whole, rfl, rfl⟩

end Typing
end Cascade
