import Cascade.Proofs.Typing.Kept
import Cascade.Proofs.Typing.Wider

/-!
# Cascade.Proofs.Typing.TwoSettings

Typing of statements, beside typing of the same statements under other settings. On one side all
warnings are reported and none is fatal; on the other the rules may be wider and the choice of
warnings is free. Both sides go through the same scopes until the other side fails.

* `WarningSettings.settle`: what a choice of warnings makes of a result that comes with some.
* `Beside`: how a pass ends on both sides; `Beside.andThen`: one pass after another.
* `keepList_beside`, `typeBody_beside`: statements.
-/

namespace Cascade

namespace WarningSettings

def keeps (c : WarningSettings) (w : Warning) : Bool := c.isReported w.kind

def denies (c : WarningSettings) (w : Warning) : Bool := c.isReported w.kind && c.isFatal w.kind

/-- What becomes of a result that comes with some warnings. The first fatal one among them is an
error. If there is none, those that are reported are left. -/
def settle {α : Type} (c : WarningSettings) (ws : List Warning) (result : List Warning → α) :
    Except (Failure Rejection) α :=
  match ws.find? c.denies with
  | some w => .error (.rejected (.denied w))
  | none => .ok (result (ws.filter c.keeps))

/-- What an error may turn into: itself, or a fatal warning that comes before it. -/
def Turns (c : WarningSettings) (e e' : Failure Rejection) : Prop :=
  e' = e ∨ ∃ w, c.denies w = true ∧ e' = .rejected (.denied w)

end WarningSettings

namespace Scopes

variable {s s' : Settings}

theorem pop_under (scopes : Scopes) : (scopes.under s).pop = scopes.pop.under s := by
  unfold pop
  cases h : scopes.outer <;> simp [under, h]

theorem declare_under (h : s.Widens s') (scopes : Scopes) (name : String) (ty : Ty)
    (span : Span) :
    (∃ (next : Scopes) (declared : Declaration),
      (scopes.under s).declare name ty span = .ok (next.under s, declared) ∧
      (scopes.under s').declare name ty span = .ok (next.under s', declared)) ∨
    ∃ earlier, (scopes.under s).declare name ty span = .error earlier ∧
      (s.SameRules s' → (scopes.under s').declare name ty span = .error earlier) := by
  have hadd : ∀ r : Settings, (scopes.under r).add name ty span =
      ((scopes.add name ty span).1.under r, (scopes.add name ty span).2) := fun _ => rfl
  unfold declare
  have hinner : ∀ r : Settings, (scopes.under r).inner = scopes.inner := fun _ => rfl
  simp only [hinner, hadd]
  cases scopes.inner.find? name with
  | none => exact .inl ⟨_, _, rfl, rfl⟩
  | some earlier =>
    by_cases hr : (scopes.under s).mayRebind = true
    · have hr' : (scopes.under s').mayRebind = true := by
        simp only [mayRebind, under, Bool.and_eq_true, beq_iff_eq] at hr ⊢
        obtain hreject | hs := h.policy
        · rw [hreject] at hr
          cases hr.2
        · exact ⟨hr.1, hs.trans hr.2⟩
      exact .inl ⟨_, _, if_pos hr, if_pos hr'⟩
    · exact .inr ⟨earlier, if_neg hr, fun hs => if_neg (by rwa [under_same hs])⟩

end Scopes

namespace Typing

open Syntax

variable {α β : Type} {cx : Context} {s s' : Settings} {scopes : Scopes} {depth : Nat}

/-! ## Passes in sequence -/

namespace Outcome

/-- One pass, and if it succeeds another one after it. -/
def andThen (o : Outcome α) (f : α → State → Outcome β) : Outcome β :=
  match o with
  | (.error e, st) => (.error e, st)
  | (.ok a, st) => f a st

def inside (o : Outcome α) (kind : ScopeKind) (f : α → β) : Outcome β :=
  match o with
  | (.error e, st) => (.error e, st.exit kind)
  | (.ok a, st) => (.ok (f a), st.exit kind)

end Outcome

theorem keepStmt_block (st : State) (body : List Stmt) (span : Span) :
    keepStmt cx st (.block body span) =
      (keepList cx (st.enter .block) .live body).inside .block .block := by
  rw [keepStmt]
  rcases keepList cx (st.enter .block) .live body with ⟨e | ts, st'⟩ <;> rfl

theorem keepStmt_expr (st : State) (e : Expr) (span : Span) :
    keepStmt cx st (.expr e span) =
      Outcome.map Typed.Stmt.expr (typeExpr cx st.scopes e, st) := by
  rw [keepStmt]
  cases typeExpr cx st.scopes e <;> rfl

theorem keepStmt_switch (st : State) (scrutinee : Expr) (cases : List Case) (span : Span) :
    keepStmt cx st (.switch scrutinee cases span) =
      Outcome.andThen (typeHead cx st.scopes scrutinee cases, st) fun head st =>
        (keepBodies cx (st.enter .switch) cases).inside .switch fun bodies =>
          .switch (head.1.cast head.2.2) head.2.2 (head.2.1.zipWith .mk bodies) := by
  rw [keepStmt, typeHead]
  cases typeExpr cx st.scopes scrutinee with
  | error e => rfl
  | ok e =>
    dsimp only
    cases needIntegral e with
    | error err => rfl
    | ok e =>
      dsimp only
      cases typeLabels cx st.scopes ⟨[], none, e.ty⟩ cases with
      | error err => rfl
      | ok labels =>
        simp only [Outcome.andThen]
        rcases keepBodies cx (st.enter .switch) cases with ⟨e | bodies, st'⟩ <;> rfl

theorem keepList_cons (st : State) (reach : Reach) (stmt : Stmt) (rest : List Stmt) :
    keepList cx st reach (stmt :: rest) =
      (keepStmt cx st stmt).andThen fun t st =>
        (follow cx st reach stmt t.trim.completes).andThen fun reach st =>
          (keepList cx st reach rest).map (t :: ·) := by
  rw [keepList]
  rcases keepStmt cx st stmt with ⟨e | t, st1⟩
  · rfl
  simp only [Outcome.andThen]
  rcases follow cx st1 reach stmt t.trim.completes with ⟨e | reach', st2⟩
  · rfl
  dsimp only
  rcases keepList cx st2 reach' rest with ⟨e | ts, st3⟩ <;> rfl

theorem keepBodies_cons (st : State) (test : Option Expr) (body : List Stmt) (span : Span)
    (rest : List Case) :
    keepBodies cx st (.mk test body span :: rest) =
      (keepList cx st .live body).andThen fun b st =>
        (keepBodies cx st rest).map (b :: ·) := by
  rw [keepBodies]
  rcases keepList cx st .live body with ⟨e | b, st1⟩
  · rfl
  simp only [Outcome.andThen]
  rcases keepBodies cx st1 rest with ⟨e | bs, st2⟩ <;> rfl

def bindLocal (cx : Context) (ty : Ty) (name : Ident) (init : Option Typed.Expr) (st : State) :
    Outcome Typed.Stmt :=
  match st.scopes.declare name.name ty name.span with
  | .error earlier =>
    (.error (.rejected (.duplicateDeclaration name.name earlier.span name.span)), st)
  | .ok (scopes, declared) =>
    match declared.hides with
    | none => (.ok (.declare declared.slot init), ⟨scopes, st.depth, st.warnings⟩)
    | some earlier =>
      (report cx ⟨scopes, st.depth, st.warnings⟩
        (.shadowedVariable name.name earlier name.span)).map
          fun _ => .declare declared.slot init

theorem typeDeclare_sequence {ty : Ty} (h : ¬ty.isVoid = true) (st : State) (name : Ident)
    (init : Option Expr) :
    typeDeclare cx st ty name init =
      Outcome.andThen (typeInit cx st.scopes ty init, st) (bindLocal cx ty name) := by
  rw [typeDeclare, if_neg h]
  cases typeInit cx st.scopes ty init with
  | error e => rfl
  | ok init =>
    simp only [Outcome.andThen, bindLocal]
    cases st.scopes.declare name.name ty name.span with
    | error earlier => rfl
    | ok r =>
      obtain ⟨scopes, declared⟩ := r
      dsimp only
      cases declared.hides with
      | none => rfl
      | some earlier =>
        dsimp only
        rcases report cx ⟨scopes, st.depth, st.warnings⟩
          (.shadowedVariable name.name earlier name.span) with ⟨e | u, st'⟩ <;> rfl

/-! ## Two passes side by side -/

/-- A state under some settings. -/
def stateOf (s : Settings) (scopes : Scopes) (depth : Nat) (warnings : List Warning) : State :=
  ⟨scopes.under s, depth, warnings⟩

theorem enter_stateOf (kind : ScopeKind) (ws : List Warning) :
    (stateOf s scopes depth ws).enter kind =
      stateOf s (scopes.push kind) (if kind = .switch then depth + 1 else depth) ws :=
  rfl

theorem exit_stateOf (kind : ScopeKind) (ws : List Warning) :
    (stateOf s scopes depth ws).exit kind =
      stateOf s scopes.pop (if kind = .switch then depth - 1 else depth) ws := by
  rw [State.exit, stateOf, stateOf, Scopes.pop_under]

/-- How a pass ends under some settings and under others, where it starts with the warnings `ws`
and `ws'`. If it succeeds on the left with more warnings, it succeeds on the right with those that
are reported there, or it fails with the first one that is fatal. If it fails on the left, it fails
on the right too, as long as the rules are the same. -/
inductive Beside (s s' : Settings) (ws ws' : List Warning) : Outcome α → Outcome α → Prop where
  | ok {a : α} {scopes : Scopes} {depth : Nat} {more : List Warning} :
      more.find? s'.warnings.denies = none →
      Beside s s' ws ws' (.ok a, stateOf s scopes depth (ws ++ more))
        (.ok a, stateOf s' scopes depth (ws' ++ more.filter s'.warnings.keeps))
  | denied {a : α} {scopes : Scopes} {depth : Nat} {more : List Warning} {w : Warning}
      {st : State} : more.find? s'.warnings.denies = some w →
      Beside s s' ws ws' (.ok a, stateOf s scopes depth (ws ++ more))
        (.error (.rejected (.denied w)), st)
  | error {e : Failure Rejection} {st : State} {o : Outcome α} :
      (s.SameRules s' → ∃ e' st', o = (.error e', st') ∧ s'.warnings.Turns e e') →
      Beside s s' ws ws' (.error e, st) o

namespace Beside

variable {ws ws' more : List Warning} {o o' : Outcome α}

theorem unchanged (a : α) (scopes : Scopes) (depth : Nat) :
    Beside s s' ws ws' (.ok a, stateOf s scopes depth ws) (.ok a, stateOf s' scopes depth ws') := by
  have h : Beside s s' ws ws' (.ok a, stateOf s scopes depth (ws ++ []))
    (.ok a, stateOf s' scopes depth (ws' ++ [])) := .ok rfl
  simpa only [List.append_nil] using h

theorem failed {e : Failure Rejection} {st st' : State}
    (h : s.SameRules s' → o' = (.error e, st')) :
    Beside s s' ws ws' (.error e, st) o' :=
  .error fun hs => ⟨e, st', h hs, .inl rfl⟩

theorem of_within {r r' : Except (Failure Rejection) α} (h : Within s s' r r') (scopes : Scopes)
    (depth : Nat) :
    Beside s s' ws ws' (r, stateOf s scopes depth ws) (r', stateOf s' scopes depth ws') := by
  cases r with
  | error e => exact .failed fun hs => by rw [h.same hs]
  | ok a =>
    rw [h.ok rfl]
    exact .unchanged a scopes depth

theorem map (h : Beside s s' ws ws' o o') (f : α → β) :
    Beside s s' ws ws' (o.map f) (o'.map f) := by
  cases h with
  | ok hnone => exact .ok hnone
  | denied hw => exact .denied hw
  | error h =>
    refine .error fun hs => ?_
    obtain ⟨e', st', rfl, he⟩ := h hs
    exact ⟨e', _, rfl, he⟩

theorem inside (h : Beside s s' ws ws' o o') (kind : ScopeKind) (f : α → β) :
    Beside s s' ws ws' (o.inside kind f) (o'.inside kind f) := by
  cases h with
  | ok hnone =>
    simp only [Outcome.inside, exit_stateOf]
    exact .ok hnone
  | denied hw =>
    simp only [Outcome.inside, exit_stateOf]
    exact .denied hw
  | error h =>
    refine .error fun hs => ?_
    obtain ⟨e', st', rfl, he⟩ := h hs
    exact ⟨e', _, rfl, he⟩

theorem later (hnone : more.find? s'.warnings.denies = none)
    (h : Beside s s' (ws ++ more) (ws' ++ more.filter s'.warnings.keeps) o o') :
    Beside s s' ws ws' o o' := by
  cases h with
  | ok hnone' =>
    rw [List.append_assoc, List.append_assoc, ← List.filter_append]
    exact .ok (by rw [List.find?_append, hnone, hnone']; rfl)
  | denied hw =>
    rw [List.append_assoc]
    exact .denied (by rw [List.find?_append, hnone, hw]; rfl)
  | error h => exact .error h

/-- Behind a fatal warning it does not matter how a pass would end. -/
theorem doomed {w : Warning} (hw : more.find? s'.warnings.denies = some w)
    (h : Beside s s' (ws ++ more) ws' o o') (st : State) :
    Beside s s' ws ws' o (.error (.rejected (.denied w)), st) := by
  cases h with
  | ok | denied =>
    rw [List.append_assoc]
    exact .denied (by rw [List.find?_append, hw]; rfl)
  | error => exact .error fun _ => ⟨_, _, rfl, .inr ⟨w, List.find?_some hw, rfl⟩⟩

theorem andThen (h : Beside s s' ws ws' o o') {f f' : α → State → Outcome β}
    (hf : ∀ a scopes depth ws ws', Beside s s' ws ws' (f a (stateOf s scopes depth ws))
      (f' a (stateOf s' scopes depth ws'))) :
    Beside s s' ws ws' (o.andThen f) (o'.andThen f') := by
  cases h with
  | ok hnone => exact (hf _ _ _ _ _).later hnone
  | denied hw => exact (hf _ _ _ _ ws').doomed hw _
  | error h =>
    refine .error fun hs => ?_
    obtain ⟨e', st', rfl, he⟩ := h hs
    exact ⟨e', _, rfl, he⟩

end Beside

/-! ## Statements -/

theorem report_stateOf (ws : List Warning) (w : Warning) :
    report (cx.under s) (stateOf s scopes depth ws) w =
      if s.warnings.denies w then (.error (.rejected (.denied w)), stateOf s scopes depth ws)
      else (.ok (), stateOf s scopes depth (ws ++ [w].filter s.warnings.keeps)) := by
  by_cases hreported : s.warnings.isReported w.kind = true <;>
    by_cases hfatal : s.warnings.isFatal w.kind = true <;>
    simp [report, WarningSettings.denies, WarningSettings.keeps, hreported, hfatal, stateOf]

section

variable (hq : s.warnings = .default) {ws ws' : List Warning}
include hq

theorem report_beside (w : Warning) :
    Beside s s' ws ws' (report (cx.under s) (stateOf s scopes depth ws) w)
      (report (cx.under s') (stateOf s' scopes depth ws') w) := by
  have hdenies : s.warnings.denies w = false := by rw [hq]; rfl
  have hkeeps : [w].filter s.warnings.keeps = [w] := by rw [hq]; rfl
  rw [report_stateOf, report_stateOf, hdenies, hkeeps, if_neg Bool.false_ne_true]
  split
  · rename_i hd
    exact .denied (List.find?_cons_of_pos hd)
  · rename_i hd
    exact .ok (List.find?_cons_of_neg hd)

theorem follow_beside (reach : Reach) (stmt : Stmt) (completes : Bool) :
    Beside s s' ws ws' (follow (cx.under s) (stateOf s scopes depth ws) reach stmt completes)
      (follow (cx.under s') (stateOf s' scopes depth ws') reach stmt completes) := by
  cases reach with
  | live => exact .unchanged _ scopes depth
  | dead =>
    have hdead : ∀ (cx : Context) (st : State), follow cx st .dead stmt completes =
        if stmt.isEmpty then (.ok .dead, st)
        else Outcome.map (fun _ => .reported) (report cx st (.unreachableCode stmt.span)) := by
      intro cx st
      rw [follow]
      split
      · rfl
      · rcases report cx st (.unreachableCode stmt.span) with ⟨e | u, st'⟩ <;> rfl
    rw [hdead, hdead]
    split
    · exact .unchanged _ scopes depth
    · exact (report_beside hq _).map _
  | reported => exact .unchanged _ scopes depth

theorem typeDeclare_beside (h : s.Widens s') (ty : Ty) (name : Ident) (init : Option Expr) :
    Beside s s' ws ws' (typeDeclare (cx.under s) (stateOf s scopes depth ws) ty name init)
      (typeDeclare (cx.under s') (stateOf s' scopes depth ws') ty name init) := by
  by_cases hvoid : ty.isVoid = true
  · rw [typeDeclare, typeDeclare, if_pos hvoid, if_pos hvoid]
    exact .failed fun _ => rfl
  rw [typeDeclare_sequence hvoid, typeDeclare_sequence hvoid]
  refine (Beside.of_within (typeInit_within h scopes ty init) scopes depth).andThen
    fun init scopes depth ws ws' => ?_
  obtain ⟨next, declared, hleft, hright⟩ | ⟨earlier, hleft, hright⟩ :=
    scopes.declare_under h name.name ty name.span
  · simp only [bindLocal, stateOf, hleft, hright]
    cases declared.hides with
    | none => exact .unchanged _ next depth
    | some earlier => exact (report_beside hq _).map _
  · simp only [bindLocal, stateOf, hleft]
    exact .failed fun hs => by rw [hright hs]

end

mutual

theorem keepStmt_beside (h : s.Widens s') (hq : s.warnings = .default) :
    ∀ (stmt : Stmt) (scopes : Scopes) (depth : Nat) (ws ws' : List Warning),
      Beside s s' ws ws' (keepStmt (cx.under s) (stateOf s scopes depth ws) stmt)
        (keepStmt (cx.under s') (stateOf s' scopes depth ws') stmt)
  | .block body span, scopes, depth, ws, ws' => by
    rw [keepStmt_block, keepStmt_block, enter_stateOf, enter_stateOf]
    exact (keepList_beside h hq body .live _ _ ws ws').inside .block Typed.Stmt.block
  | .declare ty name init span, scopes, depth, ws, ws' => by
    rw [keepStmt, keepStmt]
    exact typeDeclare_beside hq h ty name init
  | .expr e span, scopes, depth, ws, ws' => by
    rw [keepStmt_expr, keepStmt_expr]
    exact (Beside.of_within (typeExpr_within h scopes e) scopes depth).map _
  | .switch scrutinee cases span, scopes, depth, ws, ws' => by
    rw [keepStmt_switch, keepStmt_switch]
    exact (Beside.of_within (typeHead_within h scopes scrutinee cases) scopes depth).andThen
      fun head scopes depth ws ws' => by
        rw [enter_stateOf, enter_stateOf]
        exact (keepBodies_beside h hq cases _ _ ws ws').inside .switch _
  | .leave span, scopes, depth, ws, ws' => by
    have hdepth : ∀ s ws, (stateOf s scopes depth ws).depth = depth := fun _ _ => rfl
    rw [keepStmt, keepStmt, hdepth, hdepth]
    split
    · exact .failed fun _ => rfl
    · exact .unchanged _ scopes depth
  | .ret value span, scopes, depth, ws, ws' => by
    rw [keepStmt, keepStmt]
    exact .of_within (typeReturn_within h scopes value span) scopes depth
  | .empty span, scopes, depth, ws, ws' => by
    rw [keepStmt, keepStmt]
    exact .unchanged _ scopes depth

theorem keepList_beside (h : s.Widens s') (hq : s.warnings = .default) :
    ∀ (stmts : List Stmt) (reach : Reach) (scopes : Scopes) (depth : Nat)
      (ws ws' : List Warning),
      Beside s s' ws ws' (keepList (cx.under s) (stateOf s scopes depth ws) reach stmts)
        (keepList (cx.under s') (stateOf s' scopes depth ws') reach stmts)
  | [], reach, scopes, depth, ws, ws' => by
    rw [keepList, keepList]
    exact .unchanged _ scopes depth
  | stmt :: rest, reach, scopes, depth, ws, ws' => by
    rw [keepList_cons, keepList_cons]
    exact (keepStmt_beside h hq stmt scopes depth ws ws').andThen fun t scopes depth ws ws' =>
      (follow_beside hq reach stmt _).andThen fun reach scopes depth ws ws' =>
        (keepList_beside h hq rest reach scopes depth ws ws').map _

theorem keepBodies_beside (h : s.Widens s') (hq : s.warnings = .default) :
    ∀ (cases : List Case) (scopes : Scopes) (depth : Nat) (ws ws' : List Warning),
      Beside s s' ws ws' (keepBodies (cx.under s) (stateOf s scopes depth ws) cases)
        (keepBodies (cx.under s') (stateOf s' scopes depth ws') cases)
  | [], scopes, depth, ws, ws' => by
    rw [keepBodies, keepBodies]
    exact .unchanged _ scopes depth
  | .mk test body span :: rest, scopes, depth, ws, ws' => by
    rw [keepBodies_cons, keepBodies_cons]
    exact (keepList_beside h hq body .live scopes depth ws ws').andThen
      fun b scopes depth ws ws' => (keepBodies_beside h hq rest scopes depth ws ws').map _

end

theorem typeBody_beside (h : s.Widens s') (hq : s.warnings = .default) (body : List Stmt)
    (scopes : Scopes) (depth : Nat) (ws ws' : List Warning) :
    Beside s s' ws ws' (typeBody (cx.under s) (stateOf s scopes depth ws) body)
      (typeBody (cx.under s') (stateOf s' scopes depth ws') body) := by
  rw [typeBody, typeBody, typeList_keep, typeList_keep]
  exact (keepList_beside h hq body .live scopes depth ws ws').map _

end Typing
end Cascade
