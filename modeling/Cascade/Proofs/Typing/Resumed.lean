import Cascade.Proofs.Scope.Balanced
import Cascade.Proofs.Typing.TwoSettings
import Cascade.Proofs.Typing.Names

/-!
# Cascade.Proofs.Typing.Resumed

Typing gives back the scopes that it was given, whether it succeeds or fails at any depth.

What a pass over statements does to the scopes are the acts of these statements, in the order in
which they are written, up to where it stops. Where it stops inside blocks or switches, it closes
their scopes on the way out.

* `Performs`: the acts that a pass has performed, by its result.
* `Pass`: what a pass does to the state; `Pass.andThen`, `Pass.inside`: passes put together.
* `keepList_pass`, `typeBody_pass`: statements; `typeBody_resumes`: what that leaves as it was.
-/

namespace Cascade

open Syntax

def Event.act? : Event → Option Act
  | .act a => some a
  | .use _ => none

/-- The acts among some events. -/
def actsOf (es : List Event) : List Act := es.filterMap Event.act?

theorem actsOf_append (es fs : List Event) : actsOf (es ++ fs) = actsOf es ++ actsOf fs :=
  List.filterMap_append

theorem actsOf_uses (us : List Use) : actsOf (us.map .use) = [] := by
  simp [actsOf, Event.act?]

theorem actsOf_nested (kind : ScopeKind) (es : List Event) :
    actsOf (.act (.push kind) :: es ++ [.act .pop]) = .push kind :: actsOf es ++ [.pop] := by
  simp [actsOf, Event.act?]

namespace Typing

variable {α β : Type} {cx : Context} {st : State}

/-- The acts that a pass through some events has performed: all of them if it succeeds. If it fails,
it has performed those before some place and then closed scopes. -/
inductive Performs (es : List Event) : Except (Failure Rejection) α → List Act → Prop where
  | all {a : α} : Performs es (.ok a) (actsOf es)
  | part {e : Failure Rejection} {done rest : List Event} {k : Nat} : es = done ++ rest →
      Performs es (.error e) (actsOf done ++ List.replicate k .pop)

/-- What a pass through some events does to the state. -/
structure Pass (es : List Event) (st : State) (o : Outcome α) : Prop where
  acts : ∃ acts, Balanced acts ∧ Performs es o.1 acts ∧
    o.2.scopes = acts.foldl Scopes.act st.scopes
  depth : o.2.depth = st.depth
  warnings : st.warnings <+: o.2.warnings

/-! ## Passes put together -/

namespace Pass

variable {es fs : List Event}

theorem failed (es : List Event) (st : State) (e : Failure Rejection) :
    Pass es st ((.error e, st) : Outcome α) :=
  have hnone : Performs es (.error e : Except (Failure Rejection) α)
      (actsOf [] ++ .replicate 0 .pop) := .part (List.nil_append es).symm
  ⟨⟨[], .nil, hnone, rfl⟩, rfl, List.prefix_refl _⟩

theorem still (us : List Use) (st : State) (r : Except (Failure Rejection) α) :
    Pass (us.map .use) st (r, st) := by
  cases r with
  | error e => exact failed _ st e
  | ok a =>
    have hall : Performs (us.map .use) (.ok a) (actsOf (us.map .use)) := .all
    rw [actsOf_uses] at hall
    exact ⟨⟨[], .nil, hall, rfl⟩, rfl, List.prefix_refl _⟩

theorem map {o : Outcome α} (h : Pass es st o) (f : α → β) : Pass es st (o.map f) := by
  obtain ⟨r, st'⟩ := o
  obtain ⟨⟨acts, hb, hp, hs⟩, hd, hw⟩ := h
  cases r with
  | error e =>
    cases hp with
    | part he => exact ⟨⟨_, hb, .part he, hs⟩, hd, hw⟩
  | ok a =>
    cases hp with
    | all => exact ⟨⟨_, hb, .all, hs⟩, hd, hw⟩

theorem andThen {o : Outcome α} {f : α → State → Outcome β} (h : Pass es st o)
    (hf : ∀ a st', Pass fs st' (f a st')) : Pass (es ++ fs) st (o.andThen f) := by
  obtain ⟨r, st'⟩ := o
  obtain ⟨⟨acts, hb, hp, hs⟩, hd, hw⟩ := h
  cases r with
  | error e =>
    cases hp with
    | part he => exact ⟨⟨_, hb, .part (by rw [he, List.append_assoc]), hs⟩, hd, hw⟩
  | ok a =>
    obtain ⟨⟨acts', hb', hp', hs'⟩, hd', hw'⟩ := hf a st'
    refine ⟨⟨acts ++ acts', hb.append hb', ?_, ?_⟩, hd'.trans hd, hw.trans hw'⟩
    · cases hp with
      | all =>
        rw [Outcome.andThen]
        generalize (f a st').1 = r at hp'
        cases hp' with
        | all =>
          rw [← actsOf_append]
          exact .all
        | part he =>
          rw [← List.append_assoc, ← actsOf_append]
          exact .part (by rw [he, List.append_assoc])
    · rw [List.foldl_append, ← hs]
      exact hs'

/-- A scope that is opened for a pass is closed behind it, whatever its result. -/
theorem inside {kind : ScopeKind} {o : Outcome α} (h : Pass es (st.enter kind) o) (f : α → β) :
    Pass (.act (.push kind) :: es ++ [.act .pop]) st (o.inside kind f) := by
  obtain ⟨r, st'⟩ := o
  obtain ⟨⟨acts, hb, hp, hs⟩, hd, hw⟩ := h
  have hscopes : (st'.exit kind).scopes =
      (Act.push kind :: acts ++ [Act.pop]).foldl Scopes.act st.scopes := by
    rw [List.foldl_append, List.foldl_cons]
    exact congrArg Scopes.pop hs
  have hdepth : (st'.exit kind).depth = st.depth := by
    have hd : st'.depth = if kind = .switch then st.depth + 1 else st.depth := hd
    simp only [State.exit, hd]
    split <;> rfl
  cases r with
  | error e =>
    cases hp with
    | @part _ done rest k he =>
      refine ⟨⟨_, hb.nested kind, ?_, hscopes⟩, hdepth, hw⟩
      have hacts : Act.push kind :: (actsOf done ++ .replicate k .pop) ++ [.pop] =
          actsOf (.act (.push kind) :: done) ++ .replicate (k + 1) .pop := by
        rw [List.replicate_succ', ← List.append_assoc]
        rfl
      have hevents : Event.act (.push kind) :: es ++ [.act .pop] =
          (.act (.push kind) :: done) ++ (rest ++ [.act .pop]) := by
        rw [he, List.cons_append, List.append_assoc]
        rfl
      rw [hacts]
      exact .part hevents
  | ok a =>
    cases hp with
    | all =>
      refine ⟨⟨_, hb.nested kind, ?_, hscopes⟩, hdepth, hw⟩
      rw [← actsOf_nested]
      exact .all

end Pass

/-! ## Statements -/

theorem report_pass (cx : Context) (st : State) (w : Warning) : Pass [] st (report cx st w) := by
  unfold report
  split
  · exact .still [] st _
  split
  · exact .failed [] st _
  · exact ⟨⟨[], .nil, .all, rfl⟩, rfl, List.prefix_append _ _⟩

theorem follow_pass (cx : Context) (st : State) (reach : Reach) (s : Stmt) (completes : Bool) :
    Pass [] st (follow cx st reach s completes) := by
  unfold follow
  split
  · exact .still [] st _
  · split
    · exact .still [] st _
    · have hpass := (report_pass cx st (.unreachableCode s.span)).map fun _ => Reach.reported
      revert hpass
      rcases report cx st (.unreachableCode s.span) with ⟨e | _, st'⟩ <;> exact id
  · exact .still [] st _

/-- A declaration comes behind its initial value. It has taken place even where the warning about a
hidden variable is fatal. -/
theorem bindLocal_pass (cx : Context) (ty : Ty) (name : Ident) (init : Option Typed.Expr)
    (st : State) : Pass [.act (.declare name.name ty name.span)] st
      (bindLocal cx ty name init st) := by
  unfold bindLocal
  split
  · exact .failed _ st _
  rename_i scopes declared hdecl
  have hact : scopes = st.scopes.act (.declare name.name ty name.span) := by
    simp only [Scopes.act, hdecl]
  have hdone : Pass [.act (.declare name.name ty name.span)] st
      (.ok (), ⟨scopes, st.depth, st.warnings⟩) :=
    ⟨⟨_, .declare name.name ty name.span, .all, hact⟩, rfl, List.prefix_refl _⟩
  split
  · exact hdone.map fun _ => Typed.Stmt.declare declared.slot init
  · exact hdone.andThen fun _ st =>
      (report_pass cx st _).map fun _ => Typed.Stmt.declare declared.slot init

theorem typeDeclare_pass (cx : Context) (st : State) (ty : Ty) (name : Ident)
    (init : Option Expr) (span : Span) :
    Pass (Stmt.declare ty name init span).events st (typeDeclare cx st ty name init) := by
  by_cases hty : ty.isVoid = true
  · rw [typeDeclare, if_pos hty]
    exact .failed _ st _
  · rw [typeDeclare_sequence hty]
    exact (Pass.still (usesOfOption init) st _).andThen fun init st =>
      bindLocal_pass cx ty name init st

mutual

theorem keepStmt_pass (cx : Context) : ∀ (s : Stmt) (st : State),
    Pass s.events st (keepStmt cx st s)
  | .block body span, st => by
    rw [keepStmt_block, Stmt.events]
    exact (keepList_pass cx body .live (st.enter .block)).inside _
  | .declare ty name init span, st => by
    rw [keepStmt]
    exact typeDeclare_pass cx st ty name init span
  | .expr e span, st => by
    rw [keepStmt_expr, Stmt.events]
    exact (Pass.still e.uses st _).map _
  | .switch scrutinee cases span, st => by
    rw [keepStmt_switch, Stmt.events]
    exact (Pass.still _ st _).andThen fun _ st =>
      (keepBodies_pass cx cases (st.enter .switch)).inside _
  | .leave span, st => by
    rw [keepStmt]
    split
    · exact .failed _ st _
    · exact .still [] st _
  | .ret value span, st => by
    rw [keepStmt]
    exact .still (usesOfOption value) st _
  | .empty span, st => by
    rw [keepStmt]
    exact .still [] st _

theorem keepList_pass (cx : Context) : ∀ (ss : List Stmt) (reach : Reach) (st : State),
    Pass (eventsOfList ss) st (keepList cx st reach ss)
  | [], _, st => by
    rw [keepList]
    exact .still [] st _
  | s :: ss, reach, st => by
    rw [keepList_cons]
    refine (keepStmt_pass cx s st).andThen fun t st => ?_
    exact (follow_pass cx st reach s t.trim.completes).andThen fun reach st =>
      (keepList_pass cx ss reach st).map _

theorem keepBodies_pass (cx : Context) : ∀ (cs : List Case) (st : State),
    Pass (eventsOfCases cs) st (keepBodies cx st cs)
  | [], st => by
    rw [keepBodies]
    exact .still [] st _
  | .mk test body span :: cs, st => by
    rw [keepBodies_cons]
    exact (keepList_pass cx body .live st).andThen fun _ st =>
      (keepBodies_pass cx cs st).map _

end

theorem typeBody_pass (cx : Context) (st : State) (body : List Stmt) :
    Pass (eventsOfList body) st (typeBody cx st body) := by
  rw [typeBody, typeList_keep]
  exact (keepList_pass cx body .live st).map _

/-- What typing of a list of statements leaves as it was, with a result or an error. -/
structure Resumed (body : List Stmt) (st : State) (o : Outcome (List Typed.Stmt)) : Prop where
  scopes : st.scopes.Resumes o.2.scopes
  lookup : ∀ x, o.2.scopes.lookup x =
    (o.2.scopes.inner.find? x).or (lookupIn x st.scopes.outer)
  depth : o.2.depth = st.depth
  warnings : st.warnings <+: o.2.warnings
  /-- An arena keeps the closed scopes as well. The acts on the way change none of those either. -/
  arena : ∃ acts, Balanced acts ∧ Performs (eventsOfList body) o.1 acts ∧
    o.2.scopes = acts.foldl Scopes.act st.scopes ∧
    ∀ a : Arena, a.Represents st.scopes →
      (acts.foldl Arena.act a).Represents o.2.scopes ∧ a.OthersKept (acts.foldl Arena.act a)

/-- Typing of statements, in any state, ends in the scope where it began, with as many switches
open. No other scope that was there has changed, and slots and warnings are only added. An
expression changes nothing at all. -/
theorem typeBody_resumes (cx : Context) (st : State) (body : List Stmt) :
    Resumed body st (typeBody cx st body) ∧
      ∀ e span, (typeStmt cx st (.expr e span)).2 = st := by
  obtain ⟨⟨acts, hb, hp, hs⟩, hd, hw⟩ := typeBody_pass cx st body
  have hresumes : st.scopes.Resumes (typeBody cx st body).2.scopes := hs ▸ hb.resumes st.scopes
  refine ⟨⟨hresumes, hresumes.lookup, hd, hw, acts, hb, hp, hs, fun a ha => ?_⟩, fun e span => ?_⟩
  · exact ⟨hs ▸ ha.foldl acts, hb.othersKept a⟩
  · rw [typeStmt]
    cases typeExpr cx st.scopes e <;> rfl

end Typing

end Cascade
