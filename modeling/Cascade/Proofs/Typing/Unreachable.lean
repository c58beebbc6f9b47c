import Cascade.Proofs.Typing.Kept

/-!
# Cascade.Proofs.Typing.Unreachable

Which warnings about unreachable code typing raises. Each list of statements, however deep it
stands, is looked at by itself: if typing drops a statement of it that is not empty, it warns of the
first such one, and of no other of that list.

* `innerLists`: all lists in a list, each with what typing would keep of it; `Covers`: none of them
  is missing.
* `firstDropped`: the statement of a list that is warned of.
* `keepBody_listed`: the lists of a body, and the warnings that typing it raises.
-/

namespace Cascade

def Warning.unreachable? : Warning → Option Span
  | .unreachableCode s => some s
  | .shadowedVariable _ _ _ => none

namespace Typing

open Syntax
open Typed (trimList)

mutual

/-- The lists of statements in a statement, at every depth, each with the typed statements that
typing makes of it, dropped or not. -/
def stmtLists : Stmt → Typed.Stmt → List (List Stmt × List Typed.Stmt)
  | .block body _, .block whole => (body, whole) :: innerLists body whole
  | .switch _ cases _, .switch _ _ typed => caseLists cases (typed.map Typed.Case.body)
  | _, _ => []

def innerLists : List Stmt → List Typed.Stmt → List (List Stmt × List Typed.Stmt)
  | s :: ss, t :: ts => stmtLists s t ++ innerLists ss ts
  | _, _ => []

def caseLists : List Case → List (List Typed.Stmt) → List (List Stmt × List Typed.Stmt)
  | .mk _ body _ :: cs, whole :: bodies =>
    (body, whole) :: innerLists body whole ++ caseLists cs bodies
  | _, _ => []

end

mutual

def listsOf : Stmt → List (List Stmt)
  | .block body _ => body :: listsIn body
  | .switch _ cases _ => listsOfCases cases
  | .declare .. => []
  | .expr .. => []
  | .leave _ => []
  | .ret .. => []
  | .empty _ => []

def listsIn : List Stmt → List (List Stmt)
  | [] => []
  | s :: ss => listsOf s ++ listsIn ss

def listsOfCases : List Case → List (List Stmt)
  | [] => []
  | .mk _ body _ :: cs => body :: listsIn body ++ listsOfCases cs

end

/-- These lists, all of them, were paired with as many typed statements each. -/
structure Covers (pairs : List (List Stmt × List Typed.Stmt)) (lists : List (List Stmt)) :
    Prop where
  lists : pairs.map Prod.fst = lists
  lengths : ∀ l ∈ pairs, l.2.length = l.1.length

namespace Covers

variable {pairs pairs' : List (List Stmt × List Typed.Stmt)} {lists lists' : List (List Stmt)}

theorem nil : Covers [] [] := ⟨rfl, by simp⟩

theorem cons (h : Covers pairs lists) {ss : List Stmt} {ts : List Typed.Stmt}
    (hlength : ts.length = ss.length) : Covers ((ss, ts) :: pairs) (ss :: lists) :=
  ⟨congrArg (ss :: ·) h.lists, List.forall_mem_cons.mpr ⟨hlength, h.lengths⟩⟩

theorem append (h : Covers pairs lists) (h' : Covers pairs' lists') :
    Covers (pairs ++ pairs') (lists ++ lists') where
  lists := by rw [List.map_append, h.lists, h'.lists]
  lengths := fun l hl => (List.mem_append.mp hl).elim (h.lengths l) (h'.lengths l)

end Covers

def firstSpan (ss : List Stmt) : Option Span := (ss.find? fun s => !s.isEmpty).map Stmt.span

/-- The place of the first statement of a list that is dropped and not empty. -/
def firstDropped (l : List Stmt × List Typed.Stmt) : Option Span :=
  firstSpan (l.1.drop (trimList l.2).length)

/-- What typing still reports of a list itself whose first statement stands at `reach`. -/
def droppedFrom (reach : Reach) (ss : List Stmt) (ts : List Typed.Stmt) : List Span :=
  match reach with
  | .live => (firstDropped (ss, ts)).toList
  | .dead => (firstSpan ss).toList
  | .reported => []

/-- From one state to another, warnings about unreachable code at just these places were raised, if
they are reported at all. -/
def Raises (cx : Context) (st st' : State) (spans : List Span) : Prop :=
  ∃ more, st'.warnings = st.warnings ++ more ∧
    (more.filterMap Warning.unreachable?).Perm
      (if cx.settings.warnings.isReported .unreachableCode then spans else [])

namespace Raises

variable {cx : Context} {st st' st'' : State} {spans spans' : List Span}

theorem none (h : st'.warnings = st.warnings) : Raises cx st st' [] :=
  ⟨[], by rw [h, List.append_nil], by rw [ite_self]; exact .nil⟩

theorem trans (h : Raises cx st st' spans) (h' : Raises cx st' st'' spans') :
    Raises cx st st'' (spans ++ spans') := by
  obtain ⟨more, he, hp⟩ := h
  obtain ⟨more', he', hp'⟩ := h'
  refine ⟨more ++ more', by rw [he', he, List.append_assoc], ?_⟩
  rw [List.filterMap_append]
  refine (hp.append hp').trans (.of_eq ?_)
  split <;> rfl

theorem perm (h : Raises cx st st' spans) (hp : spans.Perm spans') : Raises cx st st' spans' := by
  obtain ⟨more, he, hm⟩ := h
  refine ⟨more, he, hm.trans ?_⟩
  split
  · exact hp
  · exact .nil

end Raises

variable {cx : Context}

theorem report_unreachable {st st' : State} {span : Span}
    (h : report cx st (.unreachableCode span) = (.ok (), st')) : Raises cx st st' [span] := by
  unfold report at h
  cases hr : cx.settings.warnings.isReported .unreachableCode with
  | false =>
    rw [show (Warning.unreachableCode span).kind = .unreachableCode from rfl, hr] at h
    cases h
    exact ⟨[], by rw [List.append_nil], by rw [hr]; exact .nil⟩
  | true =>
    rw [show (Warning.unreachableCode span).kind = .unreachableCode from rfl, hr] at h
    simp only [Bool.not_true, Bool.false_eq_true, if_false] at h
    split at h
    · cases h
    · cases h
      exact ⟨[.unreachableCode span], rfl, by rw [hr]; exact .refl _⟩

theorem report_shadowed {st st' : State} {name : String} {earlier shadow : Span}
    (h : report cx st (.shadowedVariable name earlier shadow) = (.ok (), st')) :
    Raises cx st st' [] := by
  unfold report at h
  split at h
  · cases h
    exact .none rfl
  split at h
  · cases h
  · cases h
    exact ⟨[.shadowedVariable name earlier shadow], rfl, by rw [ite_self]; exact .nil⟩

theorem typeDeclare_raises {st st' : State} {ty : Ty} {name : Ident} {init : Option Expr}
    {t : Typed.Stmt} (h : typeDeclare cx st ty name init = (.ok t, st')) :
    Raises cx st st' [] ∧ ∃ slot init, t = .declare slot init := by
  unfold typeDeclare at h
  split at h
  · cases h
  split at h
  · cases h
  split at h
  · cases h
  dsimp only at h
  split at h
  · cases h
    exact ⟨.none rfl, _, _, rfl⟩
  · split at h
    · cases h
    · rename_i hreport
      cases h
      have hraises := report_shadowed hreport
      exact ⟨hraises, _, _, rfl⟩

theorem typeReturn_ok {scopes : Scopes} {value : Option Expr} {span : Span} {t : Typed.Stmt}
    (h : typeReturn cx scopes value span = .ok t) : ∃ v, t = .ret v := by
  unfold typeReturn at h
  split at h
  · split at h
    · cases h
      exact ⟨_, rfl⟩
    · cases h
  · split at h
    · cases h
    split at h
    · cases h
    split at h
    · cases h
    · cases h
      exact ⟨_, rfl⟩

theorem typeLabels_length {scopes : Scopes} : ∀ {cs : List Case} {ls : Labels}
    {labels : List (Option Int)} {compare : Ty},
    typeLabels cx scopes ls cs = .ok (labels, compare) → labels.length = cs.length
  | [], _, _, _, h => by
    simp only [typeLabels] at h
    cases h
    rfl
  | c :: cs, ls, labels, compare, h => by
    simp only [typeLabels] at h
    split at h
    · split at h
      · cases h
      split at h
      · cases h
      rename_i hrest
      cases h
      exact congrArg (· + 1) (typeLabels_length hrest)
    · split at h
      · cases h
      split at h
      · cases h
      split at h
      · cases h
      rename_i hrest
      cases h
      exact congrArg (· + 1) (typeLabels_length hrest)

theorem keepBodies_length : ∀ {cs : List Case} {st st' : State} {bodies : List (List Typed.Stmt)},
    keepBodies cx st cs = (.ok bodies, st') → bodies.length = cs.length
  | [], _, _, _, h => by
    simp only [keepBodies] at h
    cases h
    rfl
  | .mk _ _ _ :: cs, _, _, _, h => by
    simp only [keepBodies] at h
    split at h
    · cases h
    split at h
    · cases h
    rename_i hrest
    cases h
    exact congrArg (· + 1) (keepBodies_length hrest)

theorem zipWith_body : ∀ {labels : List (Option Int)} {bodies : List (List Typed.Stmt)},
    bodies.length = labels.length →
    (labels.zipWith Typed.Case.mk bodies).map Typed.Case.body = bodies
  | [], [], _ => rfl
  | _ :: _, b :: _, h => congrArg (b :: ·) (zipWith_body (Nat.succ.inj h))

theorem keepList_length : ∀ {ss : List Stmt} {st st' : State} {reach : Reach}
    {ts : List Typed.Stmt}, keepList cx st reach ss = (.ok ts, st') → ts.length = ss.length
  | [], _, _, _, _, h => by
    simp only [keepList] at h
    cases h
    rfl
  | s :: ss, _, _, _, _, h => by
    simp only [keepList] at h
    split at h
    · cases h
    split at h
    · cases h
    split at h
    · cases h
    rename_i hrest
    cases h
    exact congrArg (· + 1) (keepList_length hrest)

theorem firstSpan_cons (s : Stmt) (ss : List Stmt) :
    firstSpan (s :: ss) = if s.isEmpty then firstSpan ss else some s.span := by
  unfold firstSpan
  rw [List.find?_cons]
  cases s.isEmpty <;> rfl

theorem droppedFrom_cons {st st' : State} {reach reach' : Reach} {s : Stmt} {t : Typed.Stmt}
    (ss : List Stmt) (ts : List Typed.Stmt)
    (h : follow cx st reach s t.trim.completes = (.ok reach', st')) :
    ∃ spans, Raises cx st st' spans ∧
      droppedFrom reach (s :: ss) (t :: ts) = spans ++ droppedFrom reach' ss ts := by
  cases reach with
  | live =>
    simp only [follow] at h
    cases h
    refine ⟨[], .none rfl, ?_⟩
    cases hc : t.trim.completes with
    | true => simp [droppedFrom, firstDropped, trimList, hc]
    | false => simp [droppedFrom, firstDropped, trimList, hc]
  | dead =>
    simp only [follow] at h
    split at h
    · rename_i hempty
      cases h
      refine ⟨[], .none rfl, ?_⟩
      simp only [droppedFrom, firstSpan_cons, if_pos hempty, List.nil_append]
    · rename_i hempty
      split at h
      · cases h
      rename_i hreport
      cases h
      refine ⟨[s.span], report_unreachable hreport, ?_⟩
      simp only [droppedFrom, firstSpan_cons, if_neg hempty, Option.toList_some, List.append_nil]
  | reported =>
    simp only [follow] at h
    cases h
    exact ⟨[], .none rfl, rfl⟩

/-- The lists of some statements are all paired, and from one state to another it was reported what
is dropped from each. -/
structure Listed (cx : Context) (st st' : State) (pairs : List (List Stmt × List Typed.Stmt))
    (lists : List (List Stmt)) : Prop where
  covers : Covers pairs lists
  raises : Raises cx st st' (pairs.filterMap firstDropped)

namespace Listed

variable {st st' st'' : State} {pairs pairs' : List (List Stmt × List Typed.Stmt)}
  {lists lists' : List (List Stmt)}

theorem nil (h : Raises cx st st' []) : Listed cx st st' [] [] := ⟨.nil, h⟩

theorem append (h : Listed cx st st' pairs lists) (h' : Listed cx st' st'' pairs' lists') :
    Listed cx st st'' (pairs ++ pairs') (lists ++ lists') where
  covers := h.covers.append h'.covers
  raises := by
    rw [List.filterMap_append]
    exact h.raises.trans h'.raises

theorem enclosed {kind : ScopeKind} (h : Listed cx (st.enter kind) st' pairs lists) :
    Listed cx st (st'.exit kind) pairs lists := ⟨h.covers, h.raises⟩

theorem cons {ss : List Stmt} {ts : List Typed.Stmt} (hlength : ts.length = ss.length)
    (hc : Covers pairs lists)
    (hr : Raises cx st st' (droppedFrom .live ss ts ++ pairs.filterMap firstDropped)) :
    Listed cx st st' ((ss, ts) :: pairs) (ss :: lists) where
  covers := hc.cons hlength
  raises := hr.perm (.of_eq (by
    simp only [droppedFrom, List.filterMap_cons]
    cases firstDropped (ss, ts) <;> rfl))

end Listed

mutual

theorem keepStmt_listed : ∀ (s : Stmt) {st st' : State} {t : Typed.Stmt},
    keepStmt cx st s = (.ok t, st') → Listed cx st st' (stmtLists s t) (listsOf s)
  | .block body _, st, st', t, h => by
    simp only [keepStmt] at h
    split at h
    · cases h
    rename_i whole st1 hbody
    cases h
    obtain ⟨hcovers, hraises⟩ := keepList_listed body hbody
    exact (Listed.cons (keepList_length hbody) hcovers hraises).enclosed
  | .declare ty name init _, st, st', t, h => by
    simp only [keepStmt] at h
    obtain ⟨hraises, slot, init, rfl⟩ := typeDeclare_raises h
    exact .nil hraises
  | .expr e _, st, st', t, h => by
    simp only [keepStmt] at h
    split at h
    · cases h
    · cases h
      exact .nil (.none rfl)
  | .switch scrutinee cases _, st, st', t, h => by
    simp only [keepStmt] at h
    split at h
    · cases h
    split at h
    · cases h
    split at h
    · cases h
    rename_i labels compare hlabels
    split at h
    · cases h
    rename_i bodies st1 hbodies
    cases h
    have hlength := (keepBodies_length hbodies).trans (typeLabels_length hlabels).symm
    rw [stmtLists, zipWith_body hlength]
    exact (keepBodies_listed cases hbodies).enclosed
  | .leave _, st, st', t, h => by
    simp only [keepStmt] at h
    split at h
    · cases h
    · cases h
      exact .nil (.none rfl)
  | .ret value span, st, st', t, h => by
    simp only [keepStmt, Prod.mk.injEq] at h
    obtain ⟨hret, rfl⟩ := h
    obtain ⟨v, rfl⟩ := typeReturn_ok hret
    exact .nil (.none rfl)
  | .empty _, st, st', t, h => by
    simp only [keepStmt] at h
    cases h
    exact .nil (.none rfl)

theorem keepList_listed : ∀ (ss : List Stmt) {st st' : State} {reach : Reach}
    {ts : List Typed.Stmt}, keepList cx st reach ss = (.ok ts, st') →
    Covers (innerLists ss ts) (listsIn ss) ∧
      Raises cx st st' (droppedFrom reach ss ts ++ (innerLists ss ts).filterMap firstDropped)
  | [], st, st', reach, ts, h => by
    simp only [keepList] at h
    cases h
    cases reach <;> exact ⟨.nil, .none rfl⟩
  | s :: ss, st, st', reach, ts, h => by
    simp only [keepList] at h
    split at h
    · cases h
    rename_i t st1 hs
    split at h
    · cases h
    rename_i reach' st2 hfollow
    split at h
    · cases h
    rename_i rest st3 hrest
    cases h
    obtain ⟨hcovers, hinside⟩ := keepStmt_listed s hs
    obtain ⟨spans, hown, hdropped⟩ := droppedFrom_cons ss rest hfollow
    obtain ⟨hcovers', hlater⟩ := keepList_listed ss hrest
    refine ⟨hcovers.append hcovers', ((hinside.trans hown).trans hlater).perm ?_⟩
    -- what is inside the first statement is reported before the statement itself
    rw [hdropped, innerLists, List.filterMap_append]
    generalize (stmtLists s t).filterMap firstDropped = inside
    generalize (innerLists ss rest).filterMap firstDropped = later
    rw [List.append_assoc, List.append_assoc]
    calc (inside ++ (spans ++ (droppedFrom reach' ss rest ++ later))).Perm
          (spans ++ (droppedFrom reach' ss rest ++ later) ++ inside) := List.perm_append_comm
      _ = spans ++ (droppedFrom reach' ss rest ++ (later ++ inside)) := by
          rw [List.append_assoc, List.append_assoc]
      _ |>.Perm (spans ++ (droppedFrom reach' ss rest ++ (inside ++ later))) :=
          (List.perm_append_comm.append_left _).append_left _

theorem keepBodies_listed : ∀ (cs : List Case) {st st' : State} {bodies : List (List Typed.Stmt)},
    keepBodies cx st cs = (.ok bodies, st') →
    Listed cx st st' (caseLists cs bodies) (listsOfCases cs)
  | [], st, st', bodies, h => by
    simp only [keepBodies] at h
    cases h
    exact .nil (.none rfl)
  | .mk _ body _ :: cs, st, st', bodies, h => by
    simp only [keepBodies] at h
    split at h
    · cases h
    rename_i whole st1 hbody
    split at h
    · cases h
    rename_i rest st2 hrest
    cases h
    obtain ⟨hcovers, hraises⟩ := keepList_listed body hbody
    exact (Listed.cons (keepList_length hbody) hcovers hraises).append (keepBodies_listed cs hrest)

end

/-- Typing a body warns of the first dropped statement of each list in it. -/
theorem keepBody_listed {st st' : State} {body : List Stmt} {whole : List Typed.Stmt}
    (h : keepList cx st .live body = (.ok whole, st')) :
    Listed cx st st' ((body, whole) :: innerLists body whole) (body :: listsIn body) :=
  have ⟨hcovers, hraises⟩ := keepList_listed body h
  .cons (keepList_length h) hcovers hraises

end Typing
end Cascade
