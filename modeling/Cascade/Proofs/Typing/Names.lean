import Cascade.Proofs.Scope.Journal
import Cascade.Proofs.Typing.Stmt

/-!
# Cascade.Proofs.Typing.Names

Where names stand in a program and what stands for them in its typed form, both in the order in
which they are written.

* `Syntax.Stmt.events`: the names that a statement uses and what it does to the scopes.
* `Occurrence.among`: each use with the journal of all that was done to the scopes before it.
* `Typed.Stmt.refs`: the storage and the callees that a typed statement names.
-/

namespace Cascade

/-! ## Names as they are written -/

namespace Syntax

/-- One place where a name is used. -/
inductive Use where
  | name (id : Ident)
  | path (p : Path)
  | callee (p : Path)
  deriving DecidableEq, Repr

/-- Using a name or changing the scopes. -/
inductive Event where
  | use (u : Use)
  | act (a : Act)

mutual

/-- The names in an expression. That of a target comes before those in the value assigned to it,
and that of a callee before those in the arguments. -/
def Expr.uses : Expr → List Use
  | .int _ _ _ | .float _ _ => []
  | .name id => [.name id]
  | .path p => [.path p]
  | .sign _ operand _ => operand.uses
  | .update _ _ target _ => target.uses
  | .binary _ left right _ => left.uses ++ right.uses
  | .logical _ left right _ => left.uses ++ right.uses
  | .assign target value _ => target.uses ++ value.uses
  | .call callee args _ => .callee callee :: usesOfArgs args
  | .paren inner _ => inner.uses

def usesOfArgs : List Expr → List Use
  | [] => []
  | e :: es => e.uses ++ usesOfArgs es

end

def usesOfOption : Option Expr → List Use
  | none => []
  | some e => e.uses

def usesOfLabels (cases : List Case) : List Use := cases.flatMap fun c => usesOfOption c.test

mutual

/-- A declaration comes behind its own initial value. The labels of a switch stand outside the
scope that its cases share. -/
def Stmt.events : Stmt → List Event
  | .block body _ => .act (.push .block) :: eventsOfList body ++ [.act .pop]
  | .declare ty name init _ =>
    (usesOfOption init).map .use ++ [.act (.declare name.name ty name.span)]
  | .expr e _ => e.uses.map .use
  | .switch scrutinee cases _ =>
    (scrutinee.uses ++ usesOfLabels cases).map .use ++
      (.act (.push .switch) :: eventsOfCases cases ++ [.act .pop])
  | .leave _ | .empty _ => []
  | .ret value _ => (usesOfOption value).map .use

def eventsOfList : List Stmt → List Event
  | [] => []
  | s :: ss => s.events ++ eventsOfList ss

def eventsOfCases : List Case → List Event
  | [] => []
  | .mk _ body _ :: cs => eventsOfList body ++ eventsOfCases cs

end

theorem Expr.uses_stripParens : ∀ e : Expr, e.stripParens.uses = e.uses
  | .paren inner _ => by
    simp only [stripParens, uses]
    exact uses_stripParens inner
  | .int .. | .float .. | .name _ | .path _ | .sign .. | .update .. | .binary .. | .logical ..
  | .assign .. | .call .. => rfl

end Syntax

open Syntax

def Journal.through (j : Journal) : List Event → Journal
  | [] => j
  | .use _ :: es => j.through es
  | .act a :: es => (j.note a).through es

def Event.local? : Event → Option Local
  | .act (.declare x ty span) => some ⟨x, ty, span⟩
  | .act (.push _) | .act .pop | .use _ => none

/-- A slot for each declaration among some events, in the order in which they are written. -/
def localsOf (es : List Event) : List Local := es.filterMap Event.local?

/-- A use of a name, with the journal of all that was done to the scopes before it. -/
structure Occurrence where
  before : Journal
  use : Use

def Occurrence.among (j : Journal) : List Event → List Occurrence
  | [] => []
  | .use u :: es => ⟨j, u⟩ :: among j es
  | .act a :: es => among (j.note a) es

theorem localsOf_append (es fs : List Event) :
    localsOf (es ++ fs) = localsOf es ++ localsOf fs := List.filterMap_append

theorem localsOf_uses (us : List Use) : localsOf (us.map .use) = [] := by
  simp [localsOf, Event.local?]

section

variable (j : Journal)

theorem Journal.through_append (es fs : List Event) :
    j.through (es ++ fs) = (j.through es).through fs := by
  induction es generalizing j with
  | nil => rfl
  | cons e es ih =>
    cases e with
    | use u => exact ih j
    | act a => exact ih (j.note a)

theorem Occurrence.among_append (es fs : List Event) :
    among j (es ++ fs) = among j es ++ among (j.through es) fs := by
  induction es generalizing j with
  | nil => rfl
  | cons e es ih =>
    cases e with
    | use u => exact congrArg (Occurrence.mk j u :: ·) (ih j)
    | act a => exact ih (j.note a)

theorem Journal.through_uses (us : List Use) : j.through (us.map .use) = j := by
  induction us with
  | nil => rfl
  | cons u us ih => exact ih

theorem Occurrence.among_uses (us : List Use) : among j (us.map .use) = us.map (.mk j) := by
  induction us with
  | nil => rfl
  | cons u us ih => exact congrArg (Occurrence.mk j u :: ·) ih

theorem Journal.note_log (a : Act) : j.log <:+ (j.note a).log := by
  cases a with
  | push kind => exact List.suffix_refl _
  | pop =>
    simp only [note]
    split <;> exact List.suffix_refl _
  | declare x ty span =>
    simp only [note]
    split
    · exact List.suffix_refl _
    · exact List.suffix_cons _ _

theorem Journal.through_log (es : List Event) : j.log <:+ (j.through es).log := by
  induction es generalizing j with
  | nil => exact List.suffix_refl _
  | cons e es ih =>
    cases e with
    | use u => exact ih j
    | act a => exact (j.note_log a).trans (ih (j.note a))

/-- What was declared before a use is never forgotten. -/
theorem Occurrence.among_log (es : List Event) :
    ∀ o ∈ among j es, o.before.log <:+ (j.through es).log := by
  induction es generalizing j with
  | nil => simp [among]
  | cons e es ih =>
    cases e with
    | use u =>
      intro o ho
      obtain rfl | ho := List.mem_cons.mp ho
      · exact j.through_log es
      · exact ih j o ho
    | act a => exact ih (j.note a)

end

/-! ## Names as they are typed -/

namespace Typed

/-- What a name is replaced by. -/
inductive Ref where
  | place (p : Place)
  | method (m : MethodId)
  | print
  deriving DecidableEq, Repr

def Expr.refs : Expr → List Ref
  | .const _ _ _ => []
  | .load place _ _ => [.place place]
  | .convert e _ _ => e.refs
  | .unary _ e _ _ => e.refs
  | .binary _ l r _ _ => l.refs ++ r.refs
  | .logical _ l r _ _ => l.refs ++ r.refs
  | .update place _ _ _ _ => [.place place]
  | .assign place value _ _ => .place place :: value.refs
  | .call m _ _ => [.method m]
  | .print value _ _ => .print :: value.refs
  | .printBlank _ _ => [.print]

def refsOfOption : Option Expr → List Ref
  | none => []
  | some e => e.refs

mutual

/-- What names are replaced by in a statement; a declaration is not itself a use of its slot. -/
def Stmt.refs : Stmt → List Ref
  | .block body => refsOfList body
  | .declare _ init => refsOfOption init
  | .expr e => e.refs
  | .switch scrutinee _ cases => scrutinee.refs ++ refsOfCases cases
  | .leave => []
  | .ret value => refsOfOption value

def refsOfList : List Stmt → List Ref
  | [] => []
  | s :: ss => s.refs ++ refsOfList ss

def refsOfCases : List Case → List Ref
  | [] => []
  | .mk _ body :: cs => refsOfList body ++ refsOfCases cs

end

@[simp] theorem Expr.refs_withSpan (e : Expr) (span : Span) : (e.withSpan span).refs = e.refs := by
  cases e <;> rfl

@[simp] theorem Expr.refs_cast (e : Expr) (ty : Ty) : (e.cast ty).refs = e.refs := by
  unfold cast
  split <;> rfl

theorem Expr.refs_constant {e : Expr} {v : Scalar} (h : e.constant? = some v) : e.refs = [] := by
  induction e generalizing v with
  | const => rfl
  | convert e ty span ih =>
    simp only [constant?] at h
    split at h
    · rename_i he
      exact ih he
    · cases h
  | unary op e ty span ih =>
    simp only [constant?] at h
    split at h
    · rename_i he
      exact ih he
    · cases h
  | binary op l r ty span ihl ihr =>
    simp only [constant?] at h
    split at h
    · rename_i hl hr
      simp only [refs, ihl hl, ihr hr, List.append_nil]
    · cases h
  | logical op l r ty span ihl ihr =>
    simp only [constant?] at h
    split at h
    · rename_i hl hr
      simp only [refs, ihl hl, ihr hr, List.append_nil]
    · cases h
  | load | update | assign | call | print | printBlank => cases h

theorem refsOfCases_zipWith : ∀ {labels : List (Option Int)} {bodies : List (List Stmt)},
    labels.length = bodies.length →
    refsOfCases (labels.zipWith .mk bodies) = bodies.flatMap refsOfList
  | [], [], _ => rfl
  | _ :: _, b :: bs, h => by
    rw [List.zipWith_cons_cons, refsOfCases, List.flatMap_cons,
      refsOfCases_zipWith (Nat.succ.inj h)]

end Typed

namespace Typing

theorem fit_refs {settings : Settings} {e e' : Typed.Expr} {ty : Ty}
    (h : fit settings e ty = .ok e') : e'.refs = e.refs := by
  unfold fit at h
  split at h
  · cases h
  · cases h
    exact e.refs_cast ty

theorem typeSign_refs {op : SignOp} {e e' : Typed.Expr} {span : Span}
    (h : typeSign op e span = .ok e') : e'.refs = e.refs := by
  unfold typeSign at h
  split at h
  · cases h
  cases op with
  | plus =>
    cases h
    exact e.refs_withSpan span
  | minus | not =>
    cases h
    rfl

theorem typeBinary_refs {op : BinaryOp} {l r e : Typed.Expr} {span : Span}
    (h : typeBinary op l r span = .ok e) : e.refs = l.refs ++ r.refs := by
  unfold typeBinary at h
  split at h
  · cases h
  · cases h
    simp only [Typed.Expr.refs, Typed.Expr.refs_cast]

end Typing

end Cascade
