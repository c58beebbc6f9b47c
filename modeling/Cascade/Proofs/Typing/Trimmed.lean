import Cascade.Proofs.Typing.Kept

/-!
# Cascade.Proofs.Typing.Trimmed

Typing leaves no statement in a list behind one that control cannot get past.

* `Typed.ListTrimmed`: a list all of whose statements complete, but perhaps the last, and likewise
  for the lists inside it.
* `typeBody_trimmed`: what typing leaves of a body is such a list.
-/

namespace Cascade

namespace Typed

mutual

/-- In every list of the statement, all statements but the last complete. -/
def Stmt.Trimmed : Stmt → Prop
  | .block body => ListTrimmed body
  | .declare .. => True
  | .expr _ => True
  | .switch _ _ cases => CasesTrimmed cases
  | .leave => True
  | .ret _ => True

def ListTrimmed : List Stmt → Prop
  | [] => True
  | s :: ss => s.Trimmed ∧ (ss ≠ [] → s.completes = true) ∧ ListTrimmed ss

def CasesTrimmed : List Case → Prop
  | [] => True
  | .mk _ body :: cs => ListTrimmed body ∧ CasesTrimmed cs

end

/-- A `break` that leaves a trimmed list stands where control gets to. -/
theorem ListTrimmed.escapes_cons {s : Stmt} {ss : List Stmt} (h : ListTrimmed (s :: ss))
    (he : anyEscapes (s :: ss) = true) :
    s.escapes = true ∨ s.completes = true ∧ anyEscapes ss = true := by
  simp only [anyEscapes, Bool.or_eq_true] at he
  refine he.imp_right fun he => ⟨h.2.1 ?_, he⟩
  rintro rfl
  cases he

mutual

theorem trim_trimmed : ∀ s : Stmt, s.trim.Trimmed
  | .block body => trimList_trimmed body
  | .declare .. => trivial
  | .expr _ => trivial
  | .switch _ _ cases => trimCases_trimmed cases
  | .leave => trivial
  | .ret _ => trivial

theorem trimList_trimmed : ∀ ss : List Stmt, ListTrimmed (trimList ss)
  | [] => trivial
  | s :: ss => by
    by_cases hc : s.trim.completes = true
    · simp only [trimList, if_pos hc]
      exact ⟨trim_trimmed s, fun _ => hc, trimList_trimmed ss⟩
    · simp only [trimList, if_neg hc]
      exact ⟨trim_trimmed s, fun h => absurd rfl h, trivial⟩

theorem trimCases_trimmed : ∀ cs : List Case, CasesTrimmed (trimCases cs)
  | [] => trivial
  | .mk _ body :: cs => ⟨trimList_trimmed body, trimCases_trimmed cs⟩

end

end Typed

namespace Typing

open Syntax
open Typed (ListTrimmed)

theorem typeBody_trimmed {cx : Context} {st st' : State} {body : List Stmt}
    {ts : List Typed.Stmt} (h : typeBody cx st body = (.ok ts, st')) : ListTrimmed ts := by
  obtain ⟨whole, -, rfl⟩ := typeList_of_ok h
  exact Typed.trimList_trimmed whole

end Typing
end Cascade
