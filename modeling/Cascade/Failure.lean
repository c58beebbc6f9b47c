import Cascade.Finding

/-!
# Cascade.Failure

How work on a program can end before its time. Besides the reasons that there are to refuse a
program, a number can be used to read a table that has nothing under it. That is an outcome of its
own here, so that it can be shown never to happen.
-/

namespace Cascade

/-- A number under which there is nothing, in the table that it is for. -/
inductive Stray where
  | cls (c : Nat)
  | member (kind : MemberKind) (i : Nat)
  | block (b : Nat)
  /-- The cases of a switch. -/
  | case (i : Nat)
  deriving DecidableEq, Repr

inductive Failure (ε : Type) where
  | rejected (reason : ε)
  | stray (s : Stray)
  deriving DecidableEq, Repr

def Failure.map {ε ε' : Type} (f : ε → ε') : Failure ε → Failure ε'
  | .rejected reason => .rejected (f reason)
  | .stray s => .stray s

end Cascade
