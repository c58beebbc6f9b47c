import Cascade.Typed.Tree

/-!
# Cascade.Typed.Flow

Which statements control can reach the end of, read off the tree.

* A `return` or a `break` never completes, and a list completes if all of its statements do.
* A switch completes if it has no default, or some case breaks out of it, or its last case
  completes.
-/

namespace Cascade.Typed

mutual

/-- A `break` of the statement leaves the switch around it. -/
def Stmt.escapes : Stmt → Bool
  | .leave => true
  | .block body => anyEscapes body
  | .switch .. => false
  | .declare .. => false
  | .expr _ => false
  | .ret _ => false

def anyEscapes : List Stmt → Bool
  | [] => false
  | s :: ss => s.escapes || anyEscapes ss

end

mutual

def Stmt.completes : Stmt → Bool
  | .leave => false
  | .ret _ => false
  | .declare .. => true
  | .expr _ => true
  | .block body => allComplete body
  | .switch _ _ cases =>
    (!cases.any Case.isDefault) || cases.any (fun c => anyEscapes c.body) || lastCompletes cases

def allComplete : List Stmt → Bool
  | [] => true
  | s :: ss => s.completes && allComplete ss

/-- Control can reach the end of the last of some cases. -/
def lastCompletes : List Case → Bool
  | [] => true
  | [.mk _ body] => allComplete body
  | _ :: c :: cs => lastCompletes (c :: cs)

end

end Cascade.Typed
