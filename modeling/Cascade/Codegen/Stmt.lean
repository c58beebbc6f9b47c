import Cascade.Codegen.Expr
import Cascade.Codegen.Switches

/-!
# Cascade.Codegen.Stmt

Code for statements. A switch dispatches to one block for each case; a case that runs off its end
goes on in the block of the next one, and the last goes behind the switch.

* A statement behind a closed block gets a block of its own that nothing leads to.
-/

namespace Cascade.Codegen

open Code Lower

namespace Lower

/-- Go on in a fresh block if the current one has ended. -/
def reopen : Lower Unit := do
  if ← isClosed then
    let dead ← newBlock "dead"
    goto dead

def declare (p : Typed.Program) (slot : Slot) (init : Option Typed.Expr) : Lower Unit := do
  let value ← match init with
    | some e => lowerValue p e
    | none =>
      match (← get).locals[slot]? with
      | none => fail (.undeclaredSlot slot)
      | some l => zero l.ty .zero
  emit (.storeLocal slot value)

def leaveFunction (p : Typed.Program) (value : Option Typed.Expr) : Lower Unit :=
  match value with
  | none => close (.ret none)
  | some e => do
    let r ← lowerValue p e
    close (.ret (some r))

def newCaseBlocks (i : Nat) : Nat → Lower (List BlockId)
  | 0 => return []
  | n + 1 => do
    let c ← newBlock ("switch.case" ++ toString i)
    let rest ← newCaseBlocks (i + 1) n
    return c :: rest

end Lower

/-- The labels of a switch and where they lead. -/
def labelled : List Typed.Case → List BlockId → List (Int × BlockId)
  | .mk (some n) _ :: cs, b :: bs => (n, b) :: labelled cs bs
  | .mk none _ :: cs, _ :: bs => labelled cs bs
  | _, _ => []

/-- Where a switch leads if no label matches. -/
def OpenSwitch.default (s : OpenSwitch) (cases : List Typed.Case) : Lower BlockId :=
  match cases.findIdx? Typed.Case.isDefault with
  | some i => s.case i
  | none => return s.behind

def Lower.openSwitch (scrutinee : Register) (cases : List Typed.Case) : Lower OpenSwitch := do
  let blocks ← newCaseBlocks 0 cases.length
  let behind ← newBlock "switch.exit"
  let s : OpenSwitch := ⟨behind, blocks⟩
  let default ← s.default cases
  close (.switch scrutinee (labelled cases blocks) default)
  return s

mutual

def lowerStmt (p : Typed.Program) (switches : Switches) : Typed.Stmt → Lower Unit
  | .block body => do
    reopen
    lowerList p switches body
  | .declare slot init => do
    reopen
    declare p slot init
  | .expr e => do
    reopen
    let _ ← lowerExpr p e
  | .switch scrutinee _ cases => do
    reopen
    let r ← lowerValue p scrutinee
    let s ← openSwitch r cases
    lowerCases p (switches.push s) s 0 cases
    goto s.behind
  | .leave => do
    reopen
    match switches.exit? with
    | none => fail .breakOutsideSwitch
    | some target => close (.jump target)
  | .ret value => do
    reopen
    leaveFunction p value

def lowerList (p : Typed.Program) (switches : Switches) : List Typed.Stmt → Lower Unit
  | [] => return
  | s :: ss => do
    lowerStmt p switches s
    lowerList p switches ss

/-- Code for the bodies of cases numbered from `i` on, each into its own block. -/
def lowerCases (p : Typed.Program) (switches : Switches) (s : OpenSwitch) (i : Nat) :
    List Typed.Case → Lower Unit
  | [] => return
  | .mk _ body :: cs => do
    goto (← s.case i)
    lowerList p switches body
    if !(← isClosed) then
      close (.jump (s.fallThrough i))
    lowerCases p switches s (i + 1) cs

end

end Cascade.Codegen
