import Cascade.Catalog.Basic
import Cascade.Operator
import Cascade.Scalar

/-!
# Cascade.Code.Instr

Instructions on typed registers, and the terminators that end a block of them.
-/

namespace Cascade.Code

abbrev BlockId := Nat
abbrev FunctionId := Nat
abbrev LocalIndex := Nat

structure Register where
  id : Nat
  ty : Ty
  deriving DecidableEq, Repr, Inhabited

inductive Instr where
  | const (dest : Register) (value : Scalar)
  | copy (dest source : Register)
  | binary (dest : Register) (op : BinaryOp) (left right : Register)
  | unary (dest : Register) (op : UnaryOp) (operand : Register)
  /-- Conversion to the type of the destination. -/
  | convert (dest operand : Register)
  | loadLocal (dest : Register) (index : LocalIndex)
  | storeLocal (index : LocalIndex) (value : Register)
  | loadField (dest : Register) (field : FieldId)
  | storeField (field : FieldId) (value : Register)
  /-- Call in a frame of its own; the result goes to `dest`, if there is one. -/
  | call (dest : Option Register) (callee : FunctionId)
  | print (value : Option Register)
  deriving DecidableEq, Inhabited

namespace Instr

def dest? : Instr → Option Register
  | .const d _ => some d
  | .copy d _ => some d
  | .binary d _ _ _ => some d
  | .unary d _ _ => some d
  | .convert d _ => some d
  | .loadLocal d _ => some d
  | .loadField d _ => some d
  | .call d _ => d
  | .storeLocal .. | .storeField .. | .print _ => none

def reads : Instr → List Register
  | .const _ _ => []
  | .copy _ r => [r]
  | .binary _ _ l r => [l, r]
  | .unary _ _ r => [r]
  | .convert _ r => [r]
  | .loadLocal _ _ => []
  | .storeLocal _ r => [r]
  | .loadField _ _ => []
  | .storeField _ r => [r]
  | .call _ _ => []
  | .print r => r.toList

def hasEffect : Instr → Bool
  | .storeLocal .. | .storeField .. | .call .. | .print .. => true
  | .const .. | .copy .. | .binary .. | .unary .. | .convert .. | .loadLocal .. | .loadField .. =>
    false

end Instr

inductive Terminator where
  | jump (target : BlockId)
  /-- Go to `yes` if the condition is true and to `no` otherwise. -/
  | branch (cond : Register) (yes no : BlockId)
  | ret (value : Option Register)
  /-- Go to the block of the first label that equals the value, or else to `otherwise`. -/
  | switch (value : Register) (cases : List (Int × BlockId)) (otherwise : BlockId)
  /-- The block is still open, and to get here is a fault. -/
  | unreachable
  deriving DecidableEq, Repr, Inhabited

namespace Terminator

def isClosed : Terminator → Bool
  | .unreachable => false
  | _ => true

/-- The blocks where control may go on, those of labels first. -/
def targets : Terminator → List BlockId
  | .jump b => [b]
  | .branch _ y n => [y, n]
  | .ret _ => []
  | .switch _ cases d => cases.map Prod.snd ++ [d]
  | .unreachable => []

def reads : Terminator → List Register
  | .jump _ => []
  | .branch c _ _ => [c]
  | .ret r => r.toList
  | .switch r _ _ => [r]
  | .unreachable => []

end Terminator

end Cascade.Code
