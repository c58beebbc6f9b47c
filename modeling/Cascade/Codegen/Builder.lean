import Cascade.Code.Module
import Cascade.Codegen.Error

/-!
# Cascade.Codegen.Builder

A function under construction. Blocks are numbered by their places while the function is built, and
instructions go to the end of the current block.

* `Lower`: a step of code generation, which changes the builder or fails. There may be no current
  block to change: that is a failure too.
-/

namespace Cascade.Codegen

open Code

/-- Blocks, local variables and registers made so far. -/
structure Builder where
  locals : List Code.Local
  blocks : List Block
  current : BlockId
  registers : Nat
  deriving DecidableEq

namespace Builder

/-- One open block, which is current. -/
def start (locals : List Code.Local) : Builder := ⟨locals, [.empty 0 (some "entry")], 0, 0⟩

def newRegister (b : Builder) (ty : Ty) : Register × Builder :=
  (⟨b.registers, ty⟩, ⟨b.locals, b.blocks, b.current, b.registers + 1⟩)

/-- A local variable without a name. -/
def newLocal (b : Builder) (ty : Ty) : LocalIndex × Builder :=
  (b.locals.length, ⟨b.locals ++ [⟨none, ty⟩], b.blocks, b.current, b.registers⟩)

/-- An empty block at the end of the layout. -/
def newBlock (b : Builder) (label : String) : BlockId × Builder :=
  (b.blocks.length,
    ⟨b.locals, b.blocks ++ [.empty b.blocks.length (some label)], b.current, b.registers⟩)

def goto (b : Builder) (id : BlockId) : Builder := ⟨b.locals, b.blocks, id, b.registers⟩

def isClosed (b : Builder) : Bool :=
  match b.blocks[b.current]? with
  | some c => c.isClosed
  | none => false

end Builder

abbrev Lower := StateT Builder (Except (Failure Error))

namespace Lower

def fail {α : Type} (e : Error) : Lower α := fun _ => .error (.rejected e)

def stray {α : Type} (s : Stray) : Lower α := fun _ => .error (.stray s)

def newRegister (ty : Ty) : Lower Register := fun b => .ok (b.newRegister ty)

def newLocal (ty : Ty) : Lower LocalIndex := fun b => .ok (b.newLocal ty)

def newBlock (label : String) : Lower BlockId := fun b => .ok (b.newBlock label)

def goto (id : BlockId) : Lower Unit := fun b => .ok ((), b.goto id)

def isClosed : Lower Bool := fun b => .ok (b.isClosed, b)

def change (f : Block → Block) : Lower Unit := fun b =>
  match b.blocks[b.current]? with
  | some c => .ok ((), ⟨b.locals, b.blocks.set b.current (f c), b.current, b.registers⟩)
  | none => .error (.stray (.block b.current))

def emit (i : Instr) : Lower Unit := change (·.emit i)

def close (t : Terminator) : Lower Unit := change (·.close t)

def constant (v : Scalar) : Lower Register := do
  let r ← newRegister v.ty
  emit (.const r v)
  return r

def zero (ty : Ty) (span : Span) : Lower Register :=
  match Scalar.zero? ty with
  | some v => constant v
  | none => fail (.noZero ty span)

end Lower

end Cascade.Codegen
