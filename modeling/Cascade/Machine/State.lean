import Cascade.Machine.Output
import Cascade.Machine.Slots
import Cascade.Settings.Basic

/-!
# Cascade.Machine.State

What a run works on: the slots of the active calls, the calls themselves, the fields, and where it
prints to. A call has its local variables at the start of its window and its registers behind
them.
-/

namespace Cascade.Machine

open Code

structure Frame where
  function : FunctionId
  block : BlockId
  /-- The next instruction of the block; past its end comes the terminator. -/
  next : Nat
  base : Nat
  /-- Start of the registers in the window. -/
  registers : Nat
  /-- The register of the caller that waits for the result. -/
  dest : Option Register
  deriving DecidableEq, Repr

/-- What a run that prints to a destination of type `σ` has come to. -/
structure State (σ : Type) where
  slots : Slots
  /-- The active calls, innermost first. -/
  frames : List Frame
  fields : List Scalar
  output : σ
  /-- How many instructions and terminators have been executed. -/
  steps : Nat
  deriving DecidableEq

/-- Nothing is active or stored. -/
def State.fresh {σ : Type} (output : σ) : State σ := ⟨.empty, [], [], output, 0⟩

def State.start : State Lines := .fresh #[]

namespace Frame

def read (fr : Frame) (s : Slots) (r : Register) : Except Fault Scalar :=
  s.get (fr.registers + r.id)

def read? (fr : Frame) (s : Slots) : Option Register → Except Fault (Option Scalar)
  | none => .ok none
  | some r =>
    match fr.read s r with
    | .error e => .error e
    | .ok v => .ok (some v)

end Frame

/-- Give local variables from slot `i` on the zeros of their types, up to the first that has none,
which is the fault. -/
def clearLocals (s : Slots) (i : Nat) : List Code.Local → Slots × Option Fault
  | [] => (s, none)
  | l :: ls =>
    match Scalar.zero? l.ty with
    | none => (s, some (.type (.voidLocal l.ty)))
    | some z => clearLocals (s.put i z) (i + 1) ls

def zeroFields : List Code.Field → Except Fault (List Scalar)
  | [] => .ok []
  | f :: fs =>
    match Scalar.zero? f.ty with
    | none => .error (.type (.voidField f.name f.ty))
    | some z =>
      match zeroFields fs with
      | .error e => .error e
      | .ok zs => .ok (z :: zs)

namespace State

variable {σ : Type}

/-- The value of the first field with a name. -/
def field? (s : State σ) (m : Module) (name : String) : Option Scalar :=
  match m.fields.findIdx? fun f => f.name == name with
  | some i => s.fields[i]?
  | none => none

/-- Drop all active calls with their slots. -/
def unwind (s : State σ) : State σ :=
  match s.frames.getLast? with
  | none => s
  | some fr => ⟨s.slots.free fr.base, [], s.fields, s.output, s.steps⟩

/-- Make a call active. The state is given on failure too, since a window may be added before a
local variable turns out to have no zero. -/
def push (m : Module) (limits : Limits) (s : State σ) (f : FunctionId) (dest : Option Register) :
    Except (Fault × State σ) (State σ) :=
  let depth := s.frames.length + 1
  if limits.maxCallDepth < depth then .error (.stackOverflow depth, s)
  else
    match m.functions[f]? with
    | none => .error (.unknownFunction f, s)
    | some g =>
      let base := s.slots.top
      let count := g.locals.length + g.registers
      if !s.slots.hasRoom limits.maxRegisters count then .error (.stackOverflow depth, s)
      else
        match s with
        | ⟨slots, frames, fields, output, steps⟩ =>
          match clearLocals (slots.grow count) base g.locals with
          | (slots, some e) => .error (e, ⟨slots, frames, fields, output, steps⟩)
          | (slots, none) =>
            .ok ⟨slots, ⟨f, g.entry, 0, base, base + g.locals.length, dest⟩ :: frames, fields,
              output, steps⟩

end State

end Cascade.Machine
