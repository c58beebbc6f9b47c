import Cascade.Machine.State

/-!
# Cascade.Machine.Step

One step of a run: an instruction or a terminator of the innermost active call. `step` is a total
function and says nothing on how long a run is.
-/

namespace Cascade.Machine

open Code

variable {σ : Type}

inductive Outcome (σ : Type) where
  | next (s : State σ)
  /-- The outermost call has returned. -/
  | done (result : Option Scalar) (s : State σ)
  | fault (f : Fault) (s : State σ)

def store (s : State σ) (i : Nat) (v : Scalar) : Outcome σ :=
  if i < s.slots.top then
    match s with
    | ⟨slots, frames, fields, output, steps⟩ => .next ⟨slots.put i v, frames, fields, output, steps⟩
  else .fault (.slotRange i s.slots.top) s

def writeNext (s : State σ) (fr : Frame) (r : Register) (v : Scalar) : Outcome σ :=
  store s (fr.registers + r.id) v

/-- Execute an instruction of the innermost call, whose frame `fr` is. -/
def execInstr [Output σ] (m : Module) (limits : Limits) (s : State σ) (fr : Frame) :
    Instr → Outcome σ
  | .const d v => writeNext s fr d v
  | .copy d r =>
    match fr.read s.slots r with
    | .error e => .fault e s
    | .ok v => writeNext s fr d v
  | .binary d op l r =>
    match fr.read s.slots l with
    | .error e => .fault e s
    | .ok a =>
      match fr.read s.slots r with
      | .error e => .fault e s
      | .ok b =>
        match Scalar.binary op a b with
        | .error e => .fault (.ofArith e) s
        | .ok v => writeNext s fr d v
  | .unary d op r =>
    match fr.read s.slots r with
    | .error e => .fault e s
    | .ok v => writeNext s fr d (Scalar.unary op v)
  | .convert d r =>
    match fr.read s.slots r with
    | .error e => .fault e s
    | .ok v =>
      match v.convert d.ty with
      | none => .fault (.type (.conversion v.ty d.ty)) s
      | some w => writeNext s fr d w
  | .loadLocal d i =>
    match s.slots.get (fr.base + i) with
    | .error e => .fault e s
    | .ok v => writeNext s fr d v
  | .storeLocal i r =>
    match fr.read s.slots r with
    | .error e => .fault e s
    | .ok v => store s (fr.base + i) v
  | .loadField d f =>
    match s.fields[f]? with
    | none => .fault (.unknownField f) s
    | some v => writeNext s fr d v
  | .storeField f r =>
    match fr.read s.slots r with
    | .error e => .fault e s
    | .ok v =>
      if f < s.fields.length then
        .next ⟨s.slots, s.frames, s.fields.set f v, s.output, s.steps⟩
      else .fault (.unknownField f) s
  | .call d f =>
    match s.push m limits f d with
    | .error (e, s) => .fault e s
    | .ok s => .next s
  | .print r =>
    match fr.read? s.slots r with
    | .error e => .fault e s
    | .ok v =>
      match Output.println s.output v with
      | (.ok (), output) => .next ⟨s.slots, s.frames, s.fields, output, s.steps⟩
      | (.error e, output) => .fault (.output e) ⟨s.slots, s.frames, s.fields, output, s.steps⟩

/-- The label of a case that a value selects. -/
def selectCase (n : Int) (cases : List (Int × BlockId)) (otherwise : BlockId) : BlockId :=
  (cases.lookup n).getD otherwise

/-- Go on in another block of the innermost call `fr`, below which are the calls `rest`. -/
def jump (s : State σ) (fr : Frame) (rest : List Frame) (b : BlockId) : Outcome σ :=
  .next ⟨s.slots, ⟨fr.function, b, 0, fr.base, fr.registers, fr.dest⟩ :: rest, s.fields, s.output,
    s.steps⟩

def leave (s : State σ) (fr : Frame) (rest : List Frame) (name : String) (v : Option Scalar) :
    Outcome σ :=
  let s : State σ := ⟨s.slots.free fr.base, rest, s.fields, s.output, s.steps⟩
  match rest, fr.dest with
  | [], _ => .done v s
  | _ :: _, none => .next s
  | caller :: _, some d =>
    match v with
    | none => .fault (.type (.noResult name)) s
    | some v => writeNext s caller d v

/-- Execute the terminator of a block of the innermost call `fr`. -/
def execTerm (s : State σ) (fr : Frame) (rest : List Frame) (f : Function) : Terminator → Outcome σ
  | .jump b => jump s fr rest b
  | .branch c yes no =>
    match fr.read s.slots c with
    | .error e => .fault e s
    | .ok v => jump s fr rest (if v.isTrue then yes else no)
  | .switch r cases otherwise =>
    match fr.read s.slots r with
    | .error e => .fault e s
    | .ok v =>
      match v.toInt? with
      | none => .fault (.type (.switchOn v.ty)) s
      | some n => jump s fr rest (selectCase n cases otherwise)
  | .ret r =>
    match fr.read? s.slots r with
    | .error e => .fault e s
    | .ok v => leave s fr rest f.name v
  | .unreachable => .fault (.unreachable f.name fr.block) s

/-- The frame as it is while its next instruction is executed. -/
def Frame.advance (fr : Frame) : Frame :=
  ⟨fr.function, fr.block, fr.next + 1, fr.base, fr.registers, fr.dest⟩

def step [Output σ] (m : Module) (limits : Limits) (s : State σ) : Outcome σ :=
  match s.frames with
  | [] => .done none s
  | fr :: rest =>
    match m.functions[fr.function]? with
    | none => .fault (.unknownFunction fr.function) s
    | some f =>
      match f.block? fr.block with
      | none => .fault (.unknownBlock f.name fr.block) s
      | some b =>
        match b.code[fr.next]? with
        | some i =>
          execInstr m limits ⟨s.slots, fr.advance :: rest, s.fields, s.output, s.steps + 1⟩ fr i
        | none =>
          execTerm ⟨s.slots, fr :: rest, s.fields, s.output, s.steps + 1⟩ fr rest f b.term

end Cascade.Machine
