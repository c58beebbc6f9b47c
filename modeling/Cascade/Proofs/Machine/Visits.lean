import Cascade.Proofs.Code.Certified
import Cascade.Proofs.Machine.Steps

/-!
# Cascade.Proofs.Machine.Visits

The states that a run goes through, each with a record of the registers that were written by then
in each active call.

* `noted`: the record after one more step.
* `Visits`: the states of a call from outside; `RunState`: the states of a run.
* `StateTyped`: all that a state stores has its declared type.
-/

namespace Cascade.Machine

open Code

variable {σ : Type}

/-! ## Written registers -/

/-- What a call does next: an instruction, or the terminator of its block. -/
def next? (m : Module) (fr : Frame) : Option (Instr ⊕ Terminator) :=
  match m.functions[fr.function]? with
  | none => none
  | some f =>
    match f.block? fr.block with
    | none => none
    | some b =>
      match b.code[fr.next]? with
      | some i => some (.inl i)
      | none => some (.inr b.term)

def arrived (dest : Option Register) (w : List Nat) : List Nat :=
  match dest with
  | some d => d.id :: w
  | none => w

/-- The registers written in the active calls after an instruction of the innermost one, where `w`
were written in it. In a new call none is written, and in the one that waits for it nothing was
written yet. -/
def notedInstr (w : List Nat) (ws : List (List Nat)) (i : Instr) : List (List Nat) :=
  match i with
  | .call _ _ => [] :: w :: ws
  | i => arrived i.dest? w :: ws

/-- After a terminator. The register that waits for the result of a call is written when the call
returns. -/
def notedTerm (dest : Option Register) (w : List Nat) (ws : List (List Nat)) (t : Terminator) :
    List (List Nat) :=
  match t, ws with
  | .ret _, w :: ws => arrived dest w :: ws
  | .ret _, [] => []
  | _, ws => w :: ws

/-- The registers written in the active calls, innermost first, after the next step. -/
def noted (m : Module) (s : State σ) (written : List (List Nat)) : List (List Nat) :=
  match s.frames, written with
  | fr :: _, w :: ws =>
    match next? m fr with
    | some (.inl i) => notedInstr w ws i
    | some (.inr t) => notedTerm fr.dest w ws t
    | none => w :: ws
  | _, _ => written

/-! ## Reachable states -/

/-- The states that a call from outside goes through. -/
inductive Visits [Output σ] (m : Module) (limits : Limits) (f : FunctionId) (s₀ : State σ) :
    State σ → List (List Nat) → Prop where
  | entered {s : State σ} : s₀.push m limits f none = .ok s → Visits m limits f s₀ s [[]]
  | next {s s' : State σ} {written : List (List Nat)} : Visits m limits f s₀ s written →
      step m limits s = .next s' → Visits m limits f s₀ s' (noted m s written)

/-- The state of a run when all fields are zero and nothing was called yet. -/
def State.zeroed (zeros : List Scalar) : State Lines := ⟨.empty, [], zeros, #[], 0⟩

/-- The states of a run that prints to memory: those of its two calls, the one before them and the
one behind them. -/
inductive RunState (m : Module) (limits : Limits) : State Lines → List (List Nat) → Prop where
  | zeroed {zeros : List Scalar} : zeroFields m.fields = .ok zeros →
      RunState m limits (.zeroed zeros) []
  | initializer {zeros : List Scalar} {s : State Lines} {written : List (List Nat)} :
      zeroFields m.fields = .ok zeros →
      Visits m limits m.initializer (.zeroed zeros) s written → RunState m limits s written
  | entry {zeros : List Scalar} {v : Option Scalar} {s₀ s : State Lines}
      {written : List (List Nat)} :
      zeroFields m.fields = .ok zeros →
      CallEnds m limits m.initializer (.zeroed zeros) (.ok v, s₀) →
      Visits m limits m.entry s₀ s written → RunState m limits s written
  | ended {fuel : Nat} {r : Except Fault (Option Scalar)} {s : State Lines} :
      run m limits fuel .start = some (r, s) → RunState m limits s []

/-! ## Types of what is stored -/

/-- Types for the registers of a function: one for each of them, and the one that the code gives it
wherever it is named. -/
structure RegisterTypes (f : Function) (types : List Ty) : Prop where
  length : types.length = f.registers
  code : ∀ b ∈ f.blocks, ∀ i ∈ b.code, ∀ r ∈ i.dest?.toList ++ i.reads,
    types[r.id]? = some r.ty
  term : ∀ b ∈ f.blocks, ∀ r ∈ b.term.reads, types[r.id]? = some r.ty

/-- Every local variable of a call of a function and every register that is written in it holds a
value of its type. -/
structure FrameTyped (f : Function) (types : List Ty) (c : Slots) (fr : Frame) (w : List Nat) :
    Prop where
  locals : ∀ i l, f.locals[i]? = some l → ∃ v, c.cells[fr.base + i]? = some v ∧ v.ty = l.ty
  registers : ∀ j ∈ w, ∃ v, c.cells[fr.registers + j]? = some v ∧ types[j]? = some v.ty

inductive FramesTyped (m : Module) (c : Slots) : List Frame → List (List Nat) → Prop where
  | nil : FramesTyped m c [] []
  | cons {fr : Frame} {frames : List Frame} {w : List Nat} {ws : List (List Nat)} {f : Function}
      {types : List Ty} : m.functions[fr.function]? = some f → RegisterTypes f types →
      FrameTyped f types c fr w → FramesTyped m c frames ws →
      FramesTyped m c (fr :: frames) (w :: ws)

/-- Everything that a state stores has its declared type. -/
structure StateTyped (m : Module) (s : State σ) (written : List (List Nat)) : Prop where
  fields : s.fields.map Scalar.ty = m.fields.map Field.ty
  frames : FramesTyped m s.slots s.frames written

end Cascade.Machine
