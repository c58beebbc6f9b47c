import Cascade.Machine.Step

/-!
# Cascade.Machine.Run

Runs, as sequences of steps. A run takes fuel for each step, and answers nothing if the fuel is
spent before it ends; an answer does not depend on the fuel.

* `call` runs one function from outside. When it ends, by a fault or not, no call is active.
* `run` gives all fields the zeros of their types, calls the initializer, and then the entry.
-/

namespace Cascade.Machine

open Code

variable {σ : Type} [Output σ]

abbrev Ending (σ : Type) := Except Fault (Option Scalar) × State σ

/-- Step until the outermost call returns or a step fails; after a failure, drop the calls that are
still active. -/
def exec (m : Module) (limits : Limits) : Nat → State σ → Option (Ending σ)
  | 0, _ => none
  | fuel + 1, s =>
    match step m limits s with
    | .next s => exec m limits fuel s
    | .done v s => some (.ok v, s)
    | .fault e s => some (.error e, s.unwind)

def call (m : Module) (limits : Limits) (fuel : Nat) (f : FunctionId) (s : State σ) :
    Option (Ending σ) :=
  match s.push m limits f none with
  | .error (e, s) => some (.error e, s)
  | .ok s => exec m limits fuel s

def run (m : Module) (limits : Limits) (fuel : Nat) (s : State σ) : Option (Ending σ) :=
  match zeroFields m.fields with
  | .error e => some (.error e, s)
  | .ok zeros =>
    let s : State σ := ⟨s.slots, s.frames, zeros, s.output, s.steps⟩
    match call m limits fuel m.initializer s with
    | none => none
    | some (.error e, s) => some (.error e, s)
    | some (.ok _, s) => call m limits fuel m.entry s

/-- The text that a module prints when it is run from the start. -/
def printed (m : Module) (limits : Limits) (fuel : Nat) : Option (Except Fault String) :=
  match run m limits fuel .start with
  | none => none
  | some (.error e, _) => some (.error e)
  | some (.ok _, s) => some (.ok (linesText s.output.toList))

end Cascade.Machine
