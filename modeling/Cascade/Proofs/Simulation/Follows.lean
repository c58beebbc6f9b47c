import Cascade.Proofs.Machine.Steps
import Cascade.Proofs.Typed.Safe

/-!
# Cascade.Proofs.Simulation.Follows

What it means that the machine does what the evaluation of a tree tells.

* `Follows`: from a state the run exceeds a limit, or it does what an answer tells: it gets to a
  state where the result is, or it ends with the same division by zero in the same world.
* `Follows.andThen`: what follows one after the other.
-/

namespace Cascade.Simulation

open Code Machine
open Typed (Answer Stop World Memory)

section

variable (m : Module) (limits : Limits)

/-- From a state, the run ends because a limit is exceeded. -/
def Overflows (s : State Lines) : Prop :=
  ∃ depth s', Ends m limits s (.error (.stackOverflow depth), s')

/-- From a state, the run ends with a division by zero, and leaves a world. -/
def Divides (s : State Lines) (w : World) : Prop :=
  ∃ s', Ends m limits s (.error .divisionByZero, s') ∧ s'.fields = w.fields ∧ s'.output = w.output

/-- From a state, the machine does what an answer tells that is no result. Nothing is said where the
tree is stuck, and no run without an overflow goes too deep. -/
def Stops (s : State Lines) (why : Stop) (w : World) : Prop :=
  match why with
  | .divisionByZero => Divides m limits s w
  | .tooDeep => False
  | .stuck => True

/-- From a state, the machine exceeds a limit or does what an answer tells. -/
def Follows {α : Type} (s : State Lines) (x : Answer α) (post : α → State Lines → Prop) : Prop :=
  Overflows m limits s ∨
    match x with
    | .done a => ∃ s', Steps m limits s s' ∧ post a s'
    | .stop why w => Stops m limits s why w

end

variable {m : Module} {limits : Limits} {α β : Type}

theorem Overflows.of_steps {s s' : State Lines} (h : Steps m limits s s')
    (ho : Overflows m limits s') :
    Overflows m limits s := by
  obtain ⟨depth, s'', he⟩ := ho
  exact ⟨depth, s'', .of_steps h he⟩

theorem Divides.of_steps {s s' : State Lines} {w : World} (h : Steps m limits s s')
    (hd : Divides m limits s' w) : Divides m limits s w := by
  obtain ⟨s'', he, hw⟩ := hd
  exact ⟨s'', .of_steps h he, hw⟩

theorem Stops.of_steps {s s' : State Lines} {why : Stop} {w : World} (h : Steps m limits s s')
    (hs : Stops m limits s' why w) : Stops m limits s why w := by
  cases why with
  | divisionByZero => exact Divides.of_steps h hs
  | tooDeep => exact hs
  | stuck => exact hs

namespace Follows

theorem done {s s' : State Lines} {a : α} {post : α → State Lines → Prop} (h : Steps m limits s s')
    (hp : post a s') : Follows m limits s (.done a) post :=
  .inr ⟨s', h, hp⟩

theorem stuck {s : State Lines} {w : World} {post : α → State Lines → Prop} :
    Follows m limits s (.stop .stuck w) post :=
  .inr trivial

theorem of_steps {s s' : State Lines} {x : Answer α} {post : α → State Lines → Prop}
    (h : Steps m limits s s') (hf : Follows m limits s' x post) :
    Follows m limits s x post := by
  obtain ho | hx := hf
  · exact .inl (ho.of_steps h)
  · cases x with
    | done a =>
      obtain ⟨s'', hs, hp⟩ := hx
      exact .inr ⟨s'', h.trans hs, hp⟩
    | stop why w => exact .inr (Stops.of_steps h hx)

theorem andThen {s : State Lines} {x : Answer α} {f : α → Answer β} {P : α → State Lines → Prop}
    {Q : β → State Lines → Prop} (h : Follows m limits s x P)
    (hf : ∀ a s', P a s' → Follows m limits s' (f a) Q) :
    Follows m limits s (x.andThen f) Q := by
  obtain ho | hx := h
  · exact .inl ho
  · cases x with
    | done a =>
      obtain ⟨s', hs, hp⟩ := hx
      exact (hf a s' hp).of_steps hs
    | stop why w => exact .inr hx

theorem mono {s : State Lines} {x : Answer α} {P Q : α → State Lines → Prop}
    (h : Follows m limits s x P) (hpq : ∀ a s', P a s' → Q a s') : Follows m limits s x Q := by
  obtain ho | hx := h
  · exact .inl ho
  · cases x with
    | done a =>
      obtain ⟨s', hs, hp⟩ := hx
      exact .inr ⟨s', hs, hpq a s' hp⟩
    | stop why w => exact .inr hx

theorem safe {s : State Lines} {x : Answer α} {P : α → State Lines → Prop} {S : α → Prop}
    (h : Follows m limits s x P) (hx : x.Safe S) :
    Follows m limits s x fun a s' => S a ∧ P a s' := by
  obtain ho | hf := h
  · exact .inl ho
  · cases x with
    | done a =>
      obtain ⟨s', hs, hp⟩ := hf
      exact .inr ⟨s', hs, hx, hp⟩
    | stop why w => exact .inr hf

theorem value {s : State Lines} {x : Answer (Option Scalar × Memory)}
    {P : Option Scalar × Memory → State Lines → Prop} (h : Follows m limits s x P) :
    Follows m limits s x.value fun r s' => P (some r.1, r.2) s' := by
  obtain ho | hx := h
  · exact .inl ho
  · cases x with
    | done r =>
      obtain ⟨v, μ⟩ := r
      cases v with
      | none => exact .stuck
      | some v => exact .inr hx
    | stop why w => exact .inr hx

end Follows

end Cascade.Simulation
