import Cascade.Proofs.Codegen.SingleAssignment
import Cascade.Proofs.Machine.Safe

/-!
# Cascade.Proofs.Machine.Written

No call reads a register that was not written in it.

* `ReadsWritten`: what the innermost call reads next was written in it.
* `reached_readsWritten`: this holds in every state of a run.
* `typeProgram_singleAssignment`: the code of an accepted program is in single-assignment form, and
  so it runs.
-/

namespace Cascade.Machine

open Code
open Typing (typeProgram typeProgram_ok)
open Codegen (lowerProgram lowerProgram_fits lowerProgram_singleAssignment)

variable {m : Module} {g : Signature} {limits : Limits} {result : Ty} {s : State Lines}
variable {written : List (List Nat)}

def nextReads (m : Module) (fr : Frame) : List Register :=
  match m.functions[fr.function]? with
  | some f => f.readsAt ⟨fr.block, fr.next⟩
  | none => []

/-- Whatever the innermost call reads next was written in that call. -/
def ReadsWritten (m : Module) (s : State Lines) (written : List (List Nat)) : Prop :=
  match s.frames, written with
  | fr :: _, w :: _ => ∀ r ∈ nextReads m fr, r.id ∈ w
  | [], [] => True
  | _, _ => False

theorem Sound.readsWritten (h : Sound m g result s written) : ReadsWritten m s written := by
  cases h with
  | intro _ hfr hexp _ =>
    intro r hr
    rw [nextReads, hfr.found] at hr
    obtain ⟨b, hfound, hwritten⟩ := hexp
    exact hwritten (((hfr.fits.blockFits hfr.leads hfound).reads hfound r hr).2)

theorem reached_readsWritten (hm : m.Fits g) (h : RunState m limits s written) :
    ReadsWritten m s written := by
  obtain ⟨t, hs⟩ | ⟨hframes, rfl, -⟩ := reached_sound hm h
  · exact hs.readsWritten
  · simp only [ReadsWritten, hframes]

/-- For an accepted program code can be made, and all of it is in single-assignment form. When it
runs, under any limits, no call reads a register that was not written in that call. -/
theorem typeProgram_singleAssignment {settings : Settings} {p : Syntax.Program}
    {a : Typing.Accepted} (h : typeProgram settings p = .ok a) :
    ∃ m, lowerProgram a.program = .ok m ∧ (∀ f ∈ m.functions, f.SingleAssignment) ∧
      ∀ limits s written, RunState m limits s written → ReadsWritten m s written := by
  obtain ⟨-, -, hw⟩ := typeProgram_ok h
  obtain ⟨m, hm, hfits⟩ := lowerProgram_fits hw
  exact ⟨m, hm, fun f hf => lowerProgram_singleAssignment hw hm hf,
    fun _ _ _ => reached_readsWritten hfits⟩

open Syntax Syntax.Build in
/-- A program that keeps values over blocks: the old value of `k` while it is increased, a left
operand while logical operators go on to their right operands, and all of it in a switch. -/
def kept : Syntax.Program :=
  let both := logical .and (logical .or (name "b") (name "b")) (name "b")
  let either := logical .or both (logical .and (name "b") both)
  let main := method .void "main"
    [declare .int "k" (some (int 1)), declare .short "b" none,
      switch (binary .add (postIncrement (name "k")) (name "k"))
        [case (int 1) [expr (assign (name "b") either), Build.leave],
          otherwise [print (binary .eq either (name "b")), retNone, print (name "k")]]]
  withMethod (emptyClass "Main") main

theorem kept_singleAssignment : ∃ a, typeProgram .default kept = .ok a ∧
    ∃ m, lowerProgram a.program = .ok m ∧ (∀ f ∈ m.functions, f.SingleAssignment) ∧
      ∀ limits s written, RunState m limits s written → ReadsWritten m s written := by
  refine ⟨_, rfl, ?_⟩
  exact typeProgram_singleAssignment (rfl : typeProgram .default kept = _)

end Cascade.Machine
