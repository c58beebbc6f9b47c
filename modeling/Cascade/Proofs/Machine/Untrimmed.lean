import Cascade.Proofs.Codegen.Untrimmed
import Cascade.Proofs.Machine.Halting
import Cascade.Proofs.Machine.Twins

/-!
# Cascade.Proofs.Machine.Untrimmed

Statements that control cannot get to can be dropped. With them or without them code can be made for
an accepted program, and no run tells the two apart, unless it exceeds a limit: the code with them
has more local variables and registers.

* `SameRuns`: two modules under the same limits.
* `trimming_unseen`: the code of an accepted program and of the untrimmed one, what is left of each
  list of statements, and the warnings of what is dropped.
-/

namespace Cascade.Machine

open Code
open Codegen (lowerProgram lowerProgram_fits lowerProgram_trim lowerProgram_descends)
open Typing (typeProgram typeProgram_ok keepProgram keepProgram_ok)

variable {m m' : Module} {limits : Limits}

/-- Two runs end with the same result, or both with a division by zero. They have left the same
fields, printed the same and taken equally many steps. -/
inductive Ending.Same : Ending Lines → Ending Lines → Prop where
  | returned {v : Option Scalar} {s s' : State Lines} : SameWorld s s' → Same (.ok v, s) (.ok v, s')
  | divided {s s' : State Lines} : SameWorld s s' →
      Same (.error .divisionByZero, s) (.error .divisionByZero, s')

theorem Ending.Twin.same {σ : FunctionId → Renaming} {e e' : Ending Lines} (h : e.Twin σ m m' e') :
    e.Same e' := by
  cases h with
  | ok ht _ => exact .returned ht.toSameWorld
  | divided hw => exact .divided hw

/-- Runs of both modules end, and they end alike unless one of them overflows the stack. -/
structure SameRuns (m m' : Module) (limits : Limits) : Prop where
  left : ∃ fuel e, run m limits fuel .start = some e
  right : ∃ fuel e, run m' limits fuel .start = some e
  same : ∀ {n k : Nat} {e e' : Ending Lines}, run m limits n .start = some e →
    run m' limits k .start = some e' → e.Overflows ∨ e'.Overflows ∨ e.Same e'

/-- A module that goes wrong in no run, and another one that is its twin but needs more slots. -/
theorem sameRuns_of_twin {σ : FunctionId → Renaming} (hm : m.Twin σ m')
    (hnumeric : ∀ f ∈ m'.fields, f.ty.isNumeric = true)
    (hends : ∃ fuel e, run m' limits fuel .start = some e)
    (hexcused : ∀ {fuel e}, run m' limits fuel .start = some e → e.Excused) :
    SameRuns m m' limits := by
  obtain ⟨k, e', hrun'⟩ := hends
  obtain ⟨zeros, hz, -⟩ := zeroFields_typed hnumeric
  obtain ⟨n, e, hrun, htwin⟩ := run_twin hm (hm.fields ▸ hz) hrun' (hexcused hrun')
  refine ⟨⟨n, e, hrun⟩, ⟨k, e', hrun'⟩, fun h h' => ?_⟩
  obtain rfl := run_unique h hrun
  obtain rfl := run_unique h' hrun'
  exact htwin.imp_right fun ht => .inr ht.same

theorem Ending.Safe.excused {g : Signature} {t : Ty} {e : Ending Lines} (h : Ending.Safe g t e) :
    e.Excused := by
  cases h with
  | returned _ _ _ => trivial
  | failed he _ _ => exact he

theorem lowerProgram_runs {p : Typed.Program} (hw : p.WellTyped) (h : lowerProgram p = .ok m)
    (limits : Limits) : (∃ fuel e, run m limits fuel .start = some e) ∧
      ∀ {fuel e}, run m limits fuel .start = some e → e.Excused := by
  obtain ⟨m', h', hm⟩ := lowerProgram_fits hw
  obtain rfl : m = m' := Except.ok.inj (h.symm.trans h')
  refine ⟨run_halts (fun f hf => lowerProgram_descends hw h hf) limits .start, fun hrun => ?_⟩
  exact (run_safe hm (List.getElem?_eq_getElem hm.entry) hrun).excused

/-- An accepted program and the untrimmed one, with the code of both. -/
structure Trimming (settings : Settings) (p : Syntax.Program) (a : Typing.Accepted)
    (whole : Typed.Program) (m m' : Module) : Prop where
  /-- The untrimmed program has all statements that typing checks, and trimming drops no others
  than typing does. -/
  kept : keepProgram settings p = .ok whole
  trimmed : whole.trim = a.program
  code : lowerProgram whole = .ok m
  code' : lowerProgram a.program = .ok m'
  runs : ∀ limits, SameRuns m m' limits
  /-- All statements of a list but the last complete. -/
  complete : ∀ d ∈ a.program.methods, Typed.ListTrimmed d.body
  warned : Typing.Warned settings a.warnings (Typing.programPairs p whole)
    ((Syntax.Program.methods p).flatMap Typing.bodyLists)

/-- Dropping the statements of an accepted program that control cannot get to changes nothing that a
run does. -/
theorem trimming_unseen {settings : Settings} {p : Syntax.Program} {a : Typing.Accepted}
    (h : typeProgram settings p = .ok a) : ∃ whole m m', Trimming settings p a whole m m' := by
  obtain ⟨-, -, hw⟩ := typeProgram_ok h
  obtain ⟨whole, hkept, htrim, hchecked, hwarned⟩ := keepProgram_ok h
  obtain ⟨m, m', hm, hm', σ, htwin⟩ := lowerProgram_trim hchecked
  rw [htrim] at hm'
  obtain ⟨code, hcode, hfits⟩ := lowerProgram_fits hw
  obtain rfl : m' = code := Except.ok.inj (hm'.symm.trans hcode)
  refine ⟨whole, m, m', hkept, htrim, hm, hm', fun limits => ?_, fun d hd => ?_, hwarned⟩
  · obtain ⟨hends, hexcused⟩ := lowerProgram_runs hw hm' limits
    exact sameRuns_of_twin htwin hfits.numeric hends hexcused
  · rw [← htrim] at hd
    obtain ⟨d', -, rfl⟩ := List.mem_map.mp hd
    exact Typed.trimList_trimmed d'.body

open Syntax Syntax.Build in
/-- A program with a switch that control does not get behind. A declaration and another switch stand
behind a `break`, and more statements behind the first switch. -/
def detour : Syntax.Program :=
  let inner := switch (name "j") [case (int 1) [Build.leave, retNone], otherwise [retNone]]
  let main := method .void "main"
    [declare .int "k" (some (int 1)),
      switch (name "k")
        [case (int 1) [block [print (int 7), retNone, empty, declare .int "j" none, inner]],
          otherwise [retNone, Build.leave]],
      print (int 8)]
  withMethod (emptyClass "Main") main

theorem detour_trimming : ∃ a, typeProgram .default detour = .ok a ∧
    ∃ whole m m', Trimming .default detour a whole m m' := by
  refine ⟨_, rfl, ?_⟩
  exact trimming_unseen (rfl : typeProgram .default detour = _)

end Cascade.Machine
