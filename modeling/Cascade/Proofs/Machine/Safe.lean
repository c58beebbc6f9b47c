import Cascade.Proofs.Machine.Sound
import Cascade.Proofs.Simulation.Program

/-!
# Cascade.Proofs.Machine.Safe

Accepted programs do not go wrong when they run.

* `visits_sound`, `reached_sound`: the invariant holds in every state that a run goes through.
* `reached_typed`: so all that is stored has its type.
* `run_safe`: how a run can end.
* `compile_safe`: the two together, for whatever compiles.
-/

namespace Cascade.Machine

open Code
open Typed (HasTy)

variable {m : Module} {g : Signature} {limits : Limits} {result : Ty} {s : State Lines}
variable {written : List (List Nat)}

/-! ## States -/

/-- All blocks of a certified function that is trim give registers the types of the certificate. -/
theorem registerTypes {f : Function} {cert : Certificate} (ht : f.Trim) (h : f.Fits g cert) :
    RegisterTypes f cert.types := by
  have hblock : ∀ b ∈ f.blocks, f.BlockFits g cert b.id b :=
    fun b hb => h.blockFits (ht b hb).1 (ht b hb).2
  refine ⟨h.types, fun b hb i hi => ?_, fun b hb => ?_⟩
  · obtain ⟨n, hn⟩ := List.mem_iff_getElem?.mp hi
    exact ((hblock b hb).code.get hn).declares
  · exact (hblock b hb).term.declares

theorem Below.typed {c : Slots} {top : Nat} {dest : Option Register} {t : Ty} {rest : List Frame}
    (h : Below m g c result top dest t rest written) : FramesTyped m c rest written := by
  induction h with
  | none => exact .nil
  | call hfr _ _ _ ih => exact .cons hfr.found (registerTypes hfr.trim hfr.fits) hfr.typed ih

theorem Sound.typed (hm : m.Fits g) (h : Sound m g result s written) : StateTyped m s written := by
  cases h with
  | intro hworld hfr _ hb =>
    exact ⟨hworld.trans hm.fields.symm,
      .cons hfr.found (registerTypes hfr.trim hfr.fits) hfr.typed hb.typed⟩

theorem outer_push_sound (hm : m.Fits g) (limits : Limits) {j : FunctionId} {f : Function}
    (hj : m.functions[j]? = some f) (hs : s.frames = [])
    (hworld : s.fields.map Scalar.ty = g.fields) :
    (∃ depth, s.push m limits j none = .error (.stackOverflow depth, s)) ∨
      ∃ s', s.push m limits j none = .ok s' ∧ Sound m g f.returns s' [[]] := by
  refine push_sound hm limits hj hworld ?_
  rw [hs]
  exact .none

theorem visits_sound (hm : m.Fits g) {j : FunctionId} {f : Function}
    (hj : m.functions[j]? = some f) {s₀ : State Lines} (hs₀ : s₀.frames = [])
    (hworld : s₀.fields.map Scalar.ty = g.fields) (h : Visits m limits j s₀ s written) :
    Sound m g f.returns s written := by
  induction h with
  | @entered s hpush =>
    obtain ⟨depth, herror⟩ | ⟨s', hok, hs'⟩ := outer_push_sound hm limits hj hs₀ hworld
    · rw [hpush] at herror
      cases herror
    · rw [hpush] at hok
      cases hok
      exact hs'
  | @next s s' written _ hstep ih =>
    have h := step_sound hm limits ih
    rw [hstep] at h
    cases h with
    | next hs' => exact hs'

/-! ## (Endings Lines) -/

/-- How a call from outside may end: with a value of the right type, or with an allowed fault. No
call is active then, and all fields have their types. -/
inductive Ending.Safe (g : Signature) (result : Ty) : Ending Lines → Prop where
  | returned {v : Option Scalar} {s : State Lines} : HasTy v result → s.frames = [] →
      s.fields.map Scalar.ty = g.fields → Safe g result (.ok v, s)
  | failed {e : Fault} {s : State Lines} : e.Allowed → s.frames = [] →
      s.fields.map Scalar.ty = g.fields → Safe g result (.error e, s)

theorem ends_safe (hm : m.Fits g) {e : Ending Lines} (h : Ends m limits s e) :
    ∀ {written}, Sound m g result s written → Ending.Safe g result e := by
  induction h with
  | @done s s' v hstep =>
    intro written hs
    have h := step_sound hm limits hs
    rw [hstep] at h
    cases h with
    | done hv hframes hworld => exact .returned hv hframes hworld
  | @fault s s' e hstep =>
    intro written hs
    have h := step_sound hm limits hs
    rw [hstep] at h
    cases h with
    | fault he hworld => exact .failed he (unwind_frames s') ((unwind_fields s').symm ▸ hworld)
  | @next s s' e hstep _ ih =>
    intro written hs
    have h := step_sound hm limits hs
    rw [hstep] at h
    cases h with
    | next hs' => exact ih hs'

theorem callEnds_safe (hm : m.Fits g) {j : FunctionId} {f : Function}
    (hj : m.functions[j]? = some f) (hs : s.frames = [])
    (hworld : s.fields.map Scalar.ty = g.fields) {e : Ending Lines} (h : CallEnds m limits j s e) :
    Ending.Safe g f.returns e := by
  cases h with
  | @refused e s' hpush =>
    obtain ⟨depth, herror⟩ | ⟨s', hok, -⟩ := outer_push_sound hm limits hj hs hworld
    · rw [hpush] at herror
      cases herror
      exact .failed (.inl ⟨depth, rfl⟩) hs hworld
    · rw [hpush] at hok
      cases hok
  | entered hpush he => exact ends_safe hm he (visits_sound hm hj hs hworld (.entered hpush))

/-! ## Runs -/

theorem zeroFields_typed {fs : List Code.Field} (h : ∀ f ∈ fs, f.ty.isNumeric = true) :
    ∃ zs, zeroFields fs = .ok zs ∧ zs.map Scalar.ty = fs.map Code.Field.ty := by
  induction fs with
  | nil => exact ⟨[], rfl, rfl⟩
  | cons f fs ih =>
    obtain ⟨hf, hfs⟩ := List.forall_mem_cons.mp h
    obtain ⟨z, hz⟩ := Scalar.zero?_isSome hf
    obtain ⟨zs, hzs, htys⟩ := ih hfs
    exact ⟨z :: zs, by simp only [zeroFields, hz, hzs],
      by rw [List.map_cons, Scalar.ty_zero? hz, htys, List.map_cons]⟩

section

variable (hm : m.Fits g) {zeros : List Scalar} (hz : zeroFields m.fields = .ok zeros)

include hm hz

theorem zeros_typed : zeros.map Scalar.ty = g.fields := by
  obtain ⟨zs, hzs, htys⟩ := zeroFields_typed hm.numeric
  rw [hz] at hzs
  cases hzs
  exact htys.trans hm.fields

theorem initializer_safe {e : Ending Lines}
    (h : CallEnds m limits m.initializer (.zeroed zeros) e) : Ending.Safe g .void e := by
  obtain ⟨init, hinit, hvoid⟩ := hm.initializer
  have hworld : (State.zeroed zeros).fields.map Scalar.ty = g.fields := zeros_typed hm hz
  exact hvoid ▸ callEnds_safe hm hinit rfl hworld h

end

theorem run_safe (hm : m.Fits g) {t : Ty} (ht : g.methods[m.entry]? = some t) {fuel : Nat}
    {e : Ending Lines} (h : run m limits fuel .start = some e) : Ending.Safe g t e := by
  obtain ⟨entry, hentry, rfl⟩ := hm.methods ht
  obtain ⟨zs, hz, -⟩ := zeroFields_typed hm.numeric
  obtain ⟨f, s', rfl, hinit⟩ | ⟨v, s', hinit, he⟩ := run_callEnds hz h
  · cases initializer_safe hm hz hinit with
    | failed hf hframes hworld => exact .failed hf hframes hworld
  · cases initializer_safe hm hz hinit with
    | returned _ hframes hworld => exact callEnds_safe hm hentry hframes hworld he

/-- In every state of a run the invariant holds, or no call is active. -/
theorem reached_sound (hm : m.Fits g) (h : RunState m limits s written) :
    (∃ t, Sound m g t s written) ∨
      (s.frames = [] ∧ written = [] ∧ s.fields.map Scalar.ty = g.fields) := by
  obtain ⟨t, ht⟩ : ∃ t, g.methods[m.entry]? = some t := ⟨_, List.getElem?_eq_getElem hm.entry⟩
  cases h with
  | zeroed hz => exact .inr ⟨rfl, rfl, zeros_typed hm hz⟩
  | initializer hz h =>
    obtain ⟨init, hinit, -⟩ := hm.initializer
    exact .inl ⟨_, visits_sound hm hinit rfl (zeros_typed hm hz) h⟩
  | entry hz hinit h =>
    obtain ⟨entry, hentry, -⟩ := hm.methods ht
    cases initializer_safe hm hz hinit with
    | returned _ hframes hworld => exact .inl ⟨_, visits_sound hm hentry hframes hworld h⟩
  | ended h =>
    cases run_safe hm ht h with
    | returned _ hframes hworld => exact .inr ⟨hframes, rfl, hworld⟩
    | failed _ hframes hworld => exact .inr ⟨hframes, rfl, hworld⟩

/-- In every state of a run, everything that is stored has its type. -/
theorem reached_typed (hm : m.Fits g) (h : RunState m limits s written) :
    StateTyped m s written := by
  obtain ⟨t, hs⟩ | ⟨hframes, rfl, hworld⟩ := reached_sound hm h
  · exact hs.typed hm
  · refine ⟨hworld.trans hm.fields.symm, ?_⟩
    rw [hframes]
    exact .nil

/-- Whatever compiles runs safely, with any limits. In every state of the run, each field, each
local variable and each written register holds a value of its declared type. The run comes to an
end: it exceeds a limit or divides by zero, or it gives a value exactly if the entry is not `void`,
and then one of its type. -/
theorem compile_safe {settings : Settings} {p : Syntax.Program} {c : Compiled}
    (h : compile settings p = .ok c) (limits : Limits) :
    (∀ s written, RunState c.code limits s written → StateTyped c.code s written) ∧
    (∃ fuel e, run c.code limits fuel .start = some e) ∧
    ∃ entry, c.typed.methods[c.typed.entry]? = some entry ∧
      ∀ fuel r s, run c.code limits fuel .start = some (r, s) →
        match r with
        | .ok v => (v = none ↔ entry.returns = .void) ∧ ∀ x, v = some x → x.ty = entry.returns
        | .error e => (∃ depth, e = .stackOverflow depth) ∨ e = .divisionByZero := by
  obtain ⟨hw, hcode⟩ := compile_ok h
  obtain ⟨code, hcode', hm⟩ := Codegen.lowerProgram_fits hw
  obtain rfl : c.code = code := Except.ok.inj (hcode.symm.trans hcode')
  have hlowered := Simulation.lowerProgram_loweredFrom hw hcode
  obtain ⟨fuel, e, hrun, -⟩ := Simulation.run_endsAs hlowered limits
  obtain ⟨entry, hentry⟩ : ∃ entry, c.typed.methods[c.typed.entry]? = some entry :=
    ⟨_, List.getElem?_eq_getElem hw.entry⟩
  refine ⟨fun s written => reached_typed hm, ⟨fuel, e, hrun⟩, entry, hentry, ?_⟩
  intro fuel r s hrun
  have hentry : c.typed.signature.methods[c.code.entry]? = some entry.returns := by
    rw [hlowered.entry]
    simp [Typed.Program.signature, hentry]
  cases run_safe hm hentry hrun with
  | returned hv _ _ => exact hv.iff
  | failed he _ _ => exact he

theorem tally_compiles : ∃ c, compile .default Typing.tally = .ok c := by
  have hok : (compile .default Typing.tally).isOk = true := by decide +kernel
  cases hc : compile .default Typing.tally with
  | error e =>
    rw [hc] at hok
    cases hok
  | ok c => exact ⟨c, rfl⟩

theorem tally_safe : ∃ c, compile .default Typing.tally = .ok c ∧ ∀ limits : Limits,
    (∀ s written, RunState c.code limits s written → StateTyped c.code s written) ∧
    (∃ fuel e, run c.code limits fuel .start = some e) ∧
    ∃ entry, c.typed.methods[c.typed.entry]? = some entry ∧
      ∀ fuel r s, run c.code limits fuel .start = some (r, s) →
        match r with
        | .ok v => (v = none ↔ entry.returns = .void) ∧ ∀ x, v = some x → x.ty = entry.returns
        | .error e => (∃ depth, e = .stackOverflow depth) ∨ e = .divisionByZero := by
  obtain ⟨c, hc⟩ := tally_compiles
  exact ⟨c, hc, compile_safe hc⟩

end Cascade.Machine
