import Cascade.Proofs.Machine.Twins

/-!
# Cascade.Proofs.Machine.Raised

Raising the limits changes no run that does not overflow.

The limits are read in one place only, where a call is made active, and stored nowhere. So a run
that was never refused a call is replayed step for step under higher limits, and it comes to the
same state, the slots and what a fault tells of them included.

* `Roomier`: no limit is below the one that it stands for.
* `State.push_raised`, `step_raised`: a call and a step; `run_raised`: a whole run, with the same
  fuel.
-/

namespace Cascade.Machine

open Code

variable {σ : Type} [Output σ]

/-- Where the left limits allow a call, so do the right ones. -/
structure Roomier (limits limits' : Limits) : Prop where
  depth : limits.maxCallDepth ≤ limits'.maxCallDepth
  registers : limits.maxRegisters ≤ limits'.maxRegisters

/-- A step that is refused by a limit. -/
def Outcome.Overflows (o : Outcome σ) : Prop :=
  ∃ depth s, o = .fault (.stackOverflow depth) s

variable {m : Module} {limits limits' : Limits} (h : Roomier limits limits')
include h

/-! ## Calls and steps -/

omit [Output σ] in
theorem State.push_raised {s : State σ} {f : FunctionId} {dest : Option Register}
    (hno : ∀ depth s', s.push m limits f dest ≠ .error (.stackOverflow depth, s')) :
    s.push m limits' f dest = s.push m limits f dest := by
  have hd := h.depth
  have hr := h.registers
  unfold push at hno ⊢
  by_cases hdepth : limits.maxCallDepth < s.frames.length + 1
  · rw [if_pos hdepth] at hno
    exact absurd rfl (hno _ _)
  rw [if_neg hdepth, if_neg (by omega)]
  rw [if_neg hdepth] at hno
  cases hf : m.functions[f]? with
  | none => rfl
  | some g =>
    rw [hf] at hno
    dsimp only at hno ⊢
    cases hroom : s.slots.hasRoom limits.maxRegisters (g.locals.length + g.registers) with
    | false =>
      rw [hroom] at hno
      exact absurd rfl (hno _ _)
    | true =>
      have hroom' : s.slots.hasRoom limits'.maxRegisters (g.locals.length + g.registers) =
          true := by
        simp only [Slots.hasRoom, decide_eq_true_eq] at hroom ⊢
        omega
      rw [hroom']

theorem execInstr_raised {s : State σ} {fr : Frame} {i : Instr}
    (hno : ¬ (execInstr m limits s fr i).Overflows) :
    execInstr m limits' s fr i = execInstr m limits s fr i := by
  cases i with
  | call d f =>
    have hpush : s.push m limits' f d = s.push m limits f d :=
      State.push_raised h fun depth s' hp => hno ⟨depth, s', by rw [execInstr, hp]⟩
    rw [execInstr, execInstr, hpush]
  | _ => rfl

theorem step_raised {s : State σ} (hno : ¬ (step m limits s).Overflows) :
    step m limits' s = step m limits s := by
  unfold step at hno ⊢
  cases hs : s.frames with
  | nil => rfl
  | cons fr rest =>
    rw [hs] at hno
    dsimp only at hno ⊢
    cases hf : m.functions[fr.function]? with
    | none => rfl
    | some f =>
      rw [hf] at hno
      dsimp only at hno ⊢
      cases hb : f.block? fr.block with
      | none => rfl
      | some b =>
        rw [hb] at hno
        dsimp only at hno ⊢
        cases hi : b.code[fr.next]? with
        | none => rfl
        | some i =>
          rw [hi] at hno
          exact execInstr_raised h hno

/-! ## Runs -/

theorem exec_raised {fuel : Nat} {s : State σ} {e : Ending σ}
    (hexec : exec m limits fuel s = some e)
    (hno : ¬ e.Overflows) : exec m limits' fuel s = some e := by
  induction fuel generalizing s with
  | zero => cases hexec
  | succ fuel ih =>
    rw [exec] at hexec ⊢
    have hstep : ¬ (step m limits s).Overflows := by
      rintro ⟨depth, s', hs⟩
      rw [hs] at hexec
      cases hexec
      exact hno ⟨depth, rfl⟩
    rw [step_raised h hstep]
    cases hs : step m limits s with
    | next s' =>
      rw [hs] at hexec
      exact ih hexec
    | done v s' | fault f s' =>
      rw [hs] at hexec
      exact hexec

theorem call_raised {fuel : Nat} {f : FunctionId} {s : State σ} {e : Ending σ}
    (hcall : call m limits fuel f s = some e) (hno : ¬ e.Overflows) :
    call m limits' fuel f s = some e := by
  unfold call at hcall ⊢
  have hpush : s.push m limits' f none = s.push m limits f none :=
    State.push_raised h fun depth s' hp => by
      rw [hp] at hcall
      cases hcall
      exact hno ⟨depth, rfl⟩
  rw [hpush]
  cases hp : s.push m limits f none with
  | error e' =>
    rw [hp] at hcall
    exact hcall
  | ok s' =>
    rw [hp] at hcall
    exact exec_raised h hcall hno

/-- A run that ends within some limits ends within higher ones too, after as many steps, with the
same result or fault and in the same state. Only a run that exceeds a limit can go on in another
way. -/
theorem run_raised {fuel : Nat} {s : State σ} {e : Ending σ} (hrun : run m limits fuel s = some e)
    (hno : ¬ e.Overflows) : run m limits' fuel s = some e := by
  unfold run at hrun ⊢
  cases hz : zeroFields m.fields with
  | error f =>
    rw [hz] at hrun
    exact hrun
  | ok zeros =>
    rw [hz] at hrun
    dsimp only at hrun ⊢
    cases hc : call m limits fuel m.initializer ⟨s.slots, s.frames, zeros, s.output, s.steps⟩ with
    | none =>
      rw [hc] at hrun
      cases hrun
    | some e' =>
      rw [hc] at hrun
      obtain ⟨r, s'⟩ := e'
      cases r with
      | error f =>
        cases hrun
        rw [call_raised h hc hno]
      | ok v =>
        rw [call_raised h hc id]
        exact call_raised h hrun hno

omit h

/-- The entry prints and calls a function, which divides by zero. The two calls need all of three
slots. -/
def brittle : Module :=
  ⟨"brittle", [], [
    .of 0 "main" .void [] 1 [⟨0, none,
      [.const ⟨0, .int⟩ (.int 7), .print (some ⟨0, .int⟩), .call none 1], .ret none⟩] 0 .zero,
    .of 1 "divide" .void [] 2 [⟨0, none, [.const ⟨0, .int⟩ (.int 1), .const ⟨1, .int⟩ (.int 0),
      .binary ⟨0, .int⟩ .div ⟨0, .int⟩ ⟨1, .int⟩], .ret none⟩] 0 .zero,
    .of 2 "init" .void [] 0 [⟨0, none, [], .ret none⟩] 0 .zero], 2, 0⟩

theorem brittle_raised : ∃ s : State Lines, s.output = #["7"] ∧ s.steps = 7 ∧
    run brittle ⟨2, 3⟩ 6 .start = some (.error .divisionByZero, s) ∧
    run brittle .default 6 .start = some (.error .divisionByZero, s) := by
  have hrun : run brittle ⟨2, 3⟩ 6 .start =
      some (.error .divisionByZero, ⟨.empty, [], [], #["7"], 7⟩) := rfl
  exact ⟨_, rfl, rfl, hrun,
    run_raised ⟨by decide, by decide⟩ hrun fun ⟨_, h⟩ => nomatch h⟩

end Cascade.Machine
