import Cascade.Machine.Run

/-!
# Cascade.Proofs.Machine.Steps

Runs without fuel.

* `Steps`: one state leads to another in any number of steps; `Ends`: it leads to the end of a run.
* `exec_iff_ends`: what `exec` answers with enough fuel is how the run ends.
* `run_of_ends`, `run_unique`: a run of a module is its two calls one after the other, and its
  ending does not depend on the fuel.
-/

namespace Cascade.Machine

open Code

variable {σ : Type} [Output σ]

section

variable (m : Module) (limits : Limits)

inductive Steps : State σ → State σ → Prop where
  | refl {s : State σ} : Steps s s
  | cons {s s' s'' : State σ} : step m limits s = .next s' → Steps s' s'' → Steps s s''

inductive Ends : State σ → Ending σ → Prop where
  | done {s s' : State σ} {v : Option Scalar} : step m limits s = .done v s' → Ends s (.ok v, s')
  | fault {s s' : State σ} {f : Fault} : step m limits s = .fault f s' →
      Ends s (.error f, s'.unwind)
  | next {s s' : State σ} {e : Ending σ} : step m limits s = .next s' → Ends s' e → Ends s e

end

variable {m : Module} {limits : Limits}

theorem Steps.single {s s' : State σ} (h : step m limits s = .next s') : Steps m limits s s' :=
  .cons h .refl

theorem Steps.trans {s s' s'' : State σ} (h : Steps m limits s s') (h' : Steps m limits s' s'') :
    Steps m limits s s'' := by
  induction h with
  | refl => exact h'
  | cons hs _ ih => exact .cons hs (ih h')

theorem Ends.of_steps {s s' : State σ} {e : Ending σ} (h : Steps m limits s s')
    (he : Ends m limits s' e) : Ends m limits s e := by
  induction h with
  | refl => exact he
  | cons hs _ ih => exact .next hs (ih he)

omit [Output σ] in
theorem unwind_frames (s : State σ) : s.unwind.frames = [] := by
  unfold State.unwind
  cases h : s.frames.getLast? with
  | none => exact List.getLast?_eq_none_iff.mp h
  | some fr => rfl

omit [Output σ] in
theorem unwind_fields (s : State σ) : s.unwind.fields = s.fields := by
  unfold State.unwind
  split
  · rfl
  · rfl

theorem selectCase_mem (n : Int) (cases : List (Int × BlockId)) (otherwise : BlockId) :
    selectCase n cases otherwise ∈ cases.map Prod.snd ++ [otherwise] := by
  rw [selectCase]
  cases h : cases.lookup n with
  | none => simp
  | some k =>
    refine List.mem_append_left _ (List.mem_map.mpr ⟨(n, k), ?_, rfl⟩)
    exact (List.lookup_eq_some_iff.mp h).elim fun l hl => by
      obtain ⟨r, rfl, -⟩ := hl
      simp

/-! ## Fuel -/

theorem exec_ends : ∀ {fuel : Nat} {s : State σ} {e : Ending σ}, exec m limits fuel s = some e →
    Ends m limits s e := by
  intro fuel
  induction fuel with
  | zero => intro s e h; cases h
  | succ fuel ih =>
    intro s e h
    rw [exec] at h
    cases hs : step m limits s with
    | next s' => rw [hs] at h; exact .next hs (ih h)
    | done v s' => rw [hs] at h; cases h; exact .done hs
    | fault f s' => rw [hs] at h; cases h; exact .fault hs

theorem exec_mono {k : Nat} : ∀ {fuel : Nat} {s : State σ} {e : Ending σ},
    exec m limits fuel s = some e → exec m limits (fuel + k) s = some e := by
  intro fuel
  induction fuel with
  | zero => intro s e h; cases h
  | succ fuel ih =>
    intro s e h
    rw [Nat.add_right_comm, exec]
    rw [exec] at h
    cases hs : step m limits s with
    | next s' => rw [hs] at h; exact ih h
    | done v s' => rw [hs] at h; exact h
    | fault f s' => rw [hs] at h; exact h

theorem ends_exec {s : State σ} {e : Ending σ} (h : Ends m limits s e) :
    ∃ fuel, exec m limits fuel s = some e := by
  induction h with
  | done hs => exact ⟨1, by rw [exec, hs]⟩
  | fault hs => exact ⟨1, by rw [exec, hs]⟩
  | next hs _ ih =>
    obtain ⟨fuel, hfuel⟩ := ih
    exact ⟨fuel + 1, by rw [exec, hs]; exact hfuel⟩

theorem exec_iff_ends {s : State σ} {e : Ending σ} :
    Ends m limits s e ↔ ∃ fuel, exec m limits fuel s = some e :=
  ⟨ends_exec, fun ⟨_, h⟩ => exec_ends h⟩

/-! ## Calls from outside -/

inductive CallEnds (m : Module) (limits : Limits) (f : FunctionId) (s : State σ) :
    Ending σ → Prop where
  | refused {e : Fault} {s' : State σ} : s.push m limits f none = .error (e, s') →
      CallEnds m limits f s (.error e, s')
  | entered {s' : State σ} {e : Ending σ} : s.push m limits f none = .ok s' → Ends m limits s' e →
      CallEnds m limits f s e

theorem callEnds_call {f : FunctionId} {s : State σ} {e : Ending σ} (h : CallEnds m limits f s e) :
    ∃ fuel, ∀ k, call m limits (fuel + k) f s = some e := by
  cases h with
  | refused hp => exact ⟨0, fun k => by rw [call, hp]⟩
  | entered hp he =>
    obtain ⟨fuel, hfuel⟩ := ends_exec he
    exact ⟨fuel, fun k => by rw [call, hp]; exact exec_mono hfuel⟩

theorem call_callEnds {f : FunctionId} {s : State σ} {fuel : Nat} {e : Ending σ}
    (h : call m limits fuel f s = some e) : CallEnds m limits f s e := by
  unfold call at h
  split at h
  · rename_i hp
    cases h
    exact .refused hp
  · rename_i hp
    exact .entered hp (exec_ends h)

theorem call_mono {f : FunctionId} {s : State σ} {fuel k : Nat} {e : Ending σ}
    (h : call m limits fuel f s = some e) : call m limits (fuel + k) f s = some e := by
  unfold call at h ⊢
  split
  · rename_i hp; rw [hp] at h; exact h
  · rename_i hp; rw [hp] at h; exact exec_mono h

theorem run_mono {s : State σ} {fuel k : Nat} {e : Ending σ} (h : run m limits fuel s = some e) :
    run m limits (fuel + k) s = some e := by
  unfold run at h ⊢
  cases hz : zeroFields m.fields with
  | error f => rw [hz] at h; exact h
  | ok zeros =>
    rw [hz] at h
    dsimp only at h ⊢
    cases hc : call m limits fuel m.initializer ⟨s.slots, s.frames, zeros, s.output, s.steps⟩ with
    | none => rw [hc] at h; cases h
    | some e' =>
      rw [hc] at h
      rw [call_mono hc]
      obtain ⟨r, s'⟩ := e'
      cases r with
      | error f => exact h
      | ok v => exact call_mono h

/-- The ending of a run does not depend on the fuel. -/
theorem run_unique {s : State σ} {n k : Nat} {e e' : Ending σ} (h : run m limits n s = some e)
    (h' : run m limits k s = some e') : e = e' := by
  have hn := run_mono (k := k) h
  have hk := run_mono (k := n) h'
  rw [Nat.add_comm k n] at hk
  exact Option.some.inj (hn.symm.trans hk)

theorem run_of_failed {s : State σ} {zeros : List Scalar} (hz : zeroFields m.fields = .ok zeros)
    {f : Fault} {s' : State σ} (hi : CallEnds m limits m.initializer
      ⟨s.slots, s.frames, zeros, s.output, s.steps⟩ (.error f, s')) :
    ∃ fuel, run m limits fuel s = some (.error f, s') := by
  obtain ⟨fuel, hfuel⟩ := callEnds_call hi
  refine ⟨fuel, ?_⟩
  rw [run, hz]
  dsimp only
  rw [show fuel = fuel + 0 from rfl, hfuel 0]

theorem run_of_ends {s : State σ} {zeros : List Scalar} (hz : zeroFields m.fields = .ok zeros)
    {v : Option Scalar} {s' : State σ} (hi : CallEnds m limits m.initializer
      ⟨s.slots, s.frames, zeros, s.output, s.steps⟩ (.ok v, s')) {e : Ending σ}
    (he : CallEnds m limits m.entry s' e) : ∃ fuel, run m limits fuel s = some e := by
  obtain ⟨n, hn⟩ := callEnds_call hi
  obtain ⟨k, hk⟩ := callEnds_call he
  refine ⟨n + k, ?_⟩
  rw [run, hz]
  dsimp only
  rw [hn k]
  dsimp only
  rw [Nat.add_comm n k, hk n]

/-- A run ends with the initializer if that fails, and else with the entry. -/
theorem run_callEnds {s : State σ} {zeros : List Scalar} (hz : zeroFields m.fields = .ok zeros)
    {fuel : Nat} {e : Ending σ} (h : run m limits fuel s = some e) :
    (∃ f s', e = (.error f, s') ∧ CallEnds m limits m.initializer
      ⟨s.slots, s.frames, zeros, s.output, s.steps⟩ e) ∨
    ∃ v s', CallEnds m limits m.initializer ⟨s.slots, s.frames, zeros, s.output, s.steps⟩
      (.ok v, s') ∧ CallEnds m limits m.entry s' e := by
  rw [run, hz] at h
  dsimp only at h
  split at h
  · cases h
  · rename_i f s' hc
    cases h
    exact .inl ⟨f, s', rfl, call_callEnds hc⟩
  · rename_i v s' hc
    exact .inr ⟨v, s', call_callEnds hc, call_callEnds h⟩

end Cascade.Machine
