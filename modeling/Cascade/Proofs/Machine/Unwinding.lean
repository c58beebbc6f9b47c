import Cascade.Proofs.Code.Index
import Cascade.Proofs.Machine.Moves
import Cascade.Proofs.Machine.Replay
import Cascade.Proofs.Machine.Slots

/-!
# Cascade.Proofs.Machine.Unwinding

What a call from outside leaves of the slots, for any module and whatever goes wrong in it.

A fault can come at any depth, with any number of windows in place and perhaps one more that no call
owns. Dropping the active calls repairs all that, since the window of the outermost call begins
where the slots ended before (`Piled`) and nothing below it is written (`Over`).

The outermost call itself is the exception. If one of its local variables has no zero, its window
has been added, but it is not active, and so nothing takes the window away again: `Leaks`.

* `Over.step`: what one step keeps; `Ends.restores`: how a run of active calls leaves the slots.
* `call_restores`: how a call does, and what that means for the calls after it.
-/

namespace Cascade.Machine

open Code

variable {σ : Type} [Output σ]

/-- The windows of some calls lie one above the other between `low` and `top`; the lowest begins
at `low`. -/
inductive Piled (low : Nat) : Nat → List Frame → Prop where
  | nil : Piled low low []
  | cons {top : Nat} {fr : Frame} {rest : List Frame} : fr.base ≤ fr.registers →
      fr.registers ≤ top → Piled low fr.base rest → Piled low top (fr :: rest)

/-- The active calls have their windows above the slots `below`, which are as they were. -/
structure Over (below : Slots) (s : State σ) : Prop where
  windows : Piled below.top s.slots.top s.frames
  keeps : ∀ i, i < below.top → s.slots.cells[i]? = below.cells[i]?

/-- What is known of the slots after a step: above some slots the run goes on or ends, and if it
fails, dropping the calls gives these slots back. -/
def Outcome.Over (below : Slots) : Outcome σ → Prop
  | .next s => Machine.Over below s
  | .done _ s => s.frames = [] ∧ s.slots = below
  | .fault _ s => s.unwind.slots = below

/-- A call was refused because a local variable of its function has no zero, and its window is
left. -/
def Leaks (m : Module) (f : FunctionId) (s : State σ) (r : Except Fault (Option Scalar))
    (s' : State σ) : Prop :=
  ∃ g l, m.functions[f]? = some g ∧ l ∈ g.locals ∧ Scalar.zero? l.ty = none ∧
    r = .error (.type (.voidLocal l.ty)) ∧
    s'.slots.top = s.slots.top + (g.locals.length + g.registers)

variable {m : Module} {limits : Limits} {below c : Slots} {s : State σ} {fr : Frame}
variable {rest frames : List Frame} {top : Nat}

namespace Piled

theorem top_eq {low : Nat} (h : Piled low top []) : top = low := by
  cases h
  rfl

theorem base_le {low : Nat} (h : Piled low top (fr :: rest)) :
    fr.base ≤ fr.registers ∧ fr.registers ≤ top ∧ Piled low fr.base rest := by
  cases h with
  | cons hbase htop h' => exact ⟨hbase, htop, h'⟩

theorem le {low : Nat} (h : Piled low top frames) : low ≤ top := by
  induction h with
  | nil => exact Nat.le_refl _
  | cons hbase htop _ ih => omega

theorem moved {low : Nat} (h : Piled low top (fr :: rest)) (fr' : Frame)
    (hb : fr'.base = fr.base) (hr : fr'.registers = fr.registers) :
    Piled low top (fr' :: rest) := by
  obtain ⟨hbase, htop, h'⟩ := h.base_le
  exact .cons (by rw [hb, hr]; exact hbase) (hr ▸ htop) (hb ▸ h')

theorem lowest {low : Nat} : ∀ {frames : List Frame} {top : Nat}, Piled low top frames →
    frames.getLast? = some fr → fr.base = low := by
  intro frames
  induction frames with
  | nil => intro top _ h; cases h
  | cons fr' rest ih =>
    intro top h hlast
    obtain ⟨-, -, h'⟩ := h.base_le
    cases rest with
    | nil =>
      cases hlast
      exact h'.top_eq
    | cons next rest => exact ih h' (by rwa [List.getLast?_cons_cons] at hlast)

end Piled

/-! ## Slots -/

theorem Slots.eq_of_top (htop : c.top = below.top)
    (h : ∀ i, i < below.top → c.cells[i]? = below.cells[i]?) : c = below := by
  rw [← free_eq (Nat.le_of_eq htop.symm) h, free, ← htop]
  simp [top, Array.shrink_eq_take]

namespace Over

omit [Output σ] in
theorem frames_nil (h : Over below s) (hs : s.frames = []) : s.slots = below := by
  have hw := h.windows
  rw [hs] at hw
  exact Slots.eq_of_top hw.top_eq h.keeps

omit [Output σ] in
/-- Dropping the calls gives the slots back, also if there are more slots than those of the
calls. -/
theorem unwound {t : Nat} (hw : Piled below.top t s.frames) (ht : t ≤ s.slots.top)
    (hkeep : ∀ i, i < below.top → s.slots.cells[i]? = below.cells[i]?)
    (hne : s.frames ≠ []) : s.unwind.slots = below := by
  obtain ⟨fr, hlast⟩ : ∃ fr, s.frames.getLast? = some fr :=
    ⟨_, List.getLast?_eq_some_getLast hne⟩
  rw [State.unwind, hlast]
  dsimp only
  rw [hw.lowest hlast]
  exact Slots.free_eq (Nat.le_trans hw.le ht) hkeep

omit [Output σ] in
theorem unwind (h : Over below s) : s.unwind.slots = below := by
  by_cases hs : s.frames = []
  · rw [State.unwind, hs]
    exact h.frames_nil hs
  · exact unwound h.windows (Nat.le_refl _) h.keeps hs

end Over

/-! ## Steps -/

omit [Output σ] in
/-- A call that is made active has its window above all slots. -/
theorem State.push_over {s' : State σ} {f : FunctionId} {dest : Option Register}
    (h : Over below s) (hp : s.push m limits f dest = .ok s') : Over below s' := by
  have hle := h.windows.le
  cases State.push_pushes hp with
  | entered hf _ _ hc =>
    obtain ⟨htop, hkeep, -⟩ := clearLocals_spec hc (by rw [Slots.grow_top]; omega)
    rw [Slots.grow_top] at htop
    refine ⟨.cons (Nat.le_add_right ..) (by dsimp only; omega) h.windows, fun i hi => ?_⟩
    rw [← h.keeps i hi, hkeep i (.inl (by omega)), Slots.grow_below _ (by omega)]

theorem Over.step (m : Module) (limits : Limits) (h : Over below s) :
    (step m limits s).Over below := by
  cases hs : s.frames with
  | nil =>
    rw [Machine.step, hs]
    exact ⟨hs, h.frames_nil hs⟩
  | cons fr rest =>
    obtain ⟨hw, hkeep⟩ := id h
    rw [hs] at hw
    have hle := hw.le
    obtain ⟨hbase, hregs, hrest⟩ := hw.base_le
    have hlow := hrest.le
    have hfree : (s.slots.free fr.base).top = fr.base := Slots.free_top (by omega)
    have hkeep' : ∀ i, i < below.top → (s.slots.free fr.base).cells[i]? = below.cells[i]? :=
      fun i hi => (Slots.free_below (by omega) (by omega)).trans (hkeep i hi)
    have hbelow : Over below ⟨s.slots.free fr.base, rest, s.fields, s.output, s.steps + 1⟩ :=
      ⟨hfree.symm ▸ hrest, hkeep'⟩
    obtain ⟨e, he⟩ | ⟨f, b, hf, hb, hm⟩ := step_cases m limits hs
    · rw [he]
      exact h.unwind
    · generalize Machine.step m limits s = o at hm
      cases hm with
      | instr _ _ hwrites =>
        cases hwrites with
        | nothing => exact ⟨hw.moved _ rfl rfl, hkeep⟩
        | assigned _ | register _ =>
          refine ⟨by rw [Slots.put_top]; exact hw.moved _ rfl rfl, fun i hi => ?_⟩
          rw [Slots.put_ne (by omega), hkeep i hi]
      | call _ hp =>
        refine State.push_over ?_ hp
        exact ⟨hw.moved fr.advance rfl rfl, hkeep⟩
      | refused _ hp =>
        have hw' := hw.moved fr.advance rfl rfl
        cases State.push_error hp with
        | limit | unknown => exact Over.unwind ⟨hw', hkeep⟩
        | noZero _ _ _ htop hsame =>
          dsimp only at htop hsame
          exact Over.unwound hw' (by dsimp only; omega)
            (fun i hi => (hsame i (by omega)).trans (hkeep i hi)) (List.cons_ne_nil _ _)
      | jump _ _ => exact ⟨hw.moved _ rfl rfl, hkeep⟩
      | done _ _ hnil =>
        subst hnil
        exact ⟨rfl, hbelow.frames_nil rfl⟩
      | returned _ _ hret =>
        cases hret with
        | nothing _ => exact hbelow
        | register _ hlt =>
          -- The register lies in the window of the caller, which is above all that is kept.
          obtain ⟨hbase', -, hrest'⟩ := hrest.base_le
          have hlow' := hrest'.le
          refine ⟨by rw [Slots.put_top]; exact hbelow.windows, ?_⟩
          intro i hi
          dsimp only
          rw [Slots.put_ne (by omega), hkeep' i hi]
      | lost _ _ => exact hbelow.unwind
      | stuck hfr =>
        exact Over.unwind ⟨hw.moved _ (by obtain rfl | rfl := hfr <;> rfl)
          (by obtain rfl | rfl := hfr <;> rfl), hkeep⟩

/-! ## Calls -/

theorem Ends.restores {e : Ending σ} (h : Ends m limits s e) (hs : Over below s) :
    e.2.frames = [] ∧ e.2.slots = below := by
  induction h with
  | done hstep =>
    have ho := hs.step m limits
    rw [hstep] at ho
    exact ho
  | fault hstep =>
    have ho := hs.step m limits
    rw [hstep] at ho
    exact ⟨unwind_frames _, ho⟩
  | next hstep _ ih =>
    have ho := hs.step m limits
    rw [hstep] at ho
    exact ih ho

theorem CallEnds.restores {f : FunctionId} {r : Except Fault (Option Scalar)} {s' : State σ}
    (h : CallEnds m limits f s (r, s')) (hs : s.frames = []) :
    s'.frames = [] ∧ (s'.slots = s.slots ∨ Leaks m f s r s') := by
  generalize he : (r, s') = e at h
  cases h with
  | refused hp =>
    cases he
    cases State.push_error hp with
    | limit | unknown => exact ⟨hs, .inl rfl⟩
    | noZero hf hl hz htop _ => exact ⟨hs, .inr ⟨_, _, hf, hl, hz, rfl, htop⟩⟩
  | entered hp hends =>
    subst he
    have hover : Over s.slots s := ⟨by rw [hs]; exact .nil, fun _ _ => rfl⟩
    obtain ⟨hframes, hslots⟩ := hends.restores (State.push_over hover hp)
    exact ⟨hframes, .inl hslots⟩

/-- After a call from outside, with a result or with any fault, no call is active, and all slots are
as they were before, unless the call was refused for a local variable that has no zero. Where the
slots are as they were, calls go on as from a state that never saw the call but has the same fields,
and prints to a destination that agrees with what the call left of its own: they end in the same
ways, after as many steps. -/
theorem call_restores (m : Module) (limits : Limits) {s s' : State σ} (hs : s.frames = [])
    {fuel : Nat} {f : FunctionId} {r : Except Fault (Option Scalar)}
    (h : call m limits fuel f s = some (r, s')) :
    s'.frames = [] ∧ (s'.slots = s.slots ∨ Leaks m f s r s') ∧
    (s'.slots = s.slots → ∀ {τ : Type} [Output τ] {R : σ → τ → Prop}, Output.SameReplies R →
      ∀ o : τ, R s'.output o → ∀ (n : Nat) (fs : List FunctionId),
        Option.Rel (SameAnswer R s.steps s'.steps) (calls m limits n fs s')
          (calls m limits n fs ⟨s.slots, s.frames, s'.fields, o, s.steps⟩)) := by
  obtain ⟨hframes, hslots⟩ := (call_callEnds h).restores hs
  refine ⟨hframes, hslots, fun heq τ _ R hR o ho n fs => calls_replays hR n fs ?_⟩
  rw [hs, ← hframes, ← heq]
  exact .intro ho (Nat.add_comm ..)

/-- Two functions that can be called: one has a local variable without a zero and the other one
needs two slots. -/
def leaky : Module :=
  ⟨"leaky", [], [
    .of 0 "bad" .void [⟨none, .void⟩] 0 [⟨0, none, [], .ret none⟩] 0 .zero,
    .of 1 "good" .int [] 2 [⟨0, none, [.const ⟨0, .int⟩ (.int 7)], .ret (some ⟨0, .int⟩)⟩]
      0 .zero,
    .of 2 "init" .void [] 0 [⟨0, none, [], .ret none⟩] 0 .zero], 2, 1⟩

/-- A failed call can leave slots in use, and then a call fails that would not have failed. -/
theorem call_leaks : ∃ (m : Module) (limits : Limits) (fuel : Nat) (e : Fault) (s : State Lines),
    call m limits fuel 0 .start = some (.error e, s) ∧ s.slots.top ≠ State.start.slots.top ∧
    (call m limits fuel 1 .start).map Prod.fst = some (.ok (some (.int 7))) ∧
    (call m limits fuel 1 s).map Prod.fst = some (.error (.stackOverflow 1)) :=
  ⟨leaky, ⟨4, 2⟩, 2, .type (.voidLocal .void), ⟨⟨#[.short 0]⟩, [], [], #[], 0⟩, rfl, by decide, rfl,
    rfl⟩

/-- A destination that takes a number of lines and no more. -/
structure Paper where
  lines : Lines
  room : Nat

instance : Output Paper where
  println p v :=
    if p.room = 0 then (.error "out of paper", p)
    else (.ok (), ⟨p.lines.push (lineText v), p.room - 1⟩)

/-- The entry stores into a field and calls a function that prints two lines. -/
def chatty : Module :=
  ⟨"chatty", [⟨"n", .int⟩], [
    .of 0 "main" .void [] 1 [⟨0, none, [.const ⟨0, .int⟩ (.int 7), .storeField 0 ⟨0, .int⟩,
      .call none 1], .ret none⟩] 0 .zero,
    .of 1 "say" .void [] 1 [⟨0, none, [.loadField ⟨0, .int⟩ 0, .print (some ⟨0, .int⟩),
      .print none], .ret none⟩] 0 .zero], 0, 0⟩

/-- The second line is refused, in a call within the call. Later calls go on with the field that was
stored into, and print nothing. -/
theorem chatty_restores : ∃ s : State Paper,
    call chatty .default 6 0 (⟨.empty, [], [.int 1], ⟨#[], 1⟩, 0⟩ : State Paper) =
      some (.error (.output "out of paper"), s) ∧
    s.frames = [] ∧ s.slots = .empty ∧ s.fields = [.int 7] ∧
    Option.Rel (SameAnswer Eq 0 s.steps) (calls chatty .default 6 [1, 0] s)
      (calls chatty .default 6 [1, 0] ⟨.empty, [], [.int 7], ⟨#["7"], 0⟩, 0⟩) := by
  have hcall : call chatty .default 6 0 (⟨.empty, [], [.int 1], ⟨#[], 1⟩, 0⟩ : State Paper) =
      some (.error (.output "out of paper"), ⟨.empty, [], [.int 7], (⟨#["7"], 0⟩ : Paper), 6⟩) :=
    rfl
  obtain ⟨hframes, -, hlater⟩ := call_restores chatty .default rfl hcall
  exact ⟨_, hcall, hframes, rfl, rfl, hlater rfl Output.sameReplies_eq _ rfl 6 [1, 0]⟩

end Cascade.Machine
