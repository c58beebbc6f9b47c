import Cascade.Proofs.Machine.Moves
import Cascade.Proofs.Machine.Storage
import Cascade.Proofs.Machine.Visits

/-!
# Cascade.Proofs.Machine.Isolation

Active calls do not get at each other's slots, whatever the code is.

An index is checked against the end of all slots and not against a window. That is enough because
only the innermost call runs, and its window is the last one: `Stacked` says that the windows lie
one behind the other without gaps, and every step, every end of a call and every fault keeps that.
A window without a call comes about only by a fault, where a local variable has no zero.

* `State.push_fresh`: the window of a new call holds zeros.
* `Windowed.step`, `step_spares`: what one step keeps and which slots it leaves alone.
* `frames_isolated`: this is so in every state of a call from outside.
-/

namespace Cascade.Machine

open Code

variable {σ : Type} [Output σ]

variable {m : Module} {limits : Limits}

/-! ## Windows -/

/-- The windows of the active calls fill the slots up to `top`, each right behind that of its
caller. A window has the local variables of the function and then its registers. -/
inductive Stacked (m : Module) : Nat → List Frame → Prop where
  | nil : Stacked m 0 []
  | cons {t : Nat} {fr : Frame} {rest : List Frame} {f : Function} :
      m.functions[fr.function]? = some f → fr.registers = fr.base + f.locals.length →
      t = fr.registers + f.registers → Stacked m fr.base rest → Stacked m t (fr :: rest)

/-- The windows lie in order, and neither they nor the calls exceed a limit. -/
structure Windowed (m : Module) (limits : Limits) (s : State σ) : Prop where
  windows : Stacked m s.slots.top s.frames
  slots : s.slots.top ≤ limits.maxRegisters
  depth : s.frames.length ≤ limits.maxCallDepth

/-- Behind the slots in use lies a window for a call that did not become active, because the type of
one of its local variables has no zero. -/
inductive Abandoned (m : Module) (t : Nat) : Nat → Prop where
  | intro {g : FunctionId} {f : Function} {l : Code.Local} : m.functions[g]? = some f →
      l ∈ f.locals → Scalar.zero? l.ty = none →
      Abandoned m t (t + (f.locals.length + f.registers))

/-- A call as it begins: each local variable is the zero of its type, and each register is a zero
of type `short`. -/
structure Fresh (m : Module) (c : Slots) (fr : Frame) (f : Function) : Prop where
  found : m.functions[fr.function]? = some f
  locals : ∀ i l, f.locals[i]? = some l → ∃ z, Scalar.zero? l.ty = some z ∧
    c.get (fr.base + i) = .ok z
  registers : ∀ j, j < f.registers → c.get (fr.registers + j) = .ok (.short 0)

/-- The slot of the caller that a call writes when it returns. -/
inductive Awaited (m : Module) (fr : Frame) : List Frame → Nat → Prop where
  | intro {caller : Frame} {rest : List Frame} {r : Option Register} {d : Register} :
      next? m fr = some (.inr (.ret r)) → fr.dest = some d →
      Awaited m fr (caller :: rest) (caller.registers + d.id)

theorem Awaited.returns {fr : Frame} {rest : List Frame} {i : Nat} (h : Awaited m fr rest i) :
    ∃ r, next? m fr = some (.inr (.ret r)) := by
  cases h with
  | intro hn _ => exact ⟨_, hn⟩

namespace Stacked

theorem base_le {t : Nat} {fr : Frame} {rest : List Frame} (h : Stacked m t (fr :: rest)) :
    fr.base ≤ fr.registers ∧ fr.registers ≤ t ∧ Stacked m fr.base rest := by
  cases h with
  | cons _ hr ht h' => exact ⟨by omega, by omega, h'⟩

theorem top_eq {t : Nat} (h : Stacked m t []) : t = 0 := by
  cases h
  rfl

theorem moved {t : Nat} {fr : Frame} {rest : List Frame} (h : Stacked m t (fr :: rest))
    (fr' : Frame) (hf : fr'.function = fr.function) (hb : fr'.base = fr.base)
    (hr : fr'.registers = fr.registers) : Stacked m t (fr' :: rest) := by
  cases h with
  | cons hfound hreg ht h' =>
    exact .cons (hf ▸ hfound) (by rw [hr, hb, hreg]) (by rw [hr, ht]) (hb ▸ h')

theorem bottom : ∀ {frames : List Frame} {t : Nat} {fr : Frame}, Stacked m t frames →
    frames.getLast? = some fr → fr.base = 0 := by
  intro frames
  induction frames with
  | nil => intro t fr _ h; cases h
  | cons top rest ih =>
    intro t fr h hlast
    obtain ⟨-, -, h'⟩ := h.base_le
    cases rest with
    | nil =>
      cases hlast
      exact h'.top_eq
    | cons next rest => exact ih h' (by rwa [List.getLast?_cons_cons] at hlast)

end Stacked

omit [Output σ] in
/-- When the active calls are dropped, no slot is left. -/
theorem Stacked.unwind {s : State σ} {t : Nat} (h : Stacked m t s.frames)
    (hnone : s.frames = [] → s.slots.top = 0) :
    s.unwind.frames = [] ∧ s.unwind.slots.top = 0 := by
  rw [State.unwind]
  cases hl : s.frames.getLast? with
  | none => exact ⟨List.getLast?_eq_none_iff.mp hl, hnone (List.getLast?_eq_none_iff.mp hl)⟩
  | some fr =>
    dsimp only
    rw [h.bottom hl]
    exact ⟨rfl, Slots.free_top (Nat.zero_le _)⟩

/-! ## New calls -/

section

variable {s : State σ} {g : FunctionId} {dest : Option Register}

omit [Output σ] in
/-- A call that was made active reads as zeros, whatever the slots held before. -/
theorem State.push_fresh {s' : State σ} (h : s.push m limits g dest = .ok s') :
    ∃ fr f, s'.frames = fr :: s.frames ∧ fr.base = s.slots.top ∧ Fresh m s'.slots fr f := by
  cases State.push_pushes h with
  | entered hf hdepth hroom hc =>
    rename_i f c
    obtain ⟨-, hkeep, hzero⟩ := clearLocals_spec hc (by rw [Slots.grow_top]; omega)
    refine ⟨_, f, rfl, rfl, hf, fun i l hl => ?_, fun j hj => ?_⟩
    · obtain ⟨z, hz, hcell⟩ := hzero rfl i l hl
      exact ⟨z, hz, Slots.get_ok hcell⟩
    · refine Slots.get_ok ?_
      rw [hkeep _ (.inr (by dsimp only; omega)), Slots.grow_fresh] <;> dsimp only <;> omega

omit [Output σ] in
theorem State.push_windowed {s' : State σ} (h : s.push m limits g dest = .ok s')
    (hs : Stacked m s.slots.top s.frames) : Windowed m limits s' := by
  cases State.push_pushes h with
  | entered hf hdepth hroom hc =>
    obtain ⟨htop, -, -⟩ := clearLocals_spec hc (by rw [Slots.grow_top]; omega)
    rw [Slots.grow_top, ← Nat.add_assoc] at htop
    exact ⟨.cons hf rfl htop hs, by rw [htop]; omega, hdepth⟩

omit [Output σ] in
/-- Without success a window may be left, but no call. -/
theorem State.push_failed {e : Fault} {s' : State σ}
    (h : s.push m limits g dest = .error (e, s')) (hs : s.slots.top ≤ limits.maxRegisters) :
    s'.frames = s.frames ∧ (s'.slots.top = s.slots.top ∨ Abandoned m s.slots.top s'.slots.top) ∧
      s'.slots.top ≤ limits.maxRegisters := by
  cases State.push_pushes h with
  | refused => exact ⟨rfl, .inl rfl, hs⟩
  | half hf hroom hc =>
    obtain ⟨htop, -, -⟩ := clearLocals_spec hc (by rw [Slots.grow_top]; omega)
    obtain ⟨l, hl, hz, -⟩ := clearLocals_fails hc
    rw [Slots.grow_top] at htop
    refine ⟨rfl, .inr ?_, by dsimp only; omega⟩
    rw [htop]
    exact .intro hf hl hz

omit [Output σ] in
/-- The slots that were in use before keep what they hold. -/
theorem State.push_spares {o : Except (Fault × State σ) (State σ)} (h : s.push m limits g dest = o)
    {i : Nat} (hi : i < s.slots.top) :
    match o with
    | .ok s' => s'.slots.cells[i]? = s.slots.cells[i]?
    | .error (_, s') => s'.slots.cells[i]? = s.slots.cells[i]? := by
  cases State.push_pushes h with
  | refused => rfl
  | half hf hroom hc | entered hf hdepth hroom hc =>
    obtain ⟨-, hkeep, -⟩ := clearLocals_spec hc (by rw [Slots.grow_top]; omega)
    dsimp only
    rw [hkeep i (.inl hi), Slots.grow_below _ hi]

end

/-! ## Steps -/

def Outcome.state : Outcome σ → State σ
  | .next s => s
  | .done _ s => s
  | .fault _ s => s

/-- A state that a failed step leaves: the windows lie in order as before, a window for a call that
did not become active may lie behind them, and when the active calls are dropped, nothing is
left. -/
structure Failed (m : Module) (limits : Limits) (s : State σ) : Prop where
  windows : ∃ t, Stacked m t s.frames ∧ (s.slots.top = t ∨ Abandoned m t s.slots.top)
  slots : s.slots.top ≤ limits.maxRegisters
  depth : s.frames.length ≤ limits.maxCallDepth
  unwound : s.unwind.frames = [] ∧ s.unwind.slots.top = 0

omit [Output σ] in
theorem Windowed.failed {s : State σ} (h : Windowed m limits s) : Failed m limits s :=
  ⟨⟨_, h.windows, .inl rfl⟩, h.slots, h.depth, h.windows.unwind fun hnil =>
    Stacked.top_eq (hnil ▸ h.windows)⟩

def Outcome.Windowed (m : Module) (limits : Limits) : Outcome σ → Prop
  | .next s => Machine.Windowed m limits s
  | .done _ s => s.frames = [] ∧ s.slots.top = 0
  | .fault _ s => Failed m limits s

variable {s : State σ} {fr : Frame} {rest : List Frame}

omit [Output σ] in
theorem Frame.Writes.top_eq {c : Slots} (h : fr.Writes s.slots c) : c.top = s.slots.top := by
  cases h with
  | nothing => rfl
  | assigned _ | register _ => exact Slots.put_top ..

omit [Output σ] in
theorem Frame.Writes.spares {c : Slots} (h : fr.Writes s.slots c)
    (hbase : fr.base ≤ fr.registers) {i : Nat} (hi : i < fr.base) :
    c.cells[i]? = s.slots.cells[i]? := by
  cases h with
  | nothing => rfl
  | assigned _ | register _ => exact Slots.put_ne (by omega) _

theorem Frame.Returns.top_eq {c c' : Slots} (h : fr.Returns rest c c') : c'.top = c.top := by
  cases h with
  | nothing _ => rfl
  | register _ _ => exact Slots.put_top ..

/-- The windows stay in their places, whatever a step does. -/
theorem Windowed.step (h : Windowed m limits s) : (step m limits s).Windowed m limits := by
  obtain ⟨hw, hslots, hdepth⟩ := id h
  cases hs : s.frames with
  | nil =>
    rw [hs] at hw
    rw [Machine.step, hs]
    exact ⟨hs, hw.top_eq⟩
  | cons fr rest =>
    rw [hs] at hw hdepth
    rw [List.length_cons] at hdepth
    obtain ⟨hbase, htop, hrest⟩ := hw.base_le
    have hfree : (s.slots.free fr.base).top = fr.base := Slots.free_top (by omega)
    obtain ⟨e, he⟩ | ⟨f, b, hf, hb, hm⟩ := step_cases m limits hs
    · rw [he]
      exact h.failed
    · generalize Machine.step m limits s = o at hm
      cases hm with
      | instr _ _ hwrites =>
        have hc := hwrites.top_eq
        exact ⟨hc ▸ hw.moved _ rfl rfl rfl, by rw [hc]; exact hslots, hdepth⟩
      | call _ hp => exact State.push_windowed hp (hw.moved _ rfl rfl rfl)
      | refused _ hp =>
        obtain ⟨hframes, htop', hmax⟩ := State.push_failed hp hslots
        dsimp only at hframes
        have hw' := hframes ▸ hw.moved fr.advance rfl rfl rfl
        exact ⟨⟨_, hw', htop'⟩, hmax, by rw [hframes]; exact hdepth,
          hw'.unwind fun h => absurd (hframes.symm.trans h) (List.cons_ne_nil _ _)⟩
      | jump _ _ => exact ⟨hw.moved _ rfl rfl rfl, hslots, hdepth⟩
      | done _ _ hnil =>
        subst hnil
        exact ⟨rfl, hfree.trans hrest.top_eq⟩
      | returned _ _ hret =>
        have hc := hret.top_eq.trans hfree
        exact ⟨hc ▸ hrest, by dsimp only; omega, by dsimp only; omega⟩
      | lost _ _ =>
        exact Windowed.failed ⟨hfree.symm ▸ hrest, by dsimp only; omega, by dsimp only; omega⟩
      | stuck hfr =>
        exact Windowed.failed ⟨hw.moved _ (by obtain rfl | rfl := hfr <;> rfl)
          (by obtain rfl | rfl := hfr <;> rfl) (by obtain rfl | rfl := hfr <;> rfl), hslots, hdepth⟩

theorem Windowed.steps {s' : State σ} (h : Windowed m limits s) (hs : Steps m limits s s') :
    Windowed m limits s' := by
  induction hs with
  | refl => exact h
  | cons hstep _ ih =>
    have hl := h.step
    rw [hstep] at hl
    exact ih hl

/-- One step leaves all slots below the window of the innermost call alone, but for the register
that waits for its result. -/
theorem step_spares (hw : Stacked m s.slots.top s.frames) (hs : s.frames = fr :: rest) {i : Nat}
    (hi : i < fr.base) (ha : ¬ Awaited m fr rest i) :
    (step m limits s).state.slots.cells[i]? = s.slots.cells[i]? := by
  obtain ⟨hbase, htop, -⟩ := (hs ▸ hw).base_le
  have hfree : (s.slots.free fr.base).cells[i]? = s.slots.cells[i]? :=
    Slots.free_below hi (by omega)
  obtain ⟨e, he⟩ | ⟨f, b, hf, hb, hm⟩ := step_cases m limits hs
  · rw [he]
    rfl
  · generalize step m limits s = o at hm
    cases hm with
    | instr _ _ hwrites => exact hwrites.spares hbase hi
    | call _ hp | refused _ hp => exact State.push_spares hp (by dsimp only; omega)
    | jump _ _ | stuck _ => rfl
    | done _ _ _ | lost _ _ => exact hfree
    | returned hn ht hret =>
      cases hret with
      | nothing _ => exact hfree
      | register hd hlt =>
        have hnext : next? m fr = some (.inr b.term) := by simp only [next?, hf, hb, hn]
        refine (Slots.put_ne (fun heq => ha ?_) _).trans hfree
        exact heq ▸ .intro (ht ▸ hnext) hd

/-! ## Calls from outside -/

/-- In every state of a call from outside that starts with no slots in use, the windows of the
active calls lie one behind the other within the limits, and a step changes no slot below the
window of the innermost call but the one that waits for its result. A call that is made active
reads as zeros, in whatever state that happens and whatever calls that ended left in an array that
is used again. When a call from outside that was made active ends, by its return or by a fault, no
window is left. -/
theorem frames_isolated (m : Module) (limits : Limits) {s₀ : State σ} (hframes : s₀.frames = [])
    (htop : s₀.slots.top = 0) (f : FunctionId) :
    (∀ e s, s₀.push m limits f none = .error (e, s) →
      s.frames = [] ∧ (s.slots.top = 0 ∨ Abandoned m 0 s.slots.top) ∧
        s.slots.top ≤ limits.maxRegisters) ∧
    (∀ s₁ s, s₀.push m limits f none = .ok s₁ → Steps m limits s₁ s →
      Windowed m limits s ∧ (step m limits s).Windowed m limits ∧
        ∀ fr rest, s.frames = fr :: rest → ∀ i < fr.base, ¬ Awaited m fr rest i →
          (step m limits s).state.slots.cells[i]? = s.slots.cells[i]?) ∧
    (∀ (s s' : State σ) (g : FunctionId) (dest : Option Register), s.push m limits g dest = .ok s' →
      ∃ fr callee, s'.frames = fr :: s.frames ∧ fr.base = s.slots.top ∧
        Fresh m s'.slots fr callee) ∧
    ∀ (r r' : Storage) (limit count depth base : Nat),
      r.alloc limit count depth = .ok (base, r') →
      base = r.slots.top ∧ r'.slots = r.slots.grow count := by
  refine ⟨fun e s he => ?_, fun s₁ s hp hsteps => ?_, fun s s' g dest hp => State.push_fresh hp,
    fun r r' limit count depth base h => Storage.alloc_ok h⟩
  · obtain ⟨hf, htop', hmax⟩ := State.push_failed he (by omega)
    rw [htop] at htop'
    exact ⟨hf.trans hframes, htop', hmax⟩
  · have hl : Windowed m limits s := by
      refine Windowed.steps (State.push_windowed hp ?_) hsteps
      rw [hframes, htop]
      exact .nil
    exact ⟨hl, hl.step, fun fr rest hs i hi ha => step_spares hl.windows hs hi ha⟩

/-- A call within a call, which takes its register for a second local variable. -/
def nested : Module :=
  ⟨"nested", [], [
    .of 0 "outer" .int [⟨some "a", .long⟩] 1
      [⟨0, none, [.call (some ⟨0, .int⟩) 1], .ret (some ⟨0, .int⟩)⟩] 0 .zero,
    .of 1 "inner" .int [⟨some "b", .int⟩] 1
      [⟨0, none, [.const ⟨0, .int⟩ (.int 7), .storeLocal 1 ⟨0, .int⟩], .ret (some ⟨0, .int⟩)⟩]
      0 .zero], 0, 0⟩

theorem nested_frames_isolated :
    ∃ s₁ s, State.start.push nested .default 0 none = .ok s₁ ∧ Steps nested .default s₁ s ∧
      s.frames.map Frame.base = [2, 0] ∧ Windowed nested .default s ∧
      (step nested .default s).state.slots.cells[0]? = s.slots.cells[0]? ∧
      (step nested .default s).state.slots.cells[1]? = s.slots.cells[1]? := by
  refine ⟨_, _, rfl, .cons rfl (.cons rfl .refl), rfl, ?_⟩
  obtain ⟨-, h, -⟩ := frames_isolated nested .default (show State.start.frames = [] from rfl) rfl 0
  obtain ⟨hl, -, hs⟩ := h _ _ rfl (.cons rfl (.cons rfl .refl))
  refine ⟨hl, hs _ _ rfl 0 (by decide) fun ha => ?_, hs _ _ rfl 1 (by decide) fun ha => ?_⟩
  all_goals
    obtain ⟨r, hr⟩ := ha.returns
    exact nomatch hr

/-- A function whose second local variable has no zero. -/
def hollow : Module :=
  ⟨"hollow", [], [.of 0 "main" .void [⟨some "a", .int⟩, ⟨none, .void⟩] 1
    [⟨0, none, [], .ret none⟩] 0 .zero], 0, 0⟩

/-- The slots in use need not end where the last window does: a call that is refused while its local
variables are set leaves its slots behind. -/
theorem refused_overhangs : ∃ (m : Module) (limits : Limits) (e : Fault) (s : State Lines),
    State.start.push m limits 0 none = .error (e, s) ∧
    call m limits 1 0 .start = some (.error e, s) ∧ s.frames = [] ∧ s.slots.top = 3 ∧
    ¬ Stacked m s.slots.top s.frames :=
  ⟨hollow, .default, .type (.voidLocal .void),
    ⟨⟨#[.int 0, .short 0, .short 0]⟩, [], [], #[], 0⟩, rfl, rfl, rfl, rfl, fun h =>
    absurd h.top_eq (by decide)⟩

end Cascade.Machine
