import Cascade.Machine.State
import Cascade.Proofs.Scalar

/-!
# Cascade.Proofs.Machine.Slots

What the operations on slots do to single slots.

* `put`, `grow` and `free` touch what they are meant to touch and nothing else.
* `clearLocals_spec`: clearing local variables touches their slots only, and if it succeeds, each of
  them is the zero of its type; `clearLocals_cells`: for numeric types it does.
* `State.push_cases`: making a call active fails by a stack overflow, or a window is added.
* `State.push_error`: all reasons for which it fails, in any module, and what is left then.
-/

namespace Cascade.Machine

open Code

variable {σ : Type}

namespace Slots

variable {s : Slots} {i j : Nat} {v : Scalar}

theorem get_ok (h : s.cells[i]? = some v) : s.get i = .ok v := by
  rw [get, h]

theorem cells_above (h : s.top ≤ i) : s.cells[i]? = none := Array.getElem?_eq_none h

@[simp] theorem put_top (s : Slots) (i : Nat) (v : Scalar) : (s.put i v).top = s.top := by
  simp [put, top]

theorem put_self (h : i < s.top) (v : Scalar) : (s.put i v).cells[i]? = some v :=
  Array.getElem?_setIfInBounds_self_of_lt h

theorem put_ne (h : i ≠ j) (v : Scalar) : (s.put i v).cells[j]? = s.cells[j]? :=
  Array.getElem?_setIfInBounds_ne h

@[simp] theorem grow_top (s : Slots) (n : Nat) : (s.grow n).top = s.top + n := by
  simp [grow, top]

theorem grow_below (n : Nat) (h : i < s.top) : (s.grow n).cells[i]? = s.cells[i]? :=
  Array.getElem?_append_left h

theorem grow_fresh {n : Nat} (h : s.top ≤ i) (hi : i < s.top + n) :
    (s.grow n).cells[i]? = some (.short 0) := by
  rw [Slots.top] at h hi
  rw [Slots.grow, Array.getElem?_append_right h, Array.getElem?_replicate, if_pos (by omega)]

theorem free_top (h : i ≤ s.top) : (s.free i).top = i := by
  simp only [free, top, Array.size_shrink] at *
  omega

theorem free_below (h : j < i) (hi : i ≤ s.top) : (s.free i).cells[j]? = s.cells[j]? := by
  have hj : j < (s.free i).cells.size := Nat.lt_of_lt_of_eq h (free_top hi).symm
  rw [Array.getElem?_eq_getElem hj, Array.getElem?_eq_getElem (Nat.lt_of_lt_of_le h hi)]
  simp only [free, Array.getElem_shrink]

theorem free_eq {s' : Slots} (htop : s.top ≤ s'.top)
    (h : ∀ i, i < s.top → s'.cells[i]? = s.cells[i]?) : s'.free s.top = s := by
  obtain ⟨cells⟩ := s
  simp only [free, top, mk.injEq] at *
  refine Array.ext_getElem? fun i => ?_
  by_cases hi : i < cells.size
  · rw [← h i hi, Array.getElem?_eq_getElem (by rw [Array.size_shrink]; omega),
      Array.getElem_shrink, Array.getElem?_eq_getElem]
  · rw [Array.getElem?_eq_none (by rw [Array.size_shrink]; omega),
      Array.getElem?_eq_none (by omega)]

end Slots

/-- Clearing local variables touches their slots only, and if it succeeds, each of them holds the
zero of its type. -/
theorem clearLocals_spec : ∀ {ls : List Code.Local} {s c : Slots} {i : Nat} {e : Option Fault},
    clearLocals s i ls = (c, e) → i + ls.length ≤ s.top →
    c.top = s.top ∧ (∀ j, j < i ∨ i + ls.length ≤ j → c.cells[j]? = s.cells[j]?) ∧
      (e = none → ∀ j l, ls[j]? = some l →
        ∃ z, Scalar.zero? l.ty = some z ∧ c.cells[i + j]? = some z) := by
  intro ls
  induction ls with
  | nil =>
    intro s c i e h _
    cases h
    exact ⟨rfl, fun _ _ => rfl, fun _ _ _ h => by cases h⟩
  | cons l ls ih =>
    intro s c i e h htop
    rw [List.length_cons] at htop
    rw [clearLocals] at h
    cases hz : Scalar.zero? l.ty with
    | none =>
      rw [hz] at h
      cases h
      exact ⟨rfl, fun _ _ => rfl, nofun⟩
    | some z =>
      rw [hz] at h
      obtain ⟨htop', hkeep, hzero⟩ := ih h (by rw [Slots.put_top]; omega)
      refine ⟨by rw [htop', Slots.put_top], fun j hj => ?_, fun he j l' hj => ?_⟩
      · rw [List.length_cons] at hj
        rw [hkeep j (by omega), Slots.put_ne (by omega)]
      · cases j with
        | zero =>
          cases hj
          exact ⟨z, hz, by rw [Nat.add_zero, hkeep i (by omega), Slots.put_self (by omega)]⟩
        | succ j =>
          rw [← Nat.add_assoc, Nat.add_right_comm]
          exact hzero he j l' (by simpa using hj)

theorem clearLocals_fails {ls : List Code.Local} {s c : Slots} {i : Nat} {e : Fault}
    (h : clearLocals s i ls = (c, some e)) :
    ∃ l ∈ ls, Scalar.zero? l.ty = none ∧ e = .type (.voidLocal l.ty) := by
  induction ls generalizing s i with
  | nil => cases h
  | cons l ls ih =>
    rw [clearLocals] at h
    cases hz : Scalar.zero? l.ty with
    | none =>
      rw [hz] at h
      cases h
      exact ⟨l, List.mem_cons_self, hz, rfl⟩
    | some z =>
      rw [hz] at h
      obtain ⟨l', hl', hz'⟩ := ih h
      exact ⟨l', List.mem_cons_of_mem _ hl', hz'⟩

/-- Clearing local variables of numeric types never fails. It keeps what lies around them. -/
theorem clearLocals_cells {ls : List Code.Local} {s : Slots} {i : Nat}
    (hn : ∀ l ∈ ls, l.ty.isNumeric = true) (htop : i + ls.length ≤ s.top) :
    ∃ s', clearLocals s i ls = (s', none) ∧ s'.top = s.top ∧
      (∀ j, j < i ∨ i + ls.length ≤ j → s'.cells[j]? = s.cells[j]?) ∧
      ∀ j l, ls[j]? = some l → s'.cells[i + j]? = Scalar.zero? l.ty := by
  cases hc : clearLocals s i ls with
  | mk s' e =>
    obtain ⟨htop', hkeep, hzero⟩ := clearLocals_spec hc htop
    cases e with
    | some e =>
      obtain ⟨l, hl, hnone, -⟩ := clearLocals_fails hc
      obtain ⟨z, hz⟩ := Scalar.zero?_isSome (hn l hl)
      cases hnone.symm.trans hz
    | none =>
      refine ⟨s', rfl, htop', hkeep, fun j l hl => ?_⟩
      obtain ⟨z, hz, hcell⟩ := hzero rfl j l hl
      exact hcell.trans hz.symm

/-- A window was added on top of some slots for a call of a function, and its local variables are
zero. -/
structure Opened (below : Slots) (f : Function) (c : Slots) : Prop where
  top : c.top = below.top + (f.locals.length + f.registers)
  keeps : ∀ i, i < below.top → c.cells[i]? = below.cells[i]?
  zeros : ∀ i l, f.locals[i]? = some l → c.cells[below.top + i]? = Scalar.zero? l.ty

/-- To make a call of a function active exceeds a limit, or adds a window and a frame. -/
theorem State.push_cases {m : Module} (limits : Limits) (s : State σ) {j : FunctionId}
    (dest : Option Register) {f : Function} (hf : m.functions[j]? = some f)
    (hn : ∀ l ∈ f.locals, l.ty.isNumeric = true) :
    s.push m limits j dest = .error (.stackOverflow (s.frames.length + 1), s) ∨
      s.frames.length < limits.maxCallDepth ∧ ∃ c, Opened s.slots f c ∧
        s.push m limits j dest = .ok ⟨c, ⟨j, f.entry, 0, s.slots.top,
          s.slots.top + f.locals.length, dest⟩ :: s.frames, s.fields, s.output, s.steps⟩ := by
  obtain ⟨slots, frames, fields, output, steps⟩ := s
  by_cases hdepth : limits.maxCallDepth < frames.length + 1
  · exact .inl (by simp only [State.push, hdepth, if_true])
  by_cases hroom : slots.hasRoom limits.maxRegisters (f.locals.length + f.registers) = true
  · obtain ⟨c, hc, htop, hkeep, hzero⟩ := clearLocals_cells
      (s := slots.grow (f.locals.length + f.registers)) (i := slots.top) hn
      (by rw [Slots.grow_top]; omega)
    refine .inr ⟨Nat.not_lt.mp hdepth, c, ⟨by rw [htop, Slots.grow_top], fun i hi => ?_, hzero⟩, ?_⟩
    · rw [hkeep i (.inl hi), Slots.grow_below _ hi]
    · simp only [State.push, hdepth, if_false, hf, hroom, Bool.not_true, Bool.false_eq_true, hc]
  · exact .inl (by simp [State.push, hdepth, hf, hroom])

/-- Why a call is not made active, and what that leaves: the state as it was, or one with a window
more. -/
inductive Refused (m : Module) (s : State σ) (j : FunctionId) : Fault → State σ → Prop where
  | limit {depth : Nat} : Refused m s j (.stackOverflow depth) s
  | unknown : m.functions[j]? = none → Refused m s j (.unknownFunction j) s
  | noZero {f : Function} {l : Code.Local} {c : Slots} : m.functions[j]? = some f →
      l ∈ f.locals → Scalar.zero? l.ty = none →
      c.top = s.slots.top + (f.locals.length + f.registers) →
      (∀ i, i < s.slots.top → c.cells[i]? = s.slots.cells[i]?) →
      Refused m s j (.type (.voidLocal l.ty)) ⟨c, s.frames, s.fields, s.output, s.steps⟩

theorem State.push_error {m : Module} {limits : Limits} {s s' : State σ} {j : FunctionId}
    {dest : Option Register} {e : Fault} (h : s.push m limits j dest = .error (e, s')) :
    Refused m s j e s' := by
  obtain ⟨slots, frames, fields, output, steps⟩ := s
  unfold State.push at h
  dsimp only at h
  split at h
  · cases h
    exact .limit
  split at h
  · cases h
    exact .unknown ‹_›
  rename_i f hf
  split at h
  · cases h
    exact .limit
  split at h
  · rename_i c e' hc
    cases h
    obtain ⟨l, hl, hz, rfl⟩ := clearLocals_fails hc
    obtain ⟨htop, hkeep, -⟩ := clearLocals_spec hc (by rw [Slots.grow_top]; omega)
    refine .noZero hf hl hz (htop.trans (Slots.grow_top ..)) fun i hi => ?_
    rw [hkeep i (.inl hi), Slots.grow_below _ hi]
  · cases h

end Cascade.Machine
