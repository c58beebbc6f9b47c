import Cascade.Proofs.Machine.Checked

/-!
# Cascade.Proofs.Machine.Hidden

Slots that differ where nobody looks.

* `Slots.SameBut`: slots that are the same but for hidden ones. All operations keep that, and so
  does a value that is put into a hidden slot on one side.
* `Hidden`: the slots that one register of a function has in the windows of its calls.
* `Housed.visible`: windows do not overlap, so that in its own window a call sees everything but
  this register.
-/

namespace Cascade.Machine

open Code

structure Slots.SameBut (hidden : Nat → Prop) (c c' : Slots) : Prop where
  top : c'.top = c.top
  cells : ∀ i, ¬hidden i → c'.cells[i]? = c.cells[i]?

namespace Slots.SameBut

variable {hidden : Nat → Prop} {c c' : Slots}

theorem refl (hidden : Nat → Prop) (c : Slots) : SameBut hidden c c := ⟨rfl, fun _ _ => rfl⟩

theorem get (h : SameBut hidden c c') {i : Nat} (hi : ¬hidden i) : c'.get i = c.get i := by
  rw [Slots.get, Slots.get, h.cells i hi, h.top]

theorem put (h : SameBut hidden c c') (i : Nat) (v : Scalar) :
    SameBut hidden (c.put i v) (c'.put i v) := by
  refine ⟨by simp [h.top], fun j hj => ?_⟩
  by_cases hij : i = j
  · subst hij
    have htop := h.top
    by_cases hi : i < c.top
    · rw [Slots.put_self hi, Slots.put_self (by omega)]
    · rw [Slots.cells_above (by rw [Slots.put_top]; omega),
        Slots.cells_above (by rw [Slots.put_top]; omega)]
  · rw [Slots.put_ne hij, Slots.put_ne hij]
    exact h.cells j hj

theorem put_hidden (h : SameBut hidden c c') {i : Nat} (hi : hidden i) (v : Scalar) :
    SameBut hidden (c.put i v) c' := by
  refine ⟨by simp [h.top], fun j hj => ?_⟩
  have hij : i ≠ j := fun he => hj (he ▸ hi)
  rw [Slots.put_ne hij]
  exact h.cells j hj

theorem grow (h : SameBut hidden c c') (n : Nat) : SameBut hidden (c.grow n) (c'.grow n) := by
  have htop := h.top
  refine ⟨by simp [htop], fun i hi => ?_⟩
  by_cases hlt : i < c.top
  · rw [Slots.grow_below n hlt, Slots.grow_below n (by omega)]
    exact h.cells i hi
  by_cases hn : i < c.top + n
  · rw [Slots.grow_fresh (by omega) hn, Slots.grow_fresh (by omega) (by omega)]
  · rw [Slots.cells_above (by rw [Slots.grow_top]; omega),
      Slots.cells_above (by rw [Slots.grow_top]; omega)]

theorem free (h : SameBut hidden c c') {base : Nat} (hb : base ≤ c.top) :
    SameBut hidden (c.free base) (c'.free base) := by
  have hb' : base ≤ c'.top := h.top.symm ▸ hb
  refine ⟨by rw [Slots.free_top hb, Slots.free_top hb'], fun i hi => ?_⟩
  by_cases hlt : i < base
  · rw [Slots.free_below hlt hb, Slots.free_below hlt hb']
    exact h.cells i hi
  · have hfree := Slots.free_top hb
    have hfree' := Slots.free_top hb'
    rw [Slots.cells_above (by omega), Slots.cells_above (by omega)]

/-- Only what is hidden among the slots in use matters. -/
theorem mono (h : SameBut hidden c c') {hidden' : Nat → Prop}
    (hh : ∀ i, i < c.top → hidden i → hidden' i) : SameBut hidden' c c' := by
  refine ⟨h.top, fun i hi => ?_⟩
  by_cases hlt : i < c.top
  · exact h.cells i fun hc => hi (hh i hlt hc)
  · have htop := h.top
    rw [Slots.cells_above (Nat.not_lt.mp hlt), Slots.cells_above (by omega)]

theorem eq (h : SameBut hidden c c') (hh : ∀ i, ¬hidden i) : c' = c := by
  obtain ⟨cells⟩ := c
  obtain ⟨cells'⟩ := c'
  exact congrArg Slots.mk (Array.ext_getElem? fun i => h.cells i (hh i))

theorem clearLocals (h : SameBut hidden c c') (ls : List Code.Local) (i : Nat) :
    (clearLocals c' i ls).2 = (clearLocals c i ls).2 ∧
      SameBut hidden (clearLocals c i ls).1 (clearLocals c' i ls).1 := by
  induction ls generalizing c c' i with
  | nil => exact ⟨rfl, h⟩
  | cons l ls ih =>
    rw [Machine.clearLocals, Machine.clearLocals]
    cases Scalar.zero? l.ty with
    | none => exact ⟨rfl, h⟩
    | some z => exact ih (h.put i z) (i + 1)

end Slots.SameBut

/-! ## One register of a function -/

/-- The slots of register `d` in the windows of the calls of function `j`. -/
def Hidden (j : FunctionId) (d : Nat) (frames : List Frame) (i : Nat) : Prop :=
  ∃ fr ∈ frames, fr.function = j ∧ i = fr.registers + d

variable {m : Module} {j : FunctionId} {d top i : Nat} {fr : Frame} {rest : List Frame}

theorem Hidden.tail (h : Hidden j d rest i) : Hidden j d (fr :: rest) i := by
  obtain ⟨c, hmem, hj, hi⟩ := h
  exact ⟨c, List.mem_cons_of_mem _ hmem, hj, hi⟩

theorem Hidden.moved {fr' : Frame} (h : Hidden j d (fr :: rest) i)
    (hf : fr'.function = fr.function) (hr : fr'.registers = fr.registers) :
    Hidden j d (fr' :: rest) i := by
  obtain ⟨c, hmem, hj, hi⟩ := h
  obtain rfl | hmem := List.mem_cons.mp hmem
  · exact ⟨fr', List.mem_cons_self, hf.trans hj, hr ▸ hi⟩
  · exact ⟨c, List.mem_cons_of_mem _ hmem, hj, hi⟩

theorem Hidden.below (h : Hidden j d (fr :: rest) i) (hi : i < fr.registers) :
    Hidden j d rest i := by
  obtain ⟨c, hmem, hj, rfl⟩ := h
  obtain rfl | hmem := List.mem_cons.mp hmem
  · exact absurd hi (by omega)
  · exact ⟨c, hmem, hj, rfl⟩

section

variable (hroom : ∀ f, m.functions[j]? = some f → d < f.registers) {dest : Option Register}
include hroom

/-- The hidden slots are in the windows of the calls. -/
theorem Housed.hidden_lt {frames : List Frame} (h : Housed m top dest frames)
    (hi : Hidden j d frames i) : i < top := by
  induction h with
  | nil =>
    obtain ⟨_, hmem, -⟩ := hi
    cases hmem
  | @cons top _ fr rest f b hfr _ _ ih =>
    have hstart := hfr.start
    have hextent := hfr.extent
    obtain ⟨c, hmem, hj, rfl⟩ := hi
    obtain rfl | hmem := List.mem_cons.mp hmem
    · have hlt := hroom f (hj ▸ hfr.found)
      omega
    · have hlt := ih ⟨c, hmem, hj, rfl⟩
      omega

/-- The only slot in the window of the innermost call that may be hidden is that of the register. -/
theorem Housed.visible (h : Housed m fr.base dest rest) (hi : fr.base ≤ i)
    (hne : fr.function = j → i ≠ fr.registers + d) : ¬Hidden j d (fr :: rest) i := by
  rintro ⟨c, hmem, hj, rfl⟩
  obtain rfl | hmem := List.mem_cons.mp hmem
  · exact hne hj rfl
  · exact absurd (h.hidden_lt hroom ⟨c, hmem, hj, rfl⟩) (Nat.not_lt.mpr hi)

end

end Cascade.Machine
