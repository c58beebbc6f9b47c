import Cascade.Proofs.Machine.Slots

/-!
# Cascade.Proofs.Machine.Storage

Slots in storage that is used again. An array that never gets shorter holds the slots in use at its
start; behind them lies what calls that have ended left there. Every operation on it does to the
slots in use what the operation on `Slots` does, so nothing that was left can be read.
-/

namespace Cascade.Machine

/-- An array whose first `top` slots are in use. -/
structure Storage where
  cells : Array Scalar
  top : Nat
  top_le : top ≤ cells.size

/-- Write zeros of type `short` to `n` slots from `i` on. -/
def wipe (cells : Array Scalar) (i : Nat) : Nat → Array Scalar
  | 0 => cells
  | n + 1 => wipe (cells.setIfInBounds i (.short 0)) (i + 1) n

theorem wipe_size (cells : Array Scalar) (i n : Nat) : (wipe cells i n).size = cells.size := by
  induction n generalizing cells i with
  | zero => rfl
  | succ n ih => rw [wipe, ih, Array.size_setIfInBounds]

theorem wipe_below {i j : Nat} (cells : Array Scalar) (n : Nat) (h : j < i) :
    (wipe cells i n)[j]? = cells[j]? := by
  induction n generalizing cells i with
  | zero => rfl
  | succ n ih => rw [wipe, ih _ (by omega), Array.getElem?_setIfInBounds_ne (by omega)]

theorem wipe_zero {i n j : Nat} (cells : Array Scalar) (hi : i ≤ j) (hn : j < i + n)
    (hj : j < cells.size) : (wipe cells i n)[j]? = some (.short 0) := by
  induction n generalizing cells i with
  | zero => omega
  | succ n ih =>
    rw [wipe]
    by_cases h : i = j
    · subst h
      rw [wipe_below _ _ (by omega), Array.getElem?_setIfInBounds_self_of_lt hj]
    · exact ih _ (by omega) (by omega) (by rw [Array.size_setIfInBounds]; exact hj)

namespace Storage

/-- The slots in use. -/
def slots (r : Storage) : Slots := ⟨r.cells.extract 0 r.top⟩

/-- Add a window where there is room for it: make the array longer only where it has to be, and
write zeros over the window. -/
def alloc (r : Storage) (limit count depth : Nat) : Except Fault (Nat × Storage) :=
  if r.top + count ≤ limit then
    .ok (r.top, ⟨wipe (r.cells ++ Array.replicate (r.top + count - r.cells.size) (.short 0)) r.top
      count, r.top + count, by rw [wipe_size, Array.size_append, Array.size_replicate]; omega⟩)
  else .error (.stackOverflow depth)

/-- Give up the slots from `base` on, and leave in the array what they hold. -/
def free (r : Storage) (base : Nat) (h : base ≤ r.top) : Storage :=
  ⟨r.cells, base, Nat.le_trans h r.top_le⟩

def get (r : Storage) (i : Nat) : Except Fault Scalar :=
  if h : i < r.top then
    have hi := Nat.lt_of_lt_of_le h r.top_le
    .ok r.cells[i]
  else .error (.slotRange i r.top)

def set (r : Storage) (i : Nat) (v : Scalar) : Except Fault Storage :=
  if i < r.top then
    .ok ⟨r.cells.setIfInBounds i v, r.top, by rw [Array.size_setIfInBounds]; exact r.top_le⟩
  else .error (.slotRange i r.top)

variable (r : Storage)

@[simp] theorem slots_top : r.slots.top = r.top := by
  have := r.top_le
  simp only [slots, Slots.top, Array.size_extract]
  omega

theorem slots_cell {i : Nat} (h : i < r.top) : r.slots.cells[i]? = r.cells[i]? := by
  simp only [slots, Array.getElem?_extract, Nat.zero_add, Nat.sub_zero]
  rw [if_pos (Nat.lt_min.mpr ⟨h, Nat.lt_of_lt_of_le h r.top_le⟩)]

theorem slots_ext {s : Slots} (htop : s.top = r.top)
    (h : ∀ i, i < r.top → s.cells[i]? = r.cells[i]?) : r.slots = s := by
  obtain ⟨cells⟩ := s
  rw [show r.slots = ⟨r.slots.cells⟩ from rfl, Slots.mk.injEq]
  refine Array.ext_getElem? fun i => ?_
  by_cases hi : i < r.top
  · rw [r.slots_cell hi, ← h i hi]
  · rw [Array.getElem?_eq_none, Array.getElem?_eq_none]
    · exact Nat.le_trans (Nat.le_of_eq htop) (Nat.not_lt.mp hi)
    · exact Nat.le_trans (Nat.le_of_eq r.slots_top) (Nat.not_lt.mp hi)

/-- A new window is as good as one at the end of the array, whatever was left in its slots. -/
theorem alloc_slots (limit count depth : Nat) :
    (r.alloc limit count depth).map (fun p => (p.1, p.2.slots)) =
      r.slots.alloc limit count depth := by
  simp only [alloc, Slots.alloc, Slots.hasRoom, slots_top, decide_eq_true_eq]
  split
  · have hle := r.top_le
    refine congrArg Except.ok (Prod.ext rfl (slots_ext _ ?_ fun i hi => ?_))
    · rw [Slots.grow_top, slots_top]
    · dsimp only at hi ⊢
      by_cases hlt : i < r.top
      · rw [wipe_below _ _ hlt, Slots.grow_below _ (by rw [slots_top]; exact hlt),
          r.slots_cell hlt, Array.getElem?_append_left (by omega)]
      · rw [wipe_zero _ (by omega) hi
          (by rw [Array.size_append, Array.size_replicate]; omega)]
        exact Slots.grow_fresh (by rw [slots_top]; omega) (by rw [slots_top]; exact hi)
  · rfl

theorem alloc_ok {r r' : Storage} {limit count depth base : Nat}
    (h : r.alloc limit count depth = .ok (base, r')) :
    base = r.slots.top ∧ r'.slots = r.slots.grow count := by
  have ha := r.alloc_slots limit count depth
  rw [h, Slots.alloc] at ha
  split at ha
  · obtain ⟨h₁, h₂⟩ := Prod.ext_iff.mp (Except.ok.inj ha)
    exact ⟨h₁, h₂⟩
  · cases ha

theorem get_slots (i : Nat) : r.get i = r.slots.get i := by
  rw [get, Slots.get]
  split
  · rename_i h
    rw [r.slots_cell h, Array.getElem?_eq_getElem (Nat.lt_of_lt_of_le h r.top_le)]
  · rename_i h
    rw [Array.getElem?_eq_none (Nat.le_trans (Nat.le_of_eq r.slots_top) (Nat.not_lt.mp h)),
      slots_top]

theorem set_slots (i : Nat) (v : Scalar) : (r.set i v).map slots = r.slots.set i v := by
  rw [set, Slots.set, slots_top]
  split
  · rename_i h
    refine congrArg Except.ok (slots_ext _ (by rw [Slots.put_top, slots_top]) fun j hj => ?_)
    dsimp only at hj ⊢
    by_cases hij : i = j
    · subst hij
      rw [Slots.put_self (by rw [slots_top]; exact h), Array.getElem?_setIfInBounds_self_of_lt
        (Nat.lt_of_lt_of_le h r.top_le)]
    · rw [Slots.put_ne hij, Array.getElem?_setIfInBounds_ne hij, r.slots_cell hj]
  · rfl

theorem free_slots (base : Nat) (h : base ≤ r.top) : (r.free base h).slots = r.slots.free base := by
  have htop : base ≤ r.slots.top := by rw [slots_top]; exact h
  refine slots_ext _ (Slots.free_top htop) fun i hi => ?_
  have hi : i < base := hi
  rw [Slots.free_below hi htop, r.slots_cell (Nat.lt_of_lt_of_le hi h)]
  rfl

end Storage

end Cascade.Machine
