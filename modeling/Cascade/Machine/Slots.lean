import Cascade.Machine.Fault

/-!
# Cascade.Machine.Slots

The storage that all active calls share: one array of values, of which each call has a window at
the end of those before it. What a call had is gone when it ends.

* A fresh window holds zeros, and windows before it are as they were.
* An index is only checked against the end of the array, not against a window.
-/

namespace Cascade.Machine

structure Slots where
  cells : Array Scalar
  deriving DecidableEq

namespace Slots

def empty : Slots := ⟨#[]⟩

def top (s : Slots) : Nat := s.cells.size

/-- There may be `count` more slots, where `limit` is the number of all that there may be. -/
def hasRoom (s : Slots) (limit count : Nat) : Bool := s.top + count ≤ limit

def grow (s : Slots) (count : Nat) : Slots := ⟨s.cells ++ Array.replicate count (.short 0)⟩

/-- Replace the value of a slot that is in use. -/
def put (s : Slots) (i : Nat) (v : Scalar) : Slots := ⟨s.cells.setIfInBounds i v⟩

/-- Add a window where there is room for it; `depth` is the number of the call that asks. -/
def alloc (s : Slots) (limit count depth : Nat) : Except Fault (Nat × Slots) :=
  if s.hasRoom limit count then .ok (s.top, s.grow count) else .error (.stackOverflow depth)

def free (s : Slots) (base : Nat) : Slots := ⟨s.cells.shrink base⟩

def get (s : Slots) (i : Nat) : Except Fault Scalar :=
  match s.cells[i]? with
  | some v => .ok v
  | none => .error (.slotRange i s.top)

def set (s : Slots) (i : Nat) (v : Scalar) : Except Fault Slots :=
  if i < s.top then .ok (s.put i v) else .error (.slotRange i s.top)

end Slots

end Cascade.Machine
