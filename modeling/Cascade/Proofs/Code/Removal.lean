import Cascade.Code.Module

/-!
# Cascade.Proofs.Code.Removal

One instruction taken out of a module.

* `Site`: where an instruction stands, by places: blocks may share a number, and then an instruction
  of an earlier one is in the module although control never gets to it.
* `Module.without`: the module without the instruction at a site; `Function.block?_without`: the
  block that is found there.
* `Function.Unread`: nothing reads a register.
-/

namespace Cascade.Code

/-- The place of a function, of a block in the function and of an instruction in the block. -/
structure Site where
  function : FunctionId
  block : Nat
  index : Nat
  deriving DecidableEq, Repr

/-- Without the element at `k`, those behind it move up by one. -/
theorem getElem?_moved {α : Type} (l : List α) {k n : Nat} (h : n ≠ k) :
    (l.eraseIdx k)[if k < n then n - 1 else n]? = l[n]? := by
  rw [List.getElem?_eraseIdx]
  by_cases hlt : k < n
  · rw [if_pos hlt, if_neg (by omega), Nat.sub_add_cancel (by omega)]
  · rw [if_neg hlt, if_pos (by omega)]

def Block.without (b : Block) (k : Nat) : Block := ⟨b.id, b.label, b.code.eraseIdx k, b.term⟩

namespace Function

def without (f : Function) (n k : Nat) : Function :=
  ⟨f.id, f.name, f.returns, f.locals, f.registers, f.blocks.modify n fun b => b.without k, f.entry,
    f.index, f.span⟩

/-- No instruction and no terminator reads register `n`, whatever type it takes it to have. -/
def Unread (f : Function) (n : Nat) : Prop :=
  ∀ b ∈ f.blocks, (∀ i ∈ b.code, ∀ r ∈ i.reads, r.id ≠ n) ∧ ∀ r ∈ b.term.reads, r.id ≠ n

instance (f : Function) (n : Nat) : Decidable (f.Unread n) :=
  inferInstanceAs (Decidable (∀ b ∈ f.blocks, (∀ i ∈ b.code, ∀ r ∈ i.reads, r.id ≠ n) ∧
    ∀ r ∈ b.term.reads, r.id ≠ n))

/-- The block of a number is found as before, but for an instruction, if it is the one that stands
at the place. -/
theorem block?_without {f : Function} {id : BlockId} {b : Block} (hb : f.block? id = some b)
    (n k : Nat) :
    (f.without n k).block? id = some (if f.index.lookup id = some n then b.without k else b) := by
  unfold block? at hb ⊢
  rw [without]
  cases hi : f.index.lookup id with
  | none =>
    rw [hi] at hb
    cases hb
  | some i =>
    rw [hi] at hb
    dsimp only at hb ⊢
    rw [List.getElem?_modify, hb]
    by_cases h : n = i
    · simp [h]
    · simp [h, Ne.symm h]

end Function

namespace Module

def without (m : Module) (p : Site) : Module :=
  m.modify p.function fun f => f.without p.block p.index

def instr? (m : Module) (p : Site) : Option Instr :=
  match m.functions[p.function]? with
  | none => none
  | some f =>
    match f.blocks[p.block]? with
    | none => none
    | some b => b.code[p.index]?

theorem functions_without (m : Module) (p : Site) (g : FunctionId) :
    (m.without p).functions[g]? = m.functions[g]?.map fun f =>
      if p.function = g then f.without p.block p.index else f := by
  rw [without, modify, List.getElem?_modify]
  cases m.functions[g]? with
  | none => rfl
  | some f => split <;> simp

/-- A function without an instruction asks for the same storage and begins at the same number. -/
theorem found_without {m : Module} (p : Site) {g : FunctionId} {f : Function}
    (h : m.functions[g]? = some f) :
    ∃ f', (m.without p).functions[g]? = some f' ∧ f'.locals = f.locals ∧
      f'.registers = f.registers ∧ f'.entry = f.entry := by
  rw [functions_without, h]
  refine ⟨_, rfl, ?_⟩
  split <;> exact ⟨rfl, rfl, rfl⟩

end Module

end Cascade.Code
