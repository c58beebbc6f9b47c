import Cascade.Proofs.Code.Reach
import Cascade.Proofs.Codegen.Grows
import Cascade.Proofs.Machine.Slots
import Cascade.Proofs.Simulation.Follows

/-!
# Cascade.Proofs.Simulation.Activation

Where the innermost call stands while its function is still under construction in the mind of the
reader: at the end of the current block of a builder that grows into the function.

* `Activation`: what stays the same during a call; `Window`: its slots; `At`: a place in a block.
* `Stands`: the call stands at the end of what a builder has made so far.
* `Stands.write`, `Stands.goes`, `Stands.returns`: one step, for each kind of operation that the
  builder goes on with.
-/

namespace Cascade.Simulation

open Code Machine
open Codegen (Builder)
open Typed (Answer World Memory)

/-- An active call with what does not change as long as it is active. -/
structure Activation where
  id : FunctionId
  /-- The function with all its blocks. -/
  code : Function
  /-- The slots of the calls below. -/
  below : Slots
  dest : Option Register
  rest : List Frame

namespace Activation

def base (A : Activation) : Nat := A.below.top

def registers (A : Activation) : Nat := A.base + A.code.locals.length

def frame (A : Activation) (k n : Nat) : Frame := ⟨A.id, k, n, A.base, A.registers, A.dest⟩

/-- The state in which the call is at instruction `n` of block `k`. -/
def state (A : Activation) (k n : Nat) (c : Slots) (w : World) (steps : Nat) : State Lines :=
  ⟨c, A.frame k n :: A.rest, w.fields, w.output, steps⟩

def builder (A : Activation) : Builder :=
  ⟨A.code.locals, A.code.blocks, A.code.entry, A.code.registers⟩

/-- The function is in the module, but for its dead blocks. -/
structure Of (A : Activation) (m : Module) : Prop where
  found : m.functions[A.id]? = some A.code.prune
  numbered : ∀ {k : Nat} {b : Block}, A.code.blocks[k]? = some b → b.id = k
  coherent : A.code.Coherent

end Activation

/-- The slots, where the call has its window on top and some values in its first local variables. -/
structure Window (A : Activation) (c : Slots) (values : List Scalar) : Prop where
  top : c.top = A.registers + A.code.registers
  below : ∀ i, i < A.base → c.cells[i]? = A.below.cells[i]?
  locals : ∀ i v, values[i]? = some v → c.cells[A.base + i]? = some v
  named : values.length ≤ A.code.locals.length

/-- The call is at instruction `n` of block `k`, and its memory is `μ`. -/
structure At (A : Activation) (k n : Nat) (s : State Lines) (μ : Memory) : Prop where
  state : s = A.state k n s.slots μ.world s.steps
  reach : A.code.Leads A.code.entry k
  window : Window A s.slots μ.locals

/-- The call is behind what a builder has made so far. -/
def Stands (A : Activation) (b : Builder) (s : State Lines) (μ : Memory) : Prop :=
  ∃ blk, b.blocks[b.current]? = some blk ∧ At A b.current blk.code.length s μ

def Holds (A : Activation) (s : State Lines) (j : Nat) (v : Scalar) : Prop :=
  s.slots.cells[A.registers + j]? = some v

/-- The first registers of the call hold what they held. -/
def Kept (A : Activation) (count : Nat) (s s' : State Lines) : Prop :=
  ∀ j v, j < count → Holds A s j v → Holds A s' j v

/-- Go on in the calls below with the result of a call. -/
def resume (s : State Lines) (dest : Option Register) (name : String) (v : Option Scalar) :
    Outcome Lines :=
  match s.frames, dest with
  | [], _ => .done v s
  | _ :: _, none => .next s
  | caller :: _, some d =>
    match v with
    | none => .fault (.type (.noResult name)) s
    | some v => writeNext s caller d v

/-- In the next step a call ends with a result. The slots and calls below are as they were. -/
def Returns (m : Module) (limits : Limits) (below : Slots) (rest : List Frame)
    (dest : Option Register) (r : Option Scalar × World) (s : State Lines) : Prop :=
  ∃ steps name, step m limits s = resume ⟨below, rest, r.2.fields, r.2.output, steps⟩ dest name r.1

variable {A : Activation} {m : Module} {limits : Limits} {b : Builder} {s : State Lines}
    {μ : Memory}

theorem Kept.trans {count count' : Nat} {s' s'' : State Lines} (h : Kept A count s s')
    (hle : count ≤ count') (h' : Kept A count' s' s'') : Kept A count s s'' :=
  fun j v hj hv => h' j v (Nat.lt_of_lt_of_le hj hle) (h j v hj hv)

theorem Kept.of_slots {s' : State Lines} (h : s'.slots = s.slots) (count : Nat) :
    Kept A count s s' := by
  intro j v _ hv
  unfold Holds
  rw [h]
  exact hv

theorem Holds.read {j : Register} {v : Scalar} (h : Holds A s j.id v) (k n : Nat) :
    (A.frame k n).read s.slots j = .ok v :=
  Slots.get_ok h

/-! ## Slots of a call -/

namespace Window

variable {c : Slots} {values : List Scalar}

theorem putRegister (h : Window A c values) {j : Nat} (v : Scalar) :
    Window A (c.put (A.registers + j) v) values where
  top := by rw [Slots.put_top, h.top]
  below := fun i hi => by
    rw [Slots.put_ne (by unfold Activation.registers; omega), h.below i hi]
  locals := fun i w hi => by
    have hlt := (List.getElem?_eq_some_iff.mp hi).1
    have hnamed := h.named
    rw [Slots.put_ne (by unfold Activation.registers; omega), h.locals i w hi]
  named := h.named

/-- Local variables behind those of the memory may be written as well. -/
theorem putLocal (h : Window A c values) {i : Nat} (hi : i < A.code.locals.length) (v : Scalar) :
    Window A (c.put (A.base + i) v) (values.set i v) where
  top := by rw [Slots.put_top, h.top]
  below := fun j hj => by rw [Slots.put_ne (by omega), h.below j hj]
  locals := fun j w hj => by
    rw [List.getElem?_set] at hj
    by_cases he : i = j
    · subst he
      rw [if_pos rfl] at hj
      split at hj
      · cases hj
        exact Slots.put_self (by rw [h.top]; unfold Activation.registers; omega) v
      · cases hj
    · rw [if_neg he] at hj
      rw [Slots.put_ne (by omega), h.locals j w hj]
  named := by rw [List.length_set]; exact h.named

end Window

/-! ## Steps of a call -/

theorem At.block? (hA : A.Of m) {k n : Nat} (h : At A k n s μ) :
    A.code.prune.block? k = A.code.blocks[k]? :=
  (hA.coherent.block?_prune h.reach).trans (hA.coherent.block?_place hA.numbered k)

theorem At.instr (hA : A.Of m) {k n : Nat} (h : At A k n s μ) {blk : Block} {i : Instr}
    (hblk : A.code.blocks[k]? = some blk) (hi : blk.code[n]? = some i) :
    step m limits s = execInstr m limits (A.state k (n + 1) s.slots μ.world (s.steps + 1))
      (A.frame k n) i := by
  have hb := (h.block? hA).trans hblk
  rw [h.state]
  simp only [step, Activation.state, Activation.frame, hA.found, hb, hi, Frame.advance]

theorem At.term (hA : A.Of m) {k n : Nat} (h : At A k n s μ) {blk : Block}
    (hblk : A.code.blocks[k]? = some blk) (hn : blk.code[n]? = none) :
    step m limits s = execTerm (A.state k n s.slots μ.world (s.steps + 1)) (A.frame k n) A.rest
      A.code.prune blk.term := by
  have hb := (h.block? hA).trans hblk
  rw [h.state]
  simp only [step, Activation.state, Activation.frame, hA.found, hb, hn]

theorem At.leads (hA : A.Of m) {k n l : Nat} (h : At A k n s μ) {blk : Block}
    (hblk : A.code.blocks[k]? = some blk) (hl : l ∈ blk.term.targets) :
    A.code.Leads A.code.entry l := by
  refine h.reach.step ?_
  rw [Function.successors, hA.coherent.block?_place hA.numbered, hblk]
  exact hl

theorem At.enter {k : Nat} (h : At A k 0 s μ) {blk : Block} (hblk : b.blocks[k]? = some blk)
    (hempty : blk.code = []) : Stands A (b.goto k) s μ := by
  refine ⟨blk, hblk, ?_⟩
  rw [hempty]
  exact h

namespace Stands

theorem emit (limits : Limits) (hA : A.Of m) (h : Stands A b s μ) {i : Instr}
    (hb : (b.emit i).Extends A.builder) :
    ∃ n, step m limits s = execInstr m limits
        (A.state b.current (n + 1) s.slots μ.world (s.steps + 1)) (A.frame b.current n) i ∧
      ∀ c (μ' : Memory) steps, Window A c μ'.locals →
        Stands A (b.emit i) (A.state b.current (n + 1) c μ'.world steps) μ' := by
  obtain ⟨blk, hblk, hat⟩ := h
  have hemit : (b.emit i).blocks[b.current]? = some (blk.emit i) := by
    simp [Builder.emit, hblk]
  obtain ⟨blk', more, hblk', hcode⟩ := hb.code hemit
  have hi : blk'.code[blk.code.length]? = some i := by
    rw [hcode]
    simp [Block.emit]
  refine ⟨blk.code.length, hat.instr hA hblk' hi, fun c μ' steps hw => ?_⟩
  refine ⟨blk.emit i, hemit, ?_⟩
  rw [show (blk.emit i).code.length = blk.code.length + 1 by simp [Block.emit]]
  exact ⟨rfl, hat.reach, hw⟩

theorem write (limits : Limits) (hA : A.Of m) (h : Stands A b s μ) {ty : Ty} {i : Instr}
    {v : Scalar} (hb : ((b.newRegister ty).2.emit i).Extends A.builder)
    (hexec : ∀ k n, execInstr m limits (A.state k (n + 1) s.slots μ.world (s.steps + 1))
      (A.frame k n) i = writeNext (A.state k (n + 1) s.slots μ.world (s.steps + 1))
        (A.frame k n) ⟨b.registers, ty⟩ v) :
    ∃ s', step m limits s = .next s' ∧ Stands A ((b.newRegister ty).2.emit i) s' μ ∧
      Kept A b.registers s s' ∧ Holds A s' b.registers v := by
  have h' : Stands A (b.newRegister ty).2 s μ := h
  obtain ⟨n, hstep, hnext⟩ := h'.emit limits hA hb
  obtain ⟨_, _, hat⟩ := h
  have hlt : b.registers < A.code.registers := hb.registers
  have htop : A.registers + b.registers < s.slots.top := by
    rw [hat.window.top]
    exact Nat.add_lt_add_left hlt _
  refine ⟨A.state b.current (n + 1) (s.slots.put (A.registers + b.registers) v) μ.world
    (s.steps + 1), ?_, hnext _ μ _ (hat.window.putRegister v), ?_, Slots.put_self htop v⟩
  · rw [hstep]
    refine (hexec _ n).trans ?_
    exact if_pos htop
  · intro j w hj hw
    exact (Slots.put_ne (Nat.ne_of_gt (Nat.add_lt_add_left hj _)) v).trans hw

theorem close (limits : Limits) (hA : A.Of m) (h : Stands A b s μ) {t : Terminator}
    (ht : t.isClosed = true) (hb : (b.close t).Extends A.builder) :
    ∃ n, step m limits s = execTerm (A.state b.current n s.slots μ.world (s.steps + 1))
        (A.frame b.current n) A.rest A.code.prune t ∧
      ∀ l ∈ t.targets, A.code.Leads A.code.entry l := by
  obtain ⟨blk, hblk, hat⟩ := h
  have hclose : (b.close t).blocks[b.current]? = some (blk.close t) := by
    simp [Builder.close, hblk]
  have hblk' : A.code.blocks[b.current]? = some (blk.close t) := hb.closed hclose ht
  have hn : (blk.close t).code[blk.code.length]? = none := by simp [Block.close]
  exact ⟨blk.code.length, hat.term hA hblk' hn, fun l hl => hat.leads hA hblk' hl⟩

theorem goes (limits : Limits) (hA : A.Of m) (h : Stands A b s μ) {t : Terminator}
    (ht : t.isClosed = true) (hb : (b.close t).Extends A.builder) {l : Nat} (hl : l ∈ t.targets)
    (hexec : ∀ k n, execTerm (A.state k n s.slots μ.world (s.steps + 1)) (A.frame k n) A.rest
      A.code.prune t = jump (A.state k n s.slots μ.world (s.steps + 1)) (A.frame k n) A.rest l) :
    ∃ s', step m limits s = .next s' ∧ At A l 0 s' μ ∧ s'.slots = s.slots := by
  obtain ⟨n, hstep, hleads⟩ := h.close limits hA ht hb
  obtain ⟨_, _, hat⟩ := h
  refine ⟨A.state l 0 s.slots μ.world (s.steps + 1), ?_, ⟨rfl, hleads l hl, hat.window⟩, rfl⟩
  rw [hstep, hexec]
  rfl

theorem leave_eq (s : State Lines) (fr : Frame) (rest : List Frame) (name : String)
    (v : Option Scalar) : leave s fr rest name v =
      resume ⟨s.slots.free fr.base, rest, s.fields, s.output, s.steps⟩ fr.dest name v := by
  unfold leave resume
  cases rest with
  | nil => rfl
  | cons caller rest =>
    cases fr.dest with
    | none => rfl
    | some d => cases v <;> rfl

theorem returns (hA : A.Of m) (h : Stands A b s μ) {value : Option Register}
    (hb : (b.close (.ret value)).Extends A.builder) {v : Option Scalar}
    (hread : ∀ k n, (A.frame k n).read? s.slots value = .ok v) :
    Returns m limits A.below A.rest A.dest (v, μ.world) s := by
  obtain ⟨n, hstep, -⟩ := h.close limits hA rfl hb
  obtain ⟨_, _, hat⟩ := h
  have hfree : s.slots.free A.base = A.below := by
    refine Slots.free_eq ?_ hat.window.below
    rw [hat.window.top]
    unfold Activation.registers Activation.base
    omega
  refine ⟨s.steps + 1, A.code.prune.name, ?_⟩
  rw [hstep]
  simp only [execTerm, Activation.state, hread, leave_eq]
  simp only [Activation.frame, hfree]

end Stands

end Cascade.Simulation
