import Cascade.Proofs.Code.Checked
import Cascade.Proofs.Code.Reach
import Cascade.Proofs.Machine.Moves
import Cascade.Proofs.Machine.Slots

/-!
# Cascade.Proofs.Machine.Checked

How runs of valid modules fail. Every call is in a block of a function, every field is there, and no
open block is reached, so that only limits, divisions by zero and values of wrong types are left.

There is one gap. The checks look at the register that an instruction writes and at those that a
terminator reads, and not at those that an instruction reads. Such a register may lie behind the end
of all slots.

* `Fault.Excused`: the faults that a valid module may end with.
* `Housed`, `InCode`: the invariant; `InCode.step`: one step keeps it or fails in such a way.
* `valid_run_fails`: so does every run.
-/

namespace Cascade.Machine

open Code

variable {σ : Type} [Output σ]

/-- The faults that validation does not exclude. A slot can only be missed by an instruction that
reads a register which its function does not have, and a line is only lost where the destination
refuses it. -/
inductive Fault.Excused (σ : Type) [Output σ] (m : Module) : Fault → Prop where
  | stackOverflow {depth : Nat} : Excused σ m (.stackOverflow depth)
  | divisionByZero : Excused σ m .divisionByZero
  | type {t : TypeFault} : Excused σ m (.type t)
  | slotRange {i top : Nat} : m.ReadsBeyond → Excused σ m (.slotRange i top)
  | output {o o' : σ} {v : Option Scalar} {reason : String} :
      Output.println o v = (.error reason, o') → Excused σ m (.output reason)

theorem Fault.ofArith_excused (m : Module) (e : ArithFailure) :
    Excused σ m (Fault.ofArith e) := by
  cases e with
  | divisionByZero => exact .divisionByZero
  | operandMismatch l r => exact .type

/-- A call is in a block of a function of the module, with its window below `top`. -/
structure Frame.HousedIn (m : Module) (top : Nat) (fr : Frame) (f : Function) (b : Block) :
    Prop where
  found : m.functions[fr.function]? = some f
  block : f.block? fr.block = some b
  start : fr.registers = fr.base + f.locals.length
  extent : fr.registers + f.registers ≤ top

/-- All calls of a list stand somewhere below `top`, each below the next one, and each has the
register in which it waits for the result; that of the innermost is `dest`. -/
inductive Housed (m : Module) : Nat → Option Register → List Frame → Prop where
  | nil {top : Nat} {dest : Option Register} : Housed m top dest []
  | cons {top : Nat} {dest : Option Register} {fr : Frame} {rest : List Frame} {f : Function}
      {b : Block} : fr.HousedIn m top f b → (∀ d ∈ dest, d.id < f.registers) →
      Housed m fr.base fr.dest rest → Housed m top dest (fr :: rest)

structure InCode (m : Module) (s : State σ) : Prop where
  calls : Housed m s.slots.top none s.frames
  fields : s.fields.length = m.fields.length

/-- A step goes on in a state with all calls in code, or it ends the outermost call, or it fails in
one of the ways that are left. -/
def Outcome.InCode (m : Module) : Outcome σ → Prop
  | .next s => Machine.InCode m s
  | .done _ s => s.frames = [] ∧ s.fields.length = m.fields.length
  | .fault e _ => e.Excused σ m

variable {m : Module} {limits : Limits} {c : Slots} {fr : Frame} {rest : List Frame}
variable {f : Function} {b : Block} {fields : List Scalar} {output : σ} {steps : Nat}

namespace Frame.HousedIn

theorem checked (hm : m.Checked) {top : Nat} (h : fr.HousedIn m top f b) : b.Checked m f :=
  (hm.functions f (List.mem_of_getElem? h.found)).blocks b (Function.block?_mem h.block)

theorem move {top : Nat} (h : fr.HousedIn m top f b) {k : BlockId} {b' : Block}
    (hk : f.block? k = some b') (n : Nat) :
    HousedIn m top ⟨fr.function, k, n, fr.base, fr.registers, fr.dest⟩ f b' :=
  ⟨h.found, hk, h.start, h.extent⟩

theorem read (h : fr.HousedIn m c.top f b) {r : Register} (hr : r.id < f.registers) :
    ∃ v, fr.read c r = .ok v := by
  have hlt : fr.registers + r.id < c.cells.size := by
    have hextent := h.extent
    rw [Slots.top] at hextent
    omega
  exact ⟨_, Slots.get_ok (Array.getElem?_eq_getElem hlt)⟩

theorem read? (h : fr.HousedIn m c.top f b) {r : Option Register}
    (hr : ∀ x ∈ r.toList, x.id < f.registers) : ∃ v, fr.read? c r = .ok v := by
  cases r with
  | none => exact ⟨none, rfl⟩
  | some r =>
    obtain ⟨v, hv⟩ := h.read (hr r (by simp))
    exact ⟨some v, by rw [Frame.read?, hv]⟩

theorem reads (h : fr.HousedIn m c.top f b) {i : Instr} (hi : i ∈ b.code) {r : Register}
    (hr : r ∈ i.reads) :
    (∃ v, fr.read c r = .ok v) ∨ ∃ e, fr.read c r = .error e ∧ e.Excused σ m := by
  by_cases hlt : r.id < f.registers
  · exact .inl (h.read hlt)
  · have hbeyond : m.ReadsBeyond := ⟨f, List.mem_of_getElem? h.found, b,
      (Function.block?_mem h.block), i, hi, r, hr, Nat.not_lt.mp hlt⟩
    rw [Frame.read, Slots.get]
    split
    · exact .inl ⟨_, rfl⟩
    · exact .inr ⟨_, rfl, .slotRange hbeyond⟩

end Frame.HousedIn

/-! ## Instructions -/

theorem store_inCode {s : State σ} (h : InCode m s) {i : Nat} (hi : i < s.slots.top) (v : Scalar) :
    (store s i v).InCode m := by
  obtain ⟨slots, frames, fields, output, steps⟩ := s
  have hcalls : Housed m slots.top none frames := h.calls
  rw [store, if_pos hi]
  exact ⟨by rw [Slots.put_top]; exact hcalls, h.fields⟩

/-- A function that is there is refused only for reasons that validation does not exclude. -/
theorem State.push_excused {s s' : State σ} {j : FunctionId} {g : Function} {d : Option Register}
    {e : Fault} (hj : m.functions[j]? = some g) (h : s.push m limits j d = .error (e, s')) :
    e.Excused σ m := by
  cases State.push_error h with
  | limit => exact .stackOverflow
  | unknown hnone => cases hj.symm.trans hnone
  | noZero => exact .type

omit [Output σ] in
theorem State.push_inCode (hm : m.Checked) {s s' : State σ} {j : FunctionId} {d : Option Register}
    (hs : Housed m s.slots.top d s.frames) (hfields : s.fields.length = m.fields.length)
    (h : s.push m limits j d = .ok s') : InCode m s' := by
  cases State.push_pushes h with
  | @entered g c hj _ _ hc =>
    obtain ⟨htop, -, -⟩ := clearLocals_spec hc (by rw [Slots.grow_top]; omega)
    obtain ⟨b, hb⟩ := (hm.functions g (List.mem_of_getElem? hj)).entry
    refine ⟨.cons ⟨hj, hb, rfl, ?_⟩ (fun d hd => by cases hd) hs, hfields⟩
    rw [htop, Slots.grow_top]
    exact Nat.le_of_eq (Nat.add_assoc ..)

section

variable (h : fr.HousedIn m c.top f b) (hrest : Housed m fr.base fr.dest rest)
variable (hfields : fields.length = m.fields.length)
include h hrest hfields

omit [Output σ] in
theorem advance_inCode : InCode m ⟨c, fr.advance :: rest, fields, output, steps⟩ :=
  ⟨.cons (h.move h.block (fr.next + 1)) (fun d hd => by cases hd) hrest, hfields⟩

theorem writeNext_inCode {d : Register} (hd : d.id < f.registers) (v : Scalar) :
    (writeNext ⟨c, fr.advance :: rest, fields, output, steps⟩ fr d v).InCode m := by
  refine store_inCode (advance_inCode h hrest hfields) ?_ v
  have hextent := h.extent
  dsimp only
  omega

theorem execInstr_inCode (hm : m.Checked) (limits : Limits) {i : Instr} (hi : i ∈ b.code) :
    (execInstr m limits ⟨c, fr.advance :: rest, fields, output, steps⟩ fr i).InCode m := by
  have hnext : ∀ output : σ,
      InCode m ⟨c, fr.advance :: rest, fields, output, steps⟩ := fun output =>
    advance_inCode h hrest hfields
  have hwrite : ∀ {d : Register} (v : Scalar), d.id < f.registers →
      (writeNext ⟨c, fr.advance :: rest, fields, output, steps⟩ fr d v).InCode m := fun v hd =>
    writeNext_inCode h hrest hfields hd v
  have hslot : ∀ {n : Nat}, n < f.locals.length → fr.base + n < c.cells.size := by
    intro n hn
    have hstart := h.start
    have hextent := h.extent
    rw [Slots.top] at hextent
    omega
  have hread : ∀ r ∈ i.reads, (∃ v, fr.read c r = .ok v) ∨
      ∃ e, fr.read c r = .error e ∧ e.Excused σ m := fun r hr => h.reads hi hr
  cases (h.checked hm).code i hi with
  | const hd => exact hwrite _ hd
  | @copy d r hd =>
    obtain ⟨v, hv⟩ | ⟨e, hv, he⟩ := hread r (by simp [Instr.reads])
    · simp only [execInstr, hv]
      exact hwrite v hd
    · simp only [execInstr, hv]
      exact he
  | @binary d l r op hd =>
    obtain ⟨x, hx⟩ | ⟨e, hx, he⟩ := hread l (by simp [Instr.reads])
    · obtain ⟨y, hy⟩ | ⟨e, hy, he⟩ := hread r (by simp [Instr.reads])
      · simp only [execInstr, hx, hy]
        split
        · exact Fault.ofArith_excused m _
        · exact hwrite _ hd
      · simp only [execInstr, hx, hy]
        exact he
    · simp only [execInstr, hx]
      exact he
  | @unary d r op hd =>
    obtain ⟨v, hv⟩ | ⟨e, hv, he⟩ := hread r (by simp [Instr.reads])
    · simp only [execInstr, hv]
      exact hwrite _ hd
    · simp only [execInstr, hv]
      exact he
  | @convert d r hd =>
    obtain ⟨v, hv⟩ | ⟨e, hv, he⟩ := hread r (by simp [Instr.reads])
    · simp only [execInstr, hv]
      split
      · exact .type
      · exact hwrite _ hd
    · simp only [execInstr, hv]
      exact he
  | @loadLocal d n hd hn =>
    simp only [execInstr, Slots.get_ok (Array.getElem?_eq_getElem (hslot hn))]
    exact hwrite _ hd
  | @storeLocal n r hn =>
    obtain ⟨v, hv⟩ | ⟨e, hv, he⟩ := hread r (by simp [Instr.reads])
    · simp only [execInstr, hv]
      exact store_inCode (hnext output) (hslot hn) v
    · simp only [execInstr, hv]
      exact he
  | @loadField d k hd hk =>
    have hk : k < fields.length := hfields ▸ hk
    simp only [execInstr, List.getElem?_eq_getElem hk]
    exact hwrite _ hd
  | @storeField k r hk =>
    have hk : k < fields.length := hfields ▸ hk
    obtain ⟨v, hv⟩ | ⟨e, hv, he⟩ := hread r (by simp [Instr.reads])
    · simp only [execInstr, hv, if_pos hk]
      exact ⟨(hnext output).calls, by rw [List.length_set]; exact hfields⟩
    · simp only [execInstr, hv]
      exact he
  | @call d j g hd hj hty =>
    rw [execInstr]
    split
    · exact State.push_excused hj ‹_›
    · refine State.push_inCode hm ?_ hfields ‹_›
      exact .cons (h.move h.block (fr.next + 1)) hd hrest
  | @print r =>
    have hread? : (∃ v, fr.read? c r = .ok v) ∨
        ∃ e, fr.read? c r = .error e ∧ e.Excused σ m := by
      cases r with
      | none => exact .inl ⟨none, rfl⟩
      | some r =>
        obtain ⟨v, hv⟩ | ⟨e, hv, he⟩ := hread r (by simp [Instr.reads])
        · exact .inl ⟨some v, by rw [Frame.read?, hv]⟩
        · exact .inr ⟨e, by rw [Frame.read?, hv], he⟩
    obtain ⟨v, hv⟩ | ⟨e, hv, he⟩ := hread?
    · simp only [execInstr, hv]
      split
      · exact hnext _
      · exact .output ‹_›
    · simp only [execInstr, hv]
      exact he

/-! ## Terminators -/

theorem leave_inCode (frames : List Frame) (name : String) (v : Option Scalar) :
    (leave ⟨c, frames, fields, output, steps⟩ fr rest name v).InCode m := by
  have hfree : (c.free fr.base).top = fr.base := by
    have hstart := h.start
    have hextent := h.extent
    exact Slots.free_top (by omega)
  have hrest' : Housed m (c.free fr.base).top fr.dest rest := hfree.symm ▸ hrest
  cases hrest with
  | nil => exact ⟨rfl, hfields⟩
  | @cons _ _ caller rest g b' hcaller hd hbelow =>
    have hcode : InCode m ⟨c.free fr.base, caller :: rest, fields, output, steps⟩ :=
      ⟨.cons (hfree.symm ▸ hcaller) (fun d hd => by cases hd) hbelow, hfields⟩
    cases hdest : fr.dest with
    | none =>
      simp only [leave, hdest]
      exact hcode
    | some d =>
      simp only [leave, hdest]
      cases v with
      | none => exact .type
      | some v =>
        refine store_inCode hcode ?_ v
        have hlt := hd d hdest
        have hextent := hcaller.extent
        dsimp only
        omega

theorem execTerm_inCode (hm : m.Checked) :
    (execTerm ⟨c, fr :: rest, fields, output, steps⟩ fr rest f b.term).InCode m := by
  obtain ⟨hclosed, htargets, -, hreads⟩ := h.checked hm
  have hjump : ∀ k ∈ b.term.targets,
      (jump ⟨c, fr :: rest, fields, output, steps⟩ fr rest k).InCode m := by
    intro k hk
    obtain ⟨b', hb'⟩ := htargets k hk
    exact ⟨.cons (h.move hb' 0) (fun d hd => by cases hd) hrest, hfields⟩
  rw [Block.isClosed] at hclosed
  generalize b.term = t at hclosed hreads hjump ⊢
  cases t with
  | unreachable => cases hclosed
  | jump k => exact hjump k (by simp [Terminator.targets])
  | branch r yes no =>
    obtain ⟨v, hv⟩ := h.read (hreads r (by simp [Terminator.reads]))
    simp only [execTerm, hv]
    refine hjump _ ?_
    cases v.isTrue <;> simp [Terminator.targets]
  | switch r cases otherwise =>
    obtain ⟨v, hv⟩ := h.read (hreads r (by simp [Terminator.reads]))
    simp only [execTerm, hv]
    split
    · exact .type
    · exact hjump _ (selectCase_mem _ cases otherwise)
  | ret r =>
    obtain ⟨v, hv⟩ := h.read? hreads
    simp only [execTerm, hv]
    exact leave_inCode h hrest hfields _ f.name v

end

/-! ## Runs -/

theorem InCode.step (hm : m.Checked) (limits : Limits) {s : State σ} (h : InCode m s) :
    (step m limits s).InCode m := by
  obtain ⟨c, frames, fields, output, steps⟩ := s
  obtain ⟨hcalls, hfields⟩ := h
  dsimp only at hcalls hfields
  cases hcalls with
  | nil => exact ⟨rfl, hfields⟩
  | @cons _ _ fr rest f b hfr _ hrest =>
    simp only [Machine.step, hfr.found, hfr.block]
    cases hi : b.code[fr.next]? with
    | some i => exact execInstr_inCode hfr hrest hfields hm limits (List.mem_of_getElem? hi)
    | none => exact execTerm_inCode hfr hrest hfields hm

/-- What is left of the invariant where a call from outside has ended. -/
def Ending.InCode (m : Module) : Ending σ → Prop
  | (.ok _, s) => s.frames = [] ∧ s.fields.length = m.fields.length
  | (.error e, _) => e.Excused σ m

theorem Ends.inCode (hm : m.Checked) {s : State σ} {e : Ending σ} (he : Ends m limits s e)
    (h : InCode m s) : Ending.InCode m e := by
  induction he with
  | done hstep | fault hstep =>
    have hs := h.step hm limits
    rw [hstep] at hs
    exact hs
  | next hstep _ ih =>
    have hs := h.step hm limits
    rw [hstep] at hs
    exact ih hs

theorem CallEnds.inCode {j : FunctionId} {s : State σ} {e : Ending σ} (h : CallEnds m limits j s e)
    (hm : m.Checked) {g : Function} (hj : m.functions[j]? = some g) (hframes : s.frames = [])
    (hfields : s.fields.length = m.fields.length) : Ending.InCode m e := by
  cases h with
  | refused hp => exact State.push_excused hj hp
  | entered hp he =>
    refine he.inCode hm (State.push_inCode hm ?_ hfields hp)
    rw [hframes]
    exact .nil

theorem zeroFields_length : ∀ {fs : List Code.Field} {zs : List Scalar},
    zeroFields fs = .ok zs → zs.length = fs.length := by
  intro fs
  induction fs with
  | nil => intro zs h; cases h; rfl
  | cons f fs ih =>
    intro zs h
    rw [zeroFields] at h
    split at h
    · cases h
    · split at h
      · cases h
      · cases h
        exact congrArg Nat.succ (ih ‹_›)

theorem zeroFields_error : ∀ {fs : List Code.Field} {e : Fault}, zeroFields fs = .error e →
    e.Excused σ m := by
  intro fs
  induction fs with
  | nil => intro e h; cases h
  | cons f fs ih =>
    intro e h
    rw [zeroFields] at h
    split at h
    · cases h
      exact .type
    · split at h
      · cases h
        exact ih ‹_›
      · cases h

/-- A run of a valid module, with any limits and from any state in which no call is active, fails
only by a limit, a division by zero, a value of a wrong type or a line that is refused, and else
because an instruction reads a register that its function does not have. -/
theorem valid_run_fails (hvalid : m.isValid = true) (limits : Limits) {s s' : State σ}
    (hs : s.frames = []) {fuel : Nat} {e : Fault}
    (h : run m limits fuel s = some (.error e, s')) :
    (∃ depth, e = .stackOverflow depth) ∨ e = .divisionByZero ∨ (∃ t, e = .type t) ∨
      (∃ reason, e = .output reason ∧
        ∃ (o o' : σ) (v : Option Scalar), Output.println o v = (.error reason, o')) ∨
      m.ReadsBeyond ∧ ∃ i top, e = .slotRange i top := by
  have hm := Module.checked_of_isValid hvalid
  have hexcused : e.Excused σ m := by
    cases hz : zeroFields m.fields with
    | error e' =>
      rw [run, hz] at h
      cases h
      exact zeroFields_error hz
    | ok zeros =>
      have hlen := zeroFields_length hz
      obtain ⟨init, hinit⟩ := hm.initializer
      obtain ⟨entry, hentry⟩ := hm.entry
      obtain ⟨e', s₁, -, hcall⟩ | ⟨v, s₁, hcall, hrest⟩ := run_callEnds hz h
      · exact hcall.inCode hm hinit hs hlen
      · obtain ⟨hframes, hfields⟩ := hcall.inCode hm hinit hs hlen
        exact hrest.inCode hm hentry hframes hfields
  cases hexcused with
  | stackOverflow => exact .inl ⟨_, rfl⟩
  | divisionByZero => exact .inr (.inl rfl)
  | type => exact .inr (.inr (.inl ⟨_, rfl⟩))
  | output hrefused => exact .inr (.inr (.inr (.inl ⟨_, rfl, _, _, _, hrefused⟩)))
  | slotRange hbeyond => exact .inr (.inr (.inr (.inr ⟨hbeyond, _, _, rfl⟩)))

/-- An entry that has one register and prints the next one. -/
def stray : Module :=
  ⟨"stray", [], [
    .of 0 "main" .void [] 1 [⟨0, none, [.print (some ⟨1, .int⟩)], .ret none⟩] 0 .zero,
    .of 1 "init" .void [] 0 [⟨0, none, [], .ret none⟩] 0 .zero], 1, 0⟩

/-- A module can be valid, with fields and local variables of numeric types only, and its run can
still end at a register that is not there. -/
theorem valid_run_slotRange : ∃ (m : Module) (fuel : Nat) (s : State Lines), m.isValid = true ∧
    (∀ f ∈ m.fields, f.ty.isNumeric = true) ∧
    (∀ f ∈ m.functions, ∀ l ∈ f.locals, l.ty.isNumeric = true) ∧
    run m .default fuel .start = some (.error (.slotRange 1 1), s) :=
  ⟨stray, 3, ⟨.empty, [], [], #[], 2⟩, by decide, by decide, by decide, rfl⟩

theorem stray_run_fails : (∃ depth, Fault.slotRange 1 1 = .stackOverflow depth) ∨
    Fault.slotRange 1 1 = .divisionByZero ∨ (∃ t, Fault.slotRange 1 1 = .type t) ∨
      (∃ reason, Fault.slotRange 1 1 = .output reason ∧
        ∃ (o o' : Lines) (v : Option Scalar), Output.println o v = (.error reason, o')) ∨
      stray.ReadsBeyond ∧ ∃ i top, Fault.slotRange 1 1 = .slotRange i top :=
  valid_run_fails (by decide) .default (show State.start.frames = [] from rfl)
    (show run stray .default 3 .start = some (.error (.slotRange 1 1), _) from rfl)

end Cascade.Machine
