import Cascade.Proofs.Machine.Steps

/-!
# Cascade.Proofs.Machine.Moves

All that one step can do, for any module and any state.

* `Frame.Writes`: a call writes at most one slot in use, counted from the start of its window or of
  its registers.
* `Moves`: a step goes on in the same call, makes a call active, leaves one, or fails.
* `step_moves`, `step_cases`, `next_moves`: every step is one of these.
* `Pushes`: what making a call active leaves behind, whether it succeeds or not.
-/

namespace Cascade.Machine

open Code

variable {σ : Type}

/-- What a call makes of the slots with an instruction of its own. -/
inductive Frame.Writes (fr : Frame) (s : Slots) : Slots → Prop where
  | nothing : fr.Writes s s
  | assigned {i : LocalIndex} {v : Scalar} : fr.base + i < s.top →
      fr.Writes s (s.put (fr.base + i) v)
  | register {r : Register} {v : Scalar} : fr.registers + r.id < s.top →
      fr.Writes s (s.put (fr.registers + r.id) v)

/-- What the end of a call makes of the slots: the result goes to the register that waits for it
in the call below. -/
inductive Frame.Returns (fr : Frame) : List Frame → Slots → Slots → Prop where
  | nothing {caller : Frame} {rest : List Frame} {s : Slots} : fr.dest = none →
      fr.Returns (caller :: rest) s s
  | register {caller : Frame} {rest : List Frame} {s : Slots} {d : Register} {v : Scalar} :
      fr.dest = some d → caller.registers + d.id < s.top →
      fr.Returns (caller :: rest) s (s.put (caller.registers + d.id) v)

/-- What a step does in the state `s`, whose innermost call `fr` is in the block `b` and has the
calls `rest` below it. -/
inductive Moves (m : Module) (limits : Limits) (s : State σ) (fr : Frame) (rest : List Frame)
    (b : Block) : Outcome σ → Prop where
  | instr {i : Instr} {c : Slots} {fields : List Scalar} {output : σ} :
      b.code[fr.next]? = some i → (∀ d g, i ≠ .call d g) → fr.Writes s.slots c →
      Moves m limits s fr rest b (.next ⟨c, fr.advance :: rest, fields, output, s.steps + 1⟩)
  | call {d : Option Register} {g : FunctionId} {s' : State σ} :
      b.code[fr.next]? = some (.call d g) →
      State.push m limits ⟨s.slots, fr.advance :: rest, s.fields, s.output, s.steps + 1⟩ g d =
        .ok s' →
      Moves m limits s fr rest b (.next s')
  | refused {d : Option Register} {g : FunctionId} {e : Fault} {s' : State σ} :
      b.code[fr.next]? = some (.call d g) →
      State.push m limits ⟨s.slots, fr.advance :: rest, s.fields, s.output, s.steps + 1⟩ g d =
        .error (e, s') →
      Moves m limits s fr rest b (.fault e s')
  | jump {l : BlockId} : b.code[fr.next]? = none → l ∈ b.term.targets →
      Moves m limits s fr rest b (.next ⟨s.slots, ⟨fr.function, l, 0, fr.base, fr.registers,
        fr.dest⟩ :: rest, s.fields, s.output, s.steps + 1⟩)
  | done {r : Option Register} {v : Option Scalar} : b.code[fr.next]? = none → b.term = .ret r →
      rest = [] →
      Moves m limits s fr rest b (.done v ⟨s.slots.free fr.base, rest, s.fields, s.output,
        s.steps + 1⟩)
  | returned {r : Option Register} {c : Slots} : b.code[fr.next]? = none → b.term = .ret r →
      fr.Returns rest (s.slots.free fr.base) c →
      Moves m limits s fr rest b (.next ⟨c, rest, s.fields, s.output, s.steps + 1⟩)
  /-- The call has ended, but its result is missing or cannot be stored. -/
  | lost {r : Option Register} {e : Fault} : b.code[fr.next]? = none → b.term = .ret r →
      Moves m limits s fr rest b (.fault e ⟨s.slots.free fr.base, rest, s.fields, s.output,
        s.steps + 1⟩)
  /-- Nothing is done, but a line may have been refused. -/
  | stuck {e : Fault} {fr' : Frame} {output : σ} : fr' = fr ∨ fr' = fr.advance →
      Moves m limits s fr rest b (.fault e ⟨s.slots, fr' :: rest, s.fields, output,
        s.steps + 1⟩)

variable [Output σ] {m : Module} {limits : Limits}

/-! ## Instructions -/

/-- What an instruction other than a call does. -/
inductive OwnEffect (s : State σ) (fr : Frame) : Outcome σ → Prop where
  | next {c : Slots} {fields : List Scalar} {output : σ} : fr.Writes s.slots c →
      OwnEffect s fr (.next ⟨c, s.frames, fields, output, s.steps⟩)
  | fault {e : Fault} {output : σ} :
      OwnEffect s fr (.fault e ⟨s.slots, s.frames, s.fields, output, s.steps⟩)

omit [Output σ] in
theorem writeNext_ownEffect (s : State σ) (fr : Frame) (r : Register) (v : Scalar) :
    OwnEffect s fr (writeNext s fr r v) := by
  rw [writeNext, store]
  split
  · exact .next (.register ‹_›)
  · exact .fault

omit [Output σ] in
theorem store_ownEffect (s : State σ) (fr : Frame) (i : LocalIndex) (v : Scalar) :
    OwnEffect s fr (store s (fr.base + i) v) := by
  rw [store]
  split
  · exact .next (.assigned ‹_›)
  · exact .fault

theorem execInstr_ownEffect (m : Module) (limits : Limits) (s : State σ) (fr : Frame) {i : Instr}
    (h : ∀ d g, i ≠ .call d g) : OwnEffect s fr (execInstr m limits s fr i) := by
  cases i with
  | call d g => exact absurd rfl (h d g)
  | const d v => exact writeNext_ownEffect s fr d v
  | storeLocal i r =>
    rw [execInstr]
    split
    · exact .fault
    · exact store_ownEffect s fr i _
  | storeField f r =>
    rw [execInstr]
    split
    · exact .fault
    · split
      · exact .next .nothing
      · exact .fault
  | print r =>
    rw [execInstr]
    split
    · exact .fault
    · split
      · exact .next .nothing
      · exact .fault
  | copy d r | unary d _ r | loadLocal d r | loadField d r =>
    rw [execInstr]
    split
    · exact .fault
    · exact writeNext_ownEffect s fr d _
  | convert d r =>
    rw [execInstr]
    repeat' split
    all_goals first | exact .fault | exact writeNext_ownEffect s fr d _
  | binary d op l r =>
    rw [execInstr]
    repeat' split
    all_goals first | exact .fault | exact writeNext_ownEffect s fr d _

/-! ## Terminators -/

variable {s : State σ} {fr : Frame} {rest : List Frame} {b : Block}

omit [Output σ] in
theorem execTerm_moves (f : Function) (hn : b.code[fr.next]? = none) :
    Moves m limits s fr rest b
      (execTerm ⟨s.slots, fr :: rest, s.fields, s.output, s.steps + 1⟩ fr rest f b.term) := by
  cases ht : b.term with
  | unreachable => exact .stuck (.inl rfl)
  | jump l => exact .jump hn (by simp [ht, Terminator.targets])
  | branch c yes no =>
    rw [execTerm]
    split
    · exact .stuck (.inl rfl)
    · refine .jump hn ?_
      rw [ht, Terminator.targets]
      split <;> simp
  | switch r cases otherwise =>
    rw [execTerm]
    split
    · exact .stuck (.inl rfl)
    · split
      · exact .stuck (.inl rfl)
      · refine .jump hn ?_
        rw [ht, Terminator.targets]
        exact selectCase_mem _ cases otherwise
  | ret r =>
    rw [execTerm]
    split
    · exact .stuck (.inl rfl)
    · unfold leave
      split
      · exact .done hn ht rfl
      · exact .returned hn ht (.nothing ‹_›)
      · split
        · exact .lost hn ht
        · rw [writeNext, store]
          split
          · exact .returned hn ht (.register ‹_› ‹_›)
          · exact .lost hn ht

/-! ## New calls -/

/-- What making a call active leaves behind: the same state or one with a window more, and where
it succeeds, the call with that window. -/
inductive Pushes (m : Module) (limits : Limits) (s : State σ) (g : FunctionId)
    (dest : Option Register) : Except (Fault × State σ) (State σ) → Prop where
  | refused {e : Fault} : Pushes m limits s g dest (.error (e, s))
  | half {f : Function} {c : Slots} {e : Fault} : m.functions[g]? = some f →
      s.slots.top + (f.locals.length + f.registers) ≤ limits.maxRegisters →
      clearLocals (s.slots.grow (f.locals.length + f.registers)) s.slots.top f.locals =
        (c, some e) →
      Pushes m limits s g dest (.error (e, ⟨c, s.frames, s.fields, s.output, s.steps⟩))
  | entered {f : Function} {c : Slots} : m.functions[g]? = some f →
      s.frames.length < limits.maxCallDepth →
      s.slots.top + (f.locals.length + f.registers) ≤ limits.maxRegisters →
      clearLocals (s.slots.grow (f.locals.length + f.registers)) s.slots.top f.locals =
        (c, none) →
      Pushes m limits s g dest (.ok ⟨c, ⟨g, f.entry, 0, s.slots.top,
        s.slots.top + f.locals.length, dest⟩ :: s.frames, s.fields, s.output, s.steps⟩)

omit [Output σ] in
theorem State.push_pushes {s : State σ} {g : FunctionId} {dest : Option Register}
    {o : Except (Fault × State σ) (State σ)} (h : s.push m limits g dest = o) :
    Pushes m limits s g dest o := by
  subst h
  obtain ⟨slots, frames, fields, output, steps⟩ := s
  unfold State.push
  dsimp only
  split
  · exact .refused
  · rename_i hdepth
    split
    · exact .refused
    · rename_i f hf
      split
      · exact .refused
      · rename_i hroom
        simp only [Slots.hasRoom, Bool.not_eq_true', decide_eq_false_iff_not, Decidable.not_not]
          at hroom
        split
        · exact .half hf hroom ‹_›
        · exact .entered hf (Nat.not_lt.mp hdepth) hroom ‹_›

/-! ## Steps -/

theorem step_moves {f : Function} (hs : s.frames = fr :: rest)
    (hf : m.functions[fr.function]? = some f) (hb : f.block? fr.block = some b) :
    Moves m limits s fr rest b (step m limits s) := by
  rw [step, hs]
  dsimp only
  rw [hf]
  dsimp only
  rw [hb]
  dsimp only
  cases hi : b.code[fr.next]? with
  | none => exact execTerm_moves f hi
  | some i =>
    dsimp only
    by_cases hc : ∃ d g, i = .call d g
    · obtain ⟨d, g, rfl⟩ := hc
      rw [execInstr]
      split
      · exact .refused hi ‹_›
      · exact .call hi ‹_›
    · have hk := execInstr_ownEffect m limits
        ⟨s.slots, fr.advance :: rest, s.fields, s.output, s.steps + 1⟩ fr
        (fun d g h => hc ⟨d, g, h⟩)
      generalize execInstr m limits (_ : State σ) fr i = o at hk
      cases hk with
      | next hw => exact .instr hi (fun d g h => hc ⟨d, g, h⟩) hw
      | fault => exact .stuck (.inr rfl)

/-- A step of an active call fails at once, where the call is in no block of a function, or is one
of the moves. -/
theorem step_cases (m : Module) (limits : Limits) (hs : s.frames = fr :: rest) :
    (∃ e, step m limits s = .fault e s) ∨
      ∃ f b, m.functions[fr.function]? = some f ∧ f.block? fr.block = some b ∧
        Moves m limits s fr rest b (step m limits s) := by
  cases hf : m.functions[fr.function]? with
  | none => exact .inl ⟨_, by rw [step, hs]; dsimp only; rw [hf]⟩
  | some f =>
    cases hb : f.block? fr.block with
    | none => exact .inl ⟨_, by rw [step, hs]; dsimp only; rw [hf]; dsimp only; rw [hb]⟩
    | some b => exact .inr ⟨f, b, rfl, hb, step_moves hs hf hb⟩

theorem frames_of_next {s' : State σ} (h : step m limits s = .next s') :
    ∃ fr rest, s.frames = fr :: rest := by
  cases hs : s.frames with
  | nil =>
    rw [step, hs] at h
    cases h
  | cons fr rest => exact ⟨fr, rest, rfl⟩

theorem next_moves {s' : State σ} (hs : s.frames = fr :: rest) (h : step m limits s = .next s') :
    ∃ f b, m.functions[fr.function]? = some f ∧ f.block? fr.block = some b ∧
      Moves m limits s fr rest b (.next s') := by
  obtain ⟨e, he⟩ | ⟨f, b, hf, hb, hm⟩ := step_cases m limits hs
  · cases he.symm.trans h
  · exact ⟨f, b, hf, hb, h ▸ hm⟩

/-! ## Calls from outside -/

theorem ends_frames {s : State σ} {e : Ending σ} (h : Ends m limits s e) : e.2.frames = [] := by
  induction h with
  | @done s s' v hs =>
    cases hf : s.frames with
    | nil =>
      rw [step, hf] at hs
      cases hs
      exact hf
    | cons fr rest =>
      obtain ⟨e, he⟩ | ⟨f, b, -, -, hm⟩ := step_cases m limits hf
      · rw [he] at hs
        cases hs
      rw [hs] at hm
      cases hm with
      | done _ _ hnil => exact hnil
  | fault _ => exact unwind_frames _
  | next _ _ ih => exact ih

theorem callEnds_frames {f : FunctionId} {s : State σ} {e : Ending σ} (h : CallEnds m limits f s e)
    (hs : s.frames = []) : e.2.frames = [] := by
  cases h with
  | @refused e s' hp =>
    cases State.push_pushes hp <;> exact hs
  | entered _ he => exact ends_frames he

end Cascade.Machine
