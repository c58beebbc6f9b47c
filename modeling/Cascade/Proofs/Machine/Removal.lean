import Cascade.Proofs.Code.Removal
import Cascade.Proofs.Machine.Hidden

/-!
# Cascade.Proofs.Machine.Removal

A run does not miss an instruction that has no effect and whose register nothing reads.

The two runs have the same calls active, but a call that is behind the instruction counts one
instruction less in its block without it. Their slots are the same except for that register in the
windows of the calls of its function.

* `trail`, `runTrail`: the states from which a run makes its steps.
* `Spared`: the states of the two runs; `step_spared`: a step of both; `step_removed`: a step of
  the run that executes the instruction, while the other run waits.
* `removal_unseen`: the runs end alike, one of them sooner by as many steps as it has been spared.
-/

namespace Cascade

open Code

namespace Machine

variable {σ : Type} [Output σ]

/-! ## Places in the code -/

def Frame.within (fr : Frame) (m : Module) (p : Site) : Bool :=
  fr.function == p.function &&
    match m.functions[fr.function]? with
    | some f => f.index.lookup fr.block == some p.block
    | none => false

/-- The next step executes the instruction at a site. -/
def executes (m : Module) (p : Site) (s : State σ) : Bool :=
  match s.frames with
  | [] => false
  | fr :: _ => fr.within m p && fr.next == p.index

/-- Where a call is in the code without the instruction at a site. -/
def Frame.without (m : Module) (p : Site) (fr : Frame) : Frame :=
  ⟨fr.function, fr.block, if fr.within m p ∧ p.index < fr.next then fr.next - 1 else fr.next,
    fr.base, fr.registers, fr.dest⟩

/-! ## Trails -/

/-- The states from which steps are made, one after another. -/
def trail (m : Module) (limits : Limits) : Nat → State σ → List (State σ)
  | 0, _ => []
  | fuel + 1, s =>
    match step m limits s with
    | .next s' => s :: trail m limits fuel s'
    | .done _ _ | .fault _ _ => [s]

def callTrail (m : Module) (limits : Limits) (fuel : Nat) (f : FunctionId) (s : State σ) :
    List (State σ) :=
  match s.push m limits f none with
  | .error _ => []
  | .ok s => trail m limits fuel s

/-- The states from which a run makes its steps: those of the initializer, and if that returns,
those of the entry. -/
def runTrail (m : Module) (limits : Limits) (fuel : Nat) (s : State σ) : List (State σ) :=
  match zeroFields m.fields with
  | .error _ => []
  | .ok zeros =>
    let s : State σ := ⟨s.slots, s.frames, zeros, s.output, s.steps⟩
    callTrail m limits fuel m.initializer s ++
      match call m limits fuel m.initializer s with
      | some (.ok _, s) => callTrail m limits fuel m.entry s
      | some (.error _, _) | none => []

def Outcome.failed : Outcome σ → Bool
  | .next _ | .done _ _ => false
  | .fault _ _ => true

/-- The instruction at a site does not fail where it is executed. -/
def Faultless (m : Module) (limits : Limits) (p : Site) (states : List (State σ)) : Prop :=
  ∀ s ∈ states, executes m p s = true → (step m limits s).failed = false

instance (m : Module) (limits : Limits) (p : Site) (states : List (State σ)) :
    Decidable (Faultless m limits p states) :=
  inferInstanceAs (Decidable (∀ s ∈ states, executes m p s = true →
    (step m limits s).failed = false))

/-! ## The two runs -/

/-- The same was stored in fields and printed, in so many steps less. -/
structure Fewer (n : Nat) (s s' : State σ) : Prop where
  fields : s'.fields = s.fields
  output : s'.output = s.output
  steps : s.steps = s'.steps + n

/-- A state of a run that has executed the instruction at a site `n` times, and that of the run
without it. Register `d` is the one that the instruction writes. -/
structure Spared (m : Module) (p : Site) (d n : Nat) (s s' : State σ) : Prop
    extends Fewer n s s' where
  slots : s.slots.SameBut (Hidden p.function d s.frames) s'.slots
  frames : s'.frames = s.frames.map (Frame.without m p)

inductive Outcome.Spared (m : Module) (p : Site) (d n : Nat) : Outcome σ → Outcome σ → Prop where
  | next {s s' : State σ} : Machine.Spared m p d n s s' → Spared m p d n (.next s) (.next s')
  | done {v : Option Scalar} {s s' : State σ} : Machine.Spared m p d n s s' →
      Spared m p d n (.done v s) (.done v s')
  | fault {e : Fault} {s s' : State σ} : Fewer n s s' → Spared m p d n (.fault e s) (.fault e s')

/-- In a module that passes the checks, register `d` of the function that a site is in is there, and
nothing reads it. -/
structure Unused (m : Module) (p : Site) (d : Nat) : Prop where
  checked : m.Checked
  room : ∀ f, m.functions[p.function]? = some f → d < f.registers
  unread : ∀ f, m.functions[p.function]? = some f → f.Unread d

variable {m : Module} {limits : Limits} {p : Site} {d n top : Nat} {s s' : State σ}
variable {fr : Frame} {rest : List Frame} {f : Function} {b : Block}

/-! ### The code that both runs find -/

theorem Frame.within_iff (hf : m.functions[fr.function]? = some f) :
    fr.within m p = true ↔ fr.function = p.function ∧ f.index.lookup fr.block = some p.block := by
  rw [within, hf, Bool.and_eq_true, beq_iff_eq, beq_iff_eq]

/-- A call finds the same code from where it is on, unless it is at the site. -/
theorem Frame.HousedIn.without (h : fr.HousedIn m top f b) :
    ∃ f' b', (m.without p).functions[fr.function]? = some f' ∧ f'.name = f.name ∧
      f'.block? fr.block = some b' ∧ b'.term = b.term ∧
      (¬(fr.within m p = true ∧ fr.next = p.index) →
        b'.code[(fr.without m p).next]? = b.code[fr.next]?) := by
  have hwithin := Frame.within_iff (p := p) h.found
  rw [Module.functions_without, h.found]
  by_cases hj : p.function = fr.function
  · refine ⟨_, _, congrArg some (if_pos hj), rfl, Function.block?_without h.block _ _, ?_, ?_⟩
    · split <;> rfl
    intro hnot
    by_cases hp : f.index.lookup fr.block = some p.block
    · have hin : fr.within m p = true := hwithin.mpr ⟨hj.symm, hp⟩
      rw [if_pos hp]
      simp only [Frame.without, hin, true_and]
      exact getElem?_moved b.code fun hk => hnot ⟨hin, hk⟩
    · have hout : ¬fr.within m p = true := fun hin => hp (hwithin.mp hin).2
      rw [if_neg hp]
      simp [Frame.without, hout]
  · have hout : ¬fr.within m p = true := fun hin => hj (hwithin.mp hin).1.symm
    refine ⟨_, b, congrArg some (if_neg hj), rfl, h.block, rfl, fun _ => ?_⟩
    simp [Frame.without, hout]

theorem Frame.without_start (g : FunctionId) (k : BlockId) (base registers : Nat)
    (dest : Option Register) :
    Frame.without m p ⟨g, k, 0, base, registers, dest⟩ = ⟨g, k, 0, base, registers, dest⟩ := by
  simp [Frame.without]

theorem Frame.within_advance : fr.advance.within m p = fr.within m p := rfl

/-- Behind an instruction other than that at the site, both calls have gone on by one. -/
theorem Frame.without_advance (h : ¬(fr.within m p = true ∧ fr.next = p.index)) :
    fr.advance.without m p = (fr.without m p).advance := by
  rw [without, without, within_advance]
  simp only [advance, Frame.mk.injEq, and_true, true_and]
  by_cases hw : fr.within m p = true
  · have hne : fr.next ≠ p.index := fun hk => h ⟨hw, hk⟩
    simp only [hw, true_and]
    split <;> split <;> omega
  · simp [hw]

theorem Frame.without_advance_site (hw : fr.within m p = true) (hk : fr.next = p.index) :
    fr.advance.without m p = fr.without m p := by
  rw [without, without, within_advance]
  simp [hw, advance, hk]

/-! ### Instructions -/

omit [Output σ] in
theorem Spared.store (h : Spared m p d n s s') (i : Nat) (v : Scalar) :
    Outcome.Spared m p d n (store s i v) (store s' i v) := by
  rw [Machine.store, Machine.store, h.slots.top]
  split
  · exact .next ⟨⟨h.fields, h.output, h.steps⟩, h.slots.put i v, h.frames⟩
  · exact .fault h.toFewer

inductive Pushed (m : Module) (p : Site) (d n : Nat) :
    Except (Fault × State σ) (State σ) → Except (Fault × State σ) (State σ) → Prop where
  | refused {e : Fault} {s s' : State σ} : Fewer n s s' →
      Pushed m p d n (.error (e, s)) (.error (e, s'))
  | entered {s s' : State σ} : Spared m p d n s s' → Pushed m p d n (.ok s) (.ok s')

omit [Output σ] in
theorem Spared.push (limits : Limits) (h : Spared m p d n s s') (g : FunctionId)
    (dest : Option Register) :
    Pushed m p d n (s.push m limits g dest) (s'.push (m.without p) limits g dest) := by
  obtain ⟨slots, frames, fields, output, steps⟩ := s
  obtain ⟨slots', frames', fields', output', steps'⟩ := s'
  obtain ⟨hfewer, hslots, hframes⟩ := h
  obtain rfl : frames' = frames.map (Frame.without m p) := hframes
  have htop : slots'.top = slots.top := hslots.top
  simp only [State.push, List.length_map]
  split
  · exact .refused hfewer
  cases hg : m.functions[g]? with
  | none =>
    have hg' : (m.without p).functions[g]? = none := by
      rw [Module.functions_without, hg]
      rfl
    simp only [hg']
    exact .refused hfewer
  | some f =>
    obtain ⟨f', hg', hlocals, hregisters, hentry⟩ := Module.found_without p hg
    simp only [hg']
    rw [hlocals, hregisters, hentry, Slots.hasRoom, Slots.hasRoom, htop]
    split
    · exact .refused hfewer
    have hclear := (hslots.grow (f.locals.length + f.registers)).clearLocals f.locals slots.top
    generalize clearLocals (slots.grow _) slots.top f.locals = r,
      clearLocals (slots'.grow _) slots.top f.locals = r' at hclear
    obtain ⟨c, e⟩ := r
    obtain ⟨c', e'⟩ := r'
    obtain ⟨he, hc⟩ := hclear
    obtain rfl : e' = e := he
    cases e' with
    | some e => exact .refused ⟨hfewer.fields, hfewer.output, hfewer.steps⟩
    | none =>
      refine .entered ⟨⟨hfewer.fields, hfewer.output, hfewer.steps⟩,
        hc.mono fun _ _ => Hidden.tail, ?_⟩
      rw [List.map_cons, Frame.without_start]

/-- An instruction of the innermost calls, which have gone on behind it. -/
theorem Spared.execInstr (limits : Limits) (hdead : Unused m p d) (h : Spared m p d n s s')
    (hs : s.frames = fr.advance :: rest) (hfr : fr.HousedIn m top f b)
    (hrest : Housed m fr.base fr.dest rest) {i : Instr} (hi : i ∈ b.code) :
    Outcome.Spared m p d n (execInstr m limits s fr i)
      (execInstr (m.without p) limits s' (fr.without m p) i) := by
  have hstart := hfr.start
  have hvisible : ∀ k, fr.base ≤ k → (fr.function = p.function → k ≠ fr.registers + d) →
      ¬Hidden p.function d s.frames k := fun k hk hne hhidden =>
    hrest.visible hdead.room hk hne ((hs ▸ hhidden).moved rfl rfl)
  have hread : ∀ r ∈ i.reads, (fr.without m p).read s'.slots r = fr.read s.slots r := by
    intro r hr
    refine h.slots.get (hvisible (fr.registers + r.id) (by omega) fun hj heq => ?_)
    have hunread := hdead.unread f (hj ▸ hfr.found) b (Function.block?_mem hfr.block)
    exact hunread.1 i hi r hr (Nat.add_left_cancel heq)
  have hlocal : ∀ k, k < f.locals.length →
      s'.slots.get ((fr.without m p).base + k) = s.slots.get (fr.base + k) := by
    intro k hk
    exact h.slots.get (hvisible (fr.base + k) (Nat.le_add_right _ _) fun _ heq => by omega)
  have hwrite : ∀ (r : Register) (v : Scalar), Outcome.Spared m p d n (writeNext s fr r v)
      (writeNext s' (fr.without m p) r v) := fun r v => h.store _ v
  cases i with
  | const r v => exact hwrite r v
  | copy r x =>
    simp only [Machine.execInstr, hread x (by simp [Instr.reads])]
    split
    · exact .fault h.toFewer
    · exact hwrite r _
  | binary r op x y =>
    simp only [Machine.execInstr, hread x (by simp [Instr.reads]), hread y (by simp [Instr.reads])]
    split
    · exact .fault h.toFewer
    split
    · exact .fault h.toFewer
    split
    · exact .fault h.toFewer
    · exact hwrite r _
  | unary r op x =>
    simp only [Machine.execInstr, hread x (by simp [Instr.reads])]
    split
    · exact .fault h.toFewer
    · exact hwrite r _
  | convert r x =>
    simp only [Machine.execInstr, hread x (by simp [Instr.reads])]
    split
    · exact .fault h.toFewer
    split
    · exact .fault h.toFewer
    · exact hwrite r _
  | loadLocal r k =>
    have hk : k < f.locals.length := by
      cases (hfr.checked hdead.checked).code _ hi with
      | loadLocal _ hk => exact hk
    simp only [Machine.execInstr, hlocal k hk]
    cases s.slots.get (fr.base + k) with
    | error e => exact .fault h.toFewer
    | ok v => exact hwrite r v
  | storeLocal k x =>
    simp only [Machine.execInstr, hread x (by simp [Instr.reads])]
    split
    · exact .fault h.toFewer
    · exact h.store _ _
  | loadField r k =>
    simp only [Machine.execInstr, h.fields]
    split
    · exact .fault h.toFewer
    · exact hwrite r _
  | storeField k x =>
    simp only [Machine.execInstr, hread x (by simp [Instr.reads]), h.fields]
    split
    · exact .fault h.toFewer
    split
    · exact .next ⟨⟨rfl, h.output, h.steps⟩, h.slots, h.frames⟩
    · exact .fault h.toFewer
  | call r g =>
    have hpush := h.push limits g r
    simp only [Machine.execInstr]
    generalize s.push m limits g r = o, s'.push (m.without p) limits g r = o' at hpush
    cases hpush with
    | refused hfewer => exact .fault hfewer
    | entered hspared => exact .next hspared
  | print x =>
    have hprint : (fr.without m p).read? s'.slots x = fr.read? s.slots x := by
      cases x with
      | none => rfl
      | some x => simp only [Frame.read?, hread x (by simp [Instr.reads])]
    simp only [Machine.execInstr, hprint, h.output]
    split
    · exact .fault h.toFewer
    split
    · exact .next ⟨⟨h.fields, rfl, h.steps⟩, h.slots, h.frames⟩
    · exact .fault ⟨h.fields, rfl, h.steps⟩

/-! ### Terminators -/

omit [Output σ] in
theorem Spared.jump (h : Spared m p d n s s') (hs : s.frames = fr :: rest) (k : BlockId) :
    Outcome.Spared m p d n (jump s fr rest k)
      (jump s' (fr.without m p) (rest.map (Frame.without m p)) k) := by
  refine .next ⟨⟨h.fields, h.output, h.steps⟩, h.slots.mono fun i _ hi => ?_, ?_⟩
  · exact (hs ▸ hi).moved rfl rfl
  · rw [List.map_cons, Frame.without_start]
    rfl

omit [Output σ] in
/-- The window that a call gives up takes its hidden slot along. -/
theorem Spared.leave (h : Spared m p d n s s') (hs : s.frames = fr :: rest)
    (hfr : fr.HousedIn m s.slots.top f b) (name : String) (v : Option Scalar) :
    Outcome.Spared m p d n (leave s fr rest name v)
      (leave s' (fr.without m p) (rest.map (Frame.without m p)) name v) := by
  have hstart := hfr.start
  have hextent := hfr.extent
  have hbase : fr.base ≤ s.slots.top := by omega
  have hfree : Spared m p d n ⟨s.slots.free fr.base, rest, s.fields, s.output, s.steps⟩
      ⟨s'.slots.free fr.base, rest.map (Frame.without m p), s'.fields, s'.output, s'.steps⟩ := by
    refine ⟨⟨h.fields, h.output, h.steps⟩, (h.slots.free hbase).mono fun i hlt hi => ?_, rfl⟩
    rw [Slots.free_top hbase] at hlt
    exact (hs ▸ hi).below (by omega)
  cases rest with
  | nil => exact .done hfree
  | cons caller rest =>
    simp only [Machine.leave, List.map_cons]
    cases hdest : fr.dest with
    | none =>
      simp only [Frame.without, hdest]
      exact .next hfree
    | some r =>
      simp only [Frame.without, hdest]
      cases v with
      | none => exact .fault hfree.toFewer
      | some v => exact hfree.store _ v

omit [Output σ] in
theorem Spared.execTerm (hdead : Unused m p d) (h : Spared m p d n s s')
    (hs : s.frames = fr :: rest) (hfr : fr.HousedIn m s.slots.top f b)
    (hrest : Housed m fr.base fr.dest rest) {f' : Function} (hname : f'.name = f.name) :
    Outcome.Spared m p d n (execTerm s fr rest f b.term)
      (execTerm s' (fr.without m p) (rest.map (Frame.without m p)) f' b.term) := by
  have hread : ∀ r ∈ b.term.reads, (fr.without m p).read s'.slots r = fr.read s.slots r := by
    intro r hr
    have hstart := hfr.start
    refine h.slots.get ?_
    rw [hs]
    refine hrest.visible hdead.room (show fr.base ≤ fr.registers + r.id by omega) fun hj heq => ?_
    have hunread := hdead.unread f (hj ▸ hfr.found) b (Function.block?_mem hfr.block)
    exact hunread.2 r hr (Nat.add_left_cancel heq)
  generalize b.term = t at hread
  cases t with
  | jump k => exact h.jump hs k
  | branch r yes no =>
    simp only [Machine.execTerm, hread r (by simp [Terminator.reads])]
    split
    · exact .fault h.toFewer
    · exact h.jump hs _
  | switch r cases otherwise =>
    simp only [Machine.execTerm, hread r (by simp [Terminator.reads])]
    split
    · exact .fault h.toFewer
    split
    · exact .fault h.toFewer
    · exact h.jump hs _
  | ret r =>
    have hret : (fr.without m p).read? s'.slots r = fr.read? s.slots r := by
      cases r with
      | none => rfl
      | some r => simp only [Frame.read?, hread r (by simp [Terminator.reads])]
    simp only [Machine.execTerm, hret, hname]
    split
    · exact .fault h.toFewer
    · exact h.leave hs hfr f.name _
  | unreachable =>
    simp only [Machine.execTerm, hname]
    exact .fault h.toFewer

/-! ### Steps -/

theorem step_spared (limits : Limits) (hdead : Unused m p d) (hcode : InCode m s)
    (h : Spared m p d n s s') (hnot : executes m p s = false) :
    Outcome.Spared m p d n (step m limits s) (step (m.without p) limits s') := by
  have hcalls := hcode.calls
  obtain ⟨slots, frames, fields, output, steps⟩ := s
  obtain ⟨slots', frames', fields', output', steps'⟩ := s'
  obtain ⟨⟨hfields, houtput, hsteps⟩, hslots, hframes⟩ := h
  obtain rfl : frames' = frames.map (Frame.without m p) := hframes
  dsimp only at hcalls hfields houtput hsteps hslots
  cases hcalls with
  | nil => exact .done ⟨⟨hfields, houtput, hsteps⟩, hslots, rfl⟩
  | @cons _ _ fr rest f b hfr _ hrest =>
    have hoff : ¬(fr.within m p = true ∧ fr.next = p.index) := by
      rintro ⟨hin, hnext⟩
      simp [executes, hin, hnext] at hnot
    obtain ⟨f', b', hfound, hname, hblock, hterm, hcode⟩ := hfr.without (p := p)
    have hfewer : steps + 1 = steps' + 1 + n := by omega
    have hfound' : (m.without p).functions[(fr.without m p).function]? = some f' := hfound
    have hblock' : f'.block? (fr.without m p).block = some b' := hblock
    simp only [step, List.map_cons, hfr.found, hfr.block, hfound', hblock', hcode hoff, hterm]
    cases hi : b.code[fr.next]? with
    | some i =>
      have hspared : Spared m p d n ⟨slots, fr.advance :: rest, fields, output, steps + 1⟩
          ⟨slots', (fr.without m p).advance :: rest.map (Frame.without m p), fields', output',
            steps' + 1⟩ :=
        ⟨⟨hfields, houtput, hfewer⟩, hslots.mono fun _ _ hi => hi.moved rfl rfl,
          congrArg (· :: _) (Frame.without_advance hoff).symm⟩
      exact hspared.execInstr limits hdead rfl hfr hrest (List.mem_of_getElem? hi)
    | none =>
      have hspared : Spared m p d n ⟨slots, fr :: rest, fields, output, steps + 1⟩
          ⟨slots', fr.without m p :: rest.map (Frame.without m p), fields', output', steps' + 1⟩ :=
        ⟨⟨hfields, houtput, hfewer⟩, hslots, rfl⟩
      exact hspared.execTerm hdead rfl hfr hrest hname

/-- An instruction without an effect fails or writes its register. -/
theorem execInstr_pure (m : Module) (limits : Limits) (s : State σ) (fr : Frame) {i : Instr}
    {r : Register} (hi : i.hasEffect = false) (hr : i.dest? = some r) :
    (∃ e, execInstr m limits s fr i = .fault e s) ∨
      ∃ v, execInstr m limits s fr i = writeNext s fr r v := by
  cases i with
  | storeLocal | storeField | call | print => cases hi
  | const x v =>
    cases hr
    exact .inr ⟨v, rfl⟩
  | copy x y | unary x _ y | loadLocal x k | loadField x k =>
    cases hr
    rw [execInstr]
    split
    · exact .inl ⟨_, rfl⟩
    · exact .inr ⟨_, rfl⟩
  | convert x y =>
    cases hr
    rw [execInstr]
    split
    · exact .inl ⟨_, rfl⟩
    split
    · exact .inl ⟨_, rfl⟩
    · exact .inr ⟨_, rfl⟩
  | binary x op y z =>
    cases hr
    rw [execInstr]
    split
    · exact .inl ⟨_, rfl⟩
    split
    · exact .inl ⟨_, rfl⟩
    split
    · exact .inl ⟨_, rfl⟩
    · exact .inr ⟨_, rfl⟩

theorem step_site (limits : Limits) (s : State σ) {i : Instr} (hat : m.instr? p = some i)
    (hs : s.frames = fr :: rest) (hw : fr.within m p = true) (hk : fr.next = p.index) :
    step m limits s =
      execInstr m limits ⟨s.slots, fr.advance :: rest, s.fields, s.output, s.steps + 1⟩ fr i := by
  have hj : fr.function = p.function := by
    rw [Frame.within, Bool.and_eq_true, beq_iff_eq] at hw
    exact hw.1
  rw [Module.instr?, ← hj] at hat
  cases hf : m.functions[fr.function]? with
  | none =>
    rw [hf] at hat
    cases hat
  | some f =>
    have hplace := ((Frame.within_iff hf).mp hw).2
    rw [hf] at hat
    dsimp only at hat
    cases hb : f.blocks[p.block]? with
    | none =>
      rw [hb] at hat
      cases hat
    | some b =>
      rw [hb] at hat
      have hblock : f.block? fr.block = some b := by rw [Function.block?, hplace, ← hb]
      simp only [step, hs, hf, hblock, hk, hat]

theorem step_removed {i : Instr} {r : Register} (hat : m.instr? p = some i)
    (hpure : i.hasEffect = false) (hr : i.dest? = some r) (h : Spared m p r.id n s s')
    (hexec : executes m p s = true) (hok : (step m limits s).failed = false) :
    ∃ t, step m limits s = .next t ∧ Spared m p r.id (n + 1) t s' := by
  obtain ⟨slots, frames, fields, output, steps⟩ := s
  obtain ⟨⟨hfields, houtput, hsteps⟩, hslots, hframes⟩ := h
  cases frames with
  | nil => cases hexec
  | cons fr rest =>
    obtain ⟨hw, hk⟩ : fr.within m p = true ∧ fr.next = p.index := by
      simpa [executes] using hexec
    have hj := ((Bool.and_eq_true _ _).mp hw).1
    have hstep := step_site limits ⟨slots, fr :: rest, fields, output, steps⟩ hat rfl hw hk
    obtain ⟨e, he⟩ | ⟨v, hv⟩ := execInstr_pure m limits
      ⟨slots, fr.advance :: rest, fields, output, steps + 1⟩ fr hpure hr
    · rw [hstep, he] at hok
      cases hok
    rw [hv, writeNext, store] at hstep
    dsimp only at hstep
    split at hstep
    · refine ⟨_, hstep, ⟨hfields, houtput, ?_⟩, ?_, ?_⟩
      · dsimp only at hsteps ⊢
        omega
      · refine (hslots.mono fun _ _ hi => ?_).put_hidden ⟨fr.advance, List.mem_cons_self, ?_, rfl⟩ v
        · exact hi.moved rfl rfl
        · exact beq_iff_eq.mp hj
      · rw [hframes, List.map_cons, List.map_cons, Frame.without_advance_site hw hk]
    · rw [hstep] at hok
      cases hok

/-! ### Runs -/

/-- How both runs end. -/
inductive Ending.Spared (m : Module) (p : Site) (d n : Nat) : Ending σ → Ending σ → Prop where
  | ok {v : Option Scalar} {s s' : State σ} : Machine.Spared m p d n s s' →
      Spared m p d n (.ok v, s) (.ok v, s')
  | error {e : Fault} {s s' : State σ} : Fewer n s s' → Spared m p d n (.error e, s) (.error e, s')

omit [Output σ] in
theorem State.unwind_world (s : State σ) :
    s.unwind.fields = s.fields ∧ s.unwind.output = s.output ∧ s.unwind.steps = s.steps := by
  unfold State.unwind
  split <;> exact ⟨rfl, rfl, rfl⟩

omit [Output σ] in
theorem Fewer.unwind (h : Fewer n s s') : Fewer n s.unwind s'.unwind := by
  obtain ⟨hf, ho, hs⟩ := s.unwind_world
  obtain ⟨hf', ho', hs'⟩ := s'.unwind_world
  exact ⟨by rw [hf, hf', h.fields], by rw [ho, ho', h.output], by rw [hs, hs', h.steps]⟩

section

variable {i : Instr} {r : Register} (hdead : Unused m p r.id) (hat : m.instr? p = some i)
variable (hpure : i.hasEffect = false) (hr : i.dest? = some r)
include hdead hat hpure hr

theorem exec_spared {fuel : Nat} {e : Ending σ} (hcode : InCode m s) (h : Spared m p r.id n s s')
    (he : exec m limits fuel s = some e) (hok : Faultless m limits p (trail m limits fuel s)) :
    ∃ e', exec (m.without p) limits fuel s' = some e' ∧
      Ending.Spared m p r.id (n + (trail m limits fuel s).countP (executes m p)) e e' := by
  induction fuel generalizing s s' n with
  | zero => cases he
  | succ fuel ih =>
    have hnext := hcode.step hdead.checked limits
    rw [exec] at he
    rw [trail] at hok ⊢
    cases hexec : executes m p s with
    | true =>
      have hnofault : (step m limits s).failed = false := by
        refine hok s ?_ hexec
        split <;> exact List.mem_cons_self
      obtain ⟨t, ht, hspared⟩ := step_removed hat hpure hr h hexec hnofault
      rw [ht] at he hok hnext
      obtain ⟨e', he', hend⟩ := ih hnext hspared he fun u hu => hok u (List.mem_cons_of_mem _ hu)
      refine ⟨e', exec_mono he', ?_⟩
      rw [ht, List.countP_cons_of_pos hexec, Nat.add_comm _ 1, ← Nat.add_assoc]
      exact hend
    | false =>
      have hcount : ∀ l : List (State σ),
          (s :: l).countP (executes m p) = l.countP (executes m p) := fun l =>
        List.countP_cons_of_neg (by simp [hexec])
      have hboth := step_spared limits hdead hcode h hexec
      rw [exec]
      generalize step m limits s = o, step (m.without p) limits s' = o' at he hok hnext hboth
      cases hboth with
      | next hspared =>
        simp only [hcount]
        exact ih hnext hspared he fun u hu => hok u (List.mem_cons_of_mem _ hu)
      | done hspared =>
        cases he
        exact ⟨_, rfl, .ok (by simpa [hcount] using hspared)⟩
      | fault hfewer =>
        cases he
        exact ⟨_, rfl, .error (by simpa [hcount] using hfewer.unwind)⟩

theorem call_spared {fuel : Nat} {g : FunctionId} {e : Ending σ} (hs : s.frames = [])
    (hfields : s.fields.length = m.fields.length) (h : Spared m p r.id n s s')
    (he : call m limits fuel g s = some e)
    (hok : Faultless m limits p (callTrail m limits fuel g s)) :
    ∃ e', call (m.without p) limits fuel g s' = some e' ∧
      Ending.Spared m p r.id (n + (callTrail m limits fuel g s).countP (executes m p)) e e' := by
  have hpush := h.push limits g none
  have hcode : ∀ {t : State σ}, s.push m limits g none = .ok t → InCode m t := fun ht =>
    State.push_inCode hdead.checked (hs ▸ .nil) hfields ht
  unfold call at he ⊢
  unfold callTrail at hok ⊢
  generalize s.push m limits g none = o, s'.push (m.without p) limits g none = o'
    at he hok hpush hcode
  cases hpush with
  | refused hfewer =>
    cases he
    exact ⟨_, rfl, .error hfewer⟩
  | entered hspared => exact exec_spared hdead hat hpure hr (hcode rfl) hspared he hok

end

theorem unused_of_valid (hvalid : m.isValid = true) {i : Instr} {r : Register}
    (hat : m.instr? p = some i) (hr : i.dest? = some r) (hf : m.functions[p.function]? = some f)
    (hunread : f.Unread r.id) : Unused m p r.id := by
  have hm := Module.checked_of_isValid hvalid
  simp only [Module.instr?, hf] at hat
  split at hat
  · cases hat
  rename_i b hb
  have hblock := (hm.functions f (List.mem_of_getElem? hf)).blocks b (List.mem_of_getElem? hb)
  refine ⟨hm, fun g hg => ?_, fun g hg => ?_⟩
  · obtain rfl := Option.some.inj (hf.symm.trans hg)
    exact (hblock.code i (List.mem_of_getElem? hat)).dest hr
  · obtain rfl := Option.some.inj (hf.symm.trans hg)
    exact hunread

/-- An instruction that has no effect, and writes a register that nothing in its function reads, can
be deleted from a module that passes the checks: a run in which it does not fail ends as it would
without it, by the same result or fault, with the same fields and lines printed, and after as many
steps more as there were executions of it. -/
theorem removal_unseen (hvalid : m.isValid = true) {i : Instr} {r : Register}
    (hat : m.instr? p = some i) (hpure : i.hasEffect = false) (hr : i.dest? = some r)
    (hf : m.functions[p.function]? = some f) (hunread : f.Unread r.id) {fuel : Nat}
    {x : Except Fault (Option Scalar)} {t : State σ} (hs : s.frames = [])
    (hrun : run m limits fuel s = some (x, t))
    (hok : Faultless m limits p (runTrail m limits fuel s)) :
    ∃ t', run (m.without p) limits fuel s = some (x, t') ∧
      Fewer ((runTrail m limits fuel s).countP (executes m p)) t t' := by
  have hdead := unused_of_valid hvalid hat hr hf hunread
  have hm := hdead.checked
  unfold run at hrun ⊢
  unfold runTrail at hok ⊢
  have hfields : (m.without p).fields = m.fields := rfl
  have hinit : (m.without p).initializer = m.initializer := rfl
  have hentry : (m.without p).entry = m.entry := rfl
  rw [hfields, hinit, hentry]
  cases hz : zeroFields m.fields with
  | error e =>
    rw [hz] at hrun
    cases hrun
    exact ⟨_, rfl, rfl, rfl, rfl⟩
  | ok zeros =>
    rw [hz] at hrun hok
    dsimp only at hrun hok ⊢
    generalize hs₀ : (⟨s.slots, s.frames, zeros, s.output, s.steps⟩ : State σ) = s₀ at hrun hok ⊢
    have hframes : s₀.frames = [] := by rw [← hs₀]; exact hs
    have hlen : s₀.fields.length = m.fields.length := by rw [← hs₀]; exact zeroFields_length hz
    have hstart : Spared m p r.id 0 s₀ s₀ := ⟨⟨rfl, rfl, rfl⟩, .refl _ _, by rw [hframes]; rfl⟩
    obtain ⟨g, hg⟩ := hm.initializer
    cases hc : call m limits fuel m.initializer s₀ with
    | none =>
      rw [hc] at hrun
      cases hrun
    | some e =>
      rw [hc] at hrun hok
      obtain ⟨hok, hok'⟩ := List.forall_mem_append.mp hok
      obtain ⟨e', he', hend⟩ := call_spared hdead hat hpure hr hframes hlen hstart hc hok
      have hends := call_callEnds hc
      rw [he', List.countP_append]
      cases hend with
      | error hfewer =>
        cases hrun
        exact ⟨_, rfl, by simpa using hfewer⟩
      | ok hspared =>
        dsimp only at hrun hok' ⊢
        obtain ⟨hframes', hlen'⟩ := hends.inCode hm hg hframes hlen
        obtain ⟨e'', he'', hend⟩ := call_spared hdead hat hpure hr hframes' hlen' hspared hrun hok'
        rw [Nat.zero_add] at hend
        cases hend with
        | error hfewer => exact ⟨_, he'', hfewer⟩
        | ok hspared => exact ⟨_, he'', hspared.toFewer⟩

/-- An entry that counts a field down from 3 and calls itself until it is zero. It copies the value
that it finds there, and does not read the copy. -/
def countdown : Module :=
  ⟨"countdown", [⟨"n", .int⟩], [
    .of 0 "main" .void [] 4 [
      ⟨0, none, [.loadField ⟨0, .int⟩ 0, .copy ⟨3, .int⟩ ⟨0, .int⟩, .const ⟨1, .int⟩ (.int 1),
        .binary ⟨2, .int⟩ .sub ⟨0, .int⟩ ⟨1, .int⟩, .storeField 0 ⟨2, .int⟩,
        .print (some ⟨2, .int⟩)], .branch ⟨2, .int⟩ 1 2⟩,
      ⟨1, none, [.call none 0], .jump 2⟩,
      ⟨2, none, [], .ret none⟩] 0 .zero,
    .of 1 "init" .void [] 1 [
      ⟨0, none, [.const ⟨0, .int⟩ (.int 3), .storeField 0 ⟨0, .int⟩], .ret none⟩] 0 .zero], 1, 0⟩

theorem countdown_removal : ∃ x t t', run countdown .default 40 .start = some (x, t) ∧
    run (countdown.without ⟨0, 0, 1⟩) .default 40 .start = some (x, t') ∧ Fewer 3 t t' := by
  have hends : (run countdown .default 40 .start).isSome = true := by decide +kernel
  have hok : Faultless countdown .default ⟨0, 0, 1⟩ (runTrail countdown .default 40 .start) := by
    decide +kernel
  have hcount : (runTrail countdown .default 40 .start).countP (executes countdown ⟨0, 0, 1⟩) =
      3 := by decide +kernel
  have hunread : ∀ f ∈ countdown.functions[0]?, f.Unread 3 := by decide
  obtain ⟨⟨x, t⟩, hrun⟩ := Option.isSome_iff_exists.mp hends
  obtain ⟨t', ht', hfewer⟩ :=
    removal_unseen (by decide) rfl rfl rfl rfl (hunread _ rfl) rfl hrun hok
  exact ⟨x, t, t', hrun, ht', hcount ▸ hfewer⟩

end Machine

end Cascade
