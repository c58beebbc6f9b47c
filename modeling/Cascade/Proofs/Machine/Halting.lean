import Cascade.Proofs.Codegen.Order
import Cascade.Proofs.Machine.Moves
import Cascade.Proofs.Machine.Safe

/-!
# Cascade.Proofs.Machine.Halting

Runs of code without cycles come to an end, whatever the limits.

An active call goes on to blocks of ever lower rank, and to the end of each. Between two of its
steps there may be a call, but that one is deeper, and the depth is limited. So a call is left by
induction on the depth that remains, then on the rank of its block, then on the instructions that
remain in the block.

* `call_leaves`, `run_halts`: each active call is left, and a run ends.
* `Walks`: the states of a call from outside, with the blocks that each active call has been in;
  `walks_trodden`: ranks fall along them, so none comes twice.
* `compile_halts`: all this for compiled programs.
-/

namespace Cascade.Machine

open Code

variable {m : Module} {limits : Limits}

/-- Every function has ranks that fall wherever control goes on. -/
def Descending (m : Module) : Prop := ∀ f ∈ m.functions, ∃ rank, f.Descends rank

/-! ## Runs -/

/-- A run ends, or comes to where only the calls `rest` are active. -/
inductive Leaves (m : Module) (limits : Limits) (s : State Lines) (rest : List Frame) : Prop where
  | ends {e : Ending Lines} : Ends m limits s e → Leaves m limits s rest
  | left {s' : State Lines} : Steps m limits s s' → s'.frames = rest → Leaves m limits s rest

theorem Leaves.of_next {s s' : State Lines} {rest : List Frame} (h : step m limits s = .next s')
    (hl : Leaves m limits s' rest) : Leaves m limits s rest := by
  cases hl with
  | ends he => exact .ends (.next h he)
  | left hs hf => exact .left (.cons h hs) hf

theorem Leaves.trans {s : State Lines} {frames rest : List Frame} (h : Leaves m limits s frames)
    (hl : ∀ s' : State Lines, s'.frames = frames → Leaves m limits s' rest) :
    Leaves m limits s rest := by
  cases h with
  | ends he => exact .ends he
  | left hs hf =>
    cases hl _ hf with
    | ends he => exact .ends (he.of_steps hs)
    | left hs' hf' => exact .left (hs.trans hs') hf'

/-- The instructions that an active call has still to execute in its block. -/
def remaining (f : Function) (fr : Frame) : Nat :=
  match f.block? fr.block with
  | some b => b.code.length - fr.next
  | none => 0

theorem remaining_advance {f : Function} {fr : Frame} {b : Block} (hb : f.block? fr.block = some b)
    {i : Instr} (hi : b.code[fr.next]? = some i) : remaining f fr.advance < remaining f fr := by
  obtain ⟨hlt, -⟩ := List.getElem?_eq_some_iff.mp hi
  simp only [remaining, Frame.advance, hb]
  omega

theorem activation_leaves {f : Function} {rank : BlockId → Nat} (hrank : f.Descends rank)
    {rest : List Frame} (deeper : ∀ (s : State Lines) fr frames, s.frames = fr :: frames →
      frames.length = rest.length + 1 → frames.length < limits.maxCallDepth →
      Leaves m limits s frames) :
    ∀ (s : State Lines) fr, s.frames = fr :: rest → m.functions[fr.function]? = some f →
      Leaves m limits s rest := by
  intro s fr hs hf
  -- a jump takes the call to a lower rank, an instruction on in the block
  induction hr : rank fr.block using Nat.strongRecOn generalizing s fr with | _ r blocks => ?_
  induction hi : remaining f fr using Nat.strongRecOn generalizing s fr with | _ n instrs => ?_
  subst hr hi
  obtain ⟨e, he⟩ | ⟨f', b, hf', hb, hm⟩ := step_cases m limits hs
  · exact .ends (.fault he)
  obtain rfl : f' = f := Option.some.inj (hf'.symm.trans hf)
  have advanced : ∀ {i : Instr}, b.code[fr.next]? = some i → ∀ s' : State Lines,
      s'.frames = fr.advance :: rest → Leaves m limits s' rest := fun hi s' hs' =>
    instrs _ (remaining_advance hb hi) s' fr.advance hs' hf' rfl rfl
  cases ho : step m limits s with
  | done v s' => exact .ends (.done ho)
  | fault e s' => exact .ends (.fault ho)
  | next s' =>
    rw [ho] at hm
    refine .of_next ho ?_
    cases hm with
    | instr hi _ _ => exact advanced hi _ rfl
    | call hi hp =>
      cases State.push_pushes hp with
      | entered _ hdepth _ _ => exact (deeper _ _ _ rfl rfl hdepth).trans (advanced hi)
    | jump hn hl =>
      exact blocks _ (hrank _ _ (by rw [Function.successors, hb]; exact hl)) _ _ rfl hf' rfl
    | returned _ _ _ => exact .left .refl rfl

theorem call_leaves (hm : Descending m) (limits : Limits) (s : State Lines) (fr : Frame)
    (rest : List Frame) (hs : s.frames = fr :: rest) : Leaves m limits s rest := by
  -- on the depth that remains: the calls that this one makes are deeper
  induction hroom : limits.maxCallDepth - rest.length using Nat.strongRecOn
    generalizing s fr rest with | _ room deeper => ?_
  subst hroom
  cases hf : m.functions[fr.function]? with
  | none => exact .ends (.fault (by rw [step, hs]; dsimp only; rw [hf]))
  | some f =>
    obtain ⟨rank, hrank⟩ := hm f (List.mem_of_getElem? hf)
    exact activation_leaves hrank
      (fun s fr frames hs hlen hlt => deeper _ (by omega) s fr frames hs rfl) s fr hs hf

/-- Whatever calls are active, the run ends. -/
theorem ends_of_descending (hm : Descending m) (limits : Limits) (s : State Lines) :
    ∃ e, Ends m limits s e := by
  obtain ⟨frames, hs⟩ : ∃ frames, s.frames = frames := ⟨_, rfl⟩
  induction frames generalizing s with
  | nil => exact ⟨_, .done (by rw [step, hs])⟩
  | cons fr rest ih =>
    cases call_leaves hm limits s fr rest hs with
    | ends he => exact ⟨_, he⟩
    | left hsteps hf =>
      obtain ⟨e, he⟩ := ih _ hf
      exact ⟨e, he.of_steps hsteps⟩

theorem callEnds_of_descending (hm : Descending m) (limits : Limits) (f : FunctionId)
    (s : State Lines) :
    ∃ e, CallEnds m limits f s e := by
  cases hp : s.push m limits f none with
  | error p =>
    obtain ⟨e, s'⟩ := p
    exact ⟨_, .refused hp⟩
  | ok s' =>
    obtain ⟨e, he⟩ := ends_of_descending hm limits s'
    exact ⟨e, .entered hp he⟩

/-- A run ends from every state. -/
theorem run_halts (hm : Descending m) (limits : Limits) (s : State Lines) :
    ∃ fuel e, run m limits fuel s = some e := by
  cases hz : zeroFields m.fields with
  | error e => exact ⟨0, _, by rw [run, hz]⟩
  | ok zeros =>
    obtain ⟨⟨r, s'⟩, hi⟩ := callEnds_of_descending hm limits m.initializer
      ⟨s.slots, s.frames, zeros, s.output, s.steps⟩
    cases r with
    | error e =>
      obtain ⟨fuel, hfuel⟩ := run_of_failed hz hi
      exact ⟨fuel, _, hfuel⟩
    | ok v =>
      obtain ⟨e, he⟩ := callEnds_of_descending hm limits m.entry s'
      obtain ⟨fuel, hfuel⟩ := run_of_ends hz hi he
      exact ⟨fuel, e, hfuel⟩

/-! ## Depth -/

theorem push_overflow {s : State Lines} {f : FunctionId} {dest : Option Register}
    (h : limits.maxCallDepth ≤ s.frames.length) :
    s.push m limits f dest = .error (.stackOverflow (s.frames.length + 1), s) := by
  obtain ⟨slots, frames, fields, output, steps⟩ := s
  exact if_pos (Nat.lt_succ_of_le h)

theorem push_depth {s s' : State Lines} {f : FunctionId} {dest : Option Register}
    (h : s.push m limits f dest = .ok s') : s'.frames.length ≤ limits.maxCallDepth := by
  cases State.push_pushes h with
  | entered _ hdepth _ _ => exact hdepth

theorem step_depth {s s' : State Lines} (h : step m limits s = .next s')
    (hs : s.frames.length ≤ limits.maxCallDepth) : s'.frames.length ≤ limits.maxCallDepth := by
  obtain ⟨fr, rest, hf⟩ := frames_of_next h
  rw [hf, List.length_cons] at hs
  obtain ⟨f, b, -, -, hm⟩ := next_moves hf h
  cases hm with
  | instr _ _ _ | jump _ _ => exact hs
  | call _ hp => exact push_depth hp
  | returned _ _ _ => exact Nat.le_of_succ_le hs

theorem visits_depth {f : FunctionId} {s₀ s : State Lines} {written : List (List Nat)}
    (h : Visits m limits f s₀ s written) : s.frames.length ≤ limits.maxCallDepth := by
  induction h with
  | entered hp => exact push_depth hp
  | next _ hs ih => exact step_depth hs ih

/-- No state of a run has more active calls than there may be. -/
theorem reached_depth {s : State Lines} {written : List (List Nat)}
    (h : RunState m limits s written) :
    s.frames.length ≤ limits.maxCallDepth := by
  cases h with
  | zeroed _ => exact Nat.zero_le _
  | initializer _ hv | entry _ _ hv => exact visits_depth hv
  | ended hrun =>
    have hnil : s.frames = [] := by
      cases hz : zeroFields m.fields with
      | error e =>
        rw [run, hz] at hrun
        cases hrun
        rfl
      | ok zeros =>
        obtain ⟨f, s', he, hi⟩ | ⟨v, s', hi, he⟩ := run_callEnds hz hrun
        · cases he
          exact callEnds_frames hi rfl
        · exact callEnds_frames he (callEnds_frames hi rfl)
    rw [hnil]
    exact Nat.zero_le _

/-! ## Trails -/

/-- The blocks that the active calls have been in, the latest first, after a step from `s` to `s'`,
where they were in `trails` before. -/
def trailed (m : Module) (s s' : State Lines) (trails : List (List BlockId)) :
    List (List BlockId) :=
  match s.frames, s'.frames, trails with
  | fr :: _, fr' :: _, t :: ts =>
    match next? m fr with
    | some (.inl (.call _ _)) => [fr'.block] :: t :: ts
    | some (.inl _) => t :: ts
    | some (.inr (.ret _)) => ts
    | some (.inr _) => (fr'.block :: t) :: ts
    | none => t :: ts
  | _, _, _ => trails

/-- The states that a call from outside goes through, with the blocks that each active call has
been in, the latest first. -/
inductive Walks (m : Module) (limits : Limits) (f : FunctionId) (s₀ : State Lines) :
    State Lines → List (List BlockId) → Prop where
  | entered {s : State Lines} {fr : Frame} : s₀.push m limits f none = .ok s → s.frames = [fr] →
      Walks m limits f s₀ s [[fr.block]]
  | next {s s' : State Lines} {trails : List (List BlockId)} : Walks m limits f s₀ s trails →
      step m limits s = .next s' → Walks m limits f s₀ s' (trailed m s s' trails)

/-- Every active call is in the latest block of its trail, and ranks fall along the trail. -/
inductive Trodden (m : Module) : List Frame → List (List BlockId) → Prop where
  | nil : Trodden m [] []
  | cons (fr : Frame) {frames : List Frame} {t : List BlockId} {ts : List (List BlockId)}
      {f : Function} {rank : BlockId → Nat} : m.functions[fr.function]? = some f →
      f.Descends rank → (fr.block :: t).Pairwise (fun k l => rank k < rank l) →
      Trodden m frames ts → Trodden m (fr :: frames) ((fr.block :: t) :: ts)

theorem Trodden.length {frames : List Frame} {trails : List (List BlockId)}
    (h : Trodden m frames trails) : trails.length = frames.length := by
  induction h with
  | nil => rfl
  | cons _ _ _ _ _ ih => exact congrArg Nat.succ ih

theorem Trodden.nodup {frames : List Frame} {trails : List (List BlockId)}
    (h : Trodden m frames trails) : ∀ t ∈ trails, t.Nodup := by
  induction h with
  | nil => exact nofun
  | cons _ _ _ hp _ ih =>
    refine List.forall_mem_cons.mpr ⟨hp.imp fun hlt heq => ?_, ih⟩
    exact absurd hlt (heq ▸ Nat.lt_irrefl _)

theorem push_trodden (hm : Descending m) {s s' : State Lines} {f : FunctionId}
    {dest : Option Register} (h : s.push m limits f dest = .ok s') :
    ∃ fr, s'.frames = fr :: s.frames ∧
      ∀ {ts}, Trodden m s.frames ts → Trodden m s'.frames ([fr.block] :: ts) := by
  cases State.push_pushes h with
  | entered hf _ _ _ =>
    obtain ⟨rank, hrank⟩ := hm _ (List.mem_of_getElem? hf)
    exact ⟨_, rfl, fun ht => .cons _ hf hrank (List.pairwise_singleton _ _) ht⟩

theorem step_trodden (hm : Descending m) {s s' : State Lines} {trails : List (List BlockId)}
    (ht : Trodden m s.frames trails) (h : step m limits s = .next s') :
    Trodden m s'.frames (trailed m s s' trails) := by
  obtain ⟨fr, rest, hs⟩ := frames_of_next h
  obtain ⟨f, b, hf, hb, hmoves⟩ := next_moves hs h
  rw [hs] at ht
  cases ht with
  | @cons _ _ t ts f' rank hf' hrank hp hrest =>
    obtain rfl : f' = f := Option.some.inj (hf'.symm.trans hf)
    have hinstr : ∀ {i : Instr}, b.code[fr.next]? = some i → next? m fr = some (.inl i) :=
      fun hi => by simp only [next?, hf, hb, hi]
    have hterm : b.code[fr.next]? = none → next? m fr = some (.inr b.term) :=
      fun hn => by simp only [next?, hf, hb, hn]
    cases hmoves with
    | @instr i c fields output hi hcall _ =>
      have : trailed m s ⟨c, fr.advance :: rest, fields, output, s.steps + 1⟩
          ((fr.block :: t) :: ts) = (fr.block :: t) :: ts := by
        simp only [trailed, hs, hinstr hi]
      rw [this]
      exact .cons fr.advance hf hrank hp hrest
    | call hi hpush =>
      obtain ⟨fr', hframes, hpushed⟩ := push_trodden hm hpush
      have : trailed m s s' ((fr.block :: t) :: ts) = [fr'.block] :: (fr.block :: t) :: ts := by
        simp only [trailed, hs, hframes, hinstr hi]
      rw [this]
      exact hpushed (.cons fr.advance hf hrank hp hrest)
    | @jump l hn hl =>
      have : trailed m s ⟨s.slots, ⟨fr.function, l, 0, fr.base, fr.registers, fr.dest⟩ :: rest,
          s.fields, s.output, s.steps + 1⟩ ((fr.block :: t) :: ts) =
          (l :: fr.block :: t) :: ts := by
        simp only [trailed, hs, hterm hn]
        cases hb : b.term <;> first | rfl | (rw [hb] at hl; cases hl)
      rw [this]
      have hlt : rank l < rank fr.block :=
        hrank _ _ (by rw [Function.successors, hb]; exact hl)
      refine .cons ⟨fr.function, l, 0, fr.base, fr.registers, fr.dest⟩ hf hrank
        (List.pairwise_cons.mpr ⟨fun k hk => ?_, hp⟩) hrest
      obtain rfl | hk := List.mem_cons.mp hk
      · exact hlt
      · exact Nat.lt_trans hlt (List.rel_of_pairwise_cons hp hk)
    | @returned r c hn hret hreturns =>
      have : trailed m s ⟨c, rest, s.fields, s.output, s.steps + 1⟩ ((fr.block :: t) :: ts) =
          ts := by
        cases hreturns <;> simp only [trailed, hs, hterm hn, hret]
      rw [this]
      exact hrest

theorem walks_trodden (hm : Descending m) {f : FunctionId} {s₀ s : State Lines}
    (h₀ : s₀.frames = []) {trails : List (List BlockId)} (h : Walks m limits f s₀ s trails) :
    Trodden m s.frames trails := by
  induction h with
  | entered hp hf =>
    obtain ⟨fr', hframes, hpushed⟩ := push_trodden hm hp
    obtain ⟨rfl, -⟩ := List.cons.inj (hf.symm.trans hframes)
    exact hpushed (h₀ ▸ .nil)
  | next _ hs ih => exact step_trodden hm ih hs

theorem walks_depth {f : FunctionId} {s₀ s : State Lines} {trails : List (List BlockId)}
    (h : Walks m limits f s₀ s trails) : s.frames.length ≤ limits.maxCallDepth := by
  induction h with
  | entered hp _ => exact push_depth hp
  | next _ hs ih => exact step_depth hs ih

/-! ## Compiled programs -/

/-- The code of a program has no cycles, and so every run of it ends under all limits. No active
call is in a block twice, and calls are never nested deeper than they may be: one that would be is
refused. -/
theorem compile_halts {settings : Settings} {p : Syntax.Program} {c : Compiled}
    (h : compile settings p = .ok c) :
    (∀ f ∈ c.code.functions, f.Acyclic) ∧ ∀ limits : Limits,
      (∀ s : State Lines, ∃ fuel e, run c.code limits fuel s = some e) ∧
      (∀ s written, RunState c.code limits s written → s.frames.length ≤ limits.maxCallDepth) ∧
      (∀ f s₀ s trails, s₀.frames = [] → Walks c.code limits f s₀ s trails →
        s.frames.length ≤ limits.maxCallDepth ∧ trails.length = s.frames.length ∧
          ∀ t ∈ trails, t.Nodup) ∧
      ∀ (s : State Lines) (f : FunctionId) (dest : Option Register),
        limits.maxCallDepth ≤ s.frames.length →
        s.push c.code limits f dest = .error (.stackOverflow (s.frames.length + 1), s) := by
  obtain ⟨hw, hgen⟩ := compile_ok h
  have hm : Descending c.code := fun f hf => Codegen.lowerProgram_descends hw hgen hf
  refine ⟨fun f hf => ?_, fun limits => ⟨run_halts hm limits, fun s written hr => reached_depth hr,
    fun f s₀ s trails h₀ hwalks => ?_, fun s f dest hd => push_overflow hd⟩⟩
  · obtain ⟨rank, hrank⟩ := hm f hf
    exact hrank.acyclic
  · have ht := walks_trodden hm h₀ hwalks
    exact ⟨walks_depth hwalks, ht.length, ht.nodup⟩

theorem tally_halts : ∃ c, compile .default Typing.tally = .ok c ∧
    (∀ f ∈ c.code.functions, f.Acyclic) ∧
    ∀ limits (s : State Lines), ∃ fuel e, run c.code limits fuel s = some e := by
  obtain ⟨c, hc⟩ := tally_compiles
  obtain ⟨hacyclic, hruns⟩ := compile_halts hc
  exact ⟨c, hc, hacyclic, fun limits => (hruns limits).1⟩

end Cascade.Machine
