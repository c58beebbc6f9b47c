import Cascade.Proofs.Code.Twins
import Cascade.Proofs.Machine.Sound
import Cascade.Proofs.Machine.Steps

/-!
# Cascade.Proofs.Machine.Twins

Twin modules run alike. The two runs go step for step; at each step the same calls are active, in
blocks that are paired, and paired slots hold the same values.

Calls of the left module may take more slots, so that the left run may exceed the limit on slots
where the right one does not. Otherwise the runs end alike, as long as the right one does not go
wrong.

* `StackTwin`: the active calls of two runs, each in a window of its own.
* `StateTwin`: the states of two runs; `step_twin`: one step of both.
* `run_twin`: a run of the left module, given one of the right module.
-/

namespace Cascade.Machine

open Code

section

variable (σ : FunctionId → Renaming) (m m' : Module)

/-- A call and its twin. They are at places that are paired, and what is paired in their windows
is equal. -/
structure FrameTwin (f f' : Function) (c c' : Slots) (fr fr' : Frame) : Prop where
  found : m.functions[fr.function]? = some f
  found' : m'.functions[fr.function]? = some f'
  function : fr'.function = fr.function
  block : (σ fr.function).blocks fr.block fr'.block
  next : fr'.next = fr.next
  registers : fr.registers = fr.base + f.locals.length
  registers' : fr'.registers = fr'.base + f'.locals.length
  base : fr'.base ≤ fr.base
  cells : ∀ {i j}, (σ fr.function).offsets f f' i j →
    c.cells[fr.base + i]? = c'.cells[fr'.base + j]?

/-- Registers that wait for a result are twins in the calls that they belong to, the innermost of
those given. -/
def Waits : List Frame → Option Register → Option Register → Prop
  | [], _, _ => True
  | caller :: _, d, d' => Option.Rel (Register.Twin (σ caller.function)) d d'

/-- Calls and their twins, innermost first, whose windows end where the windows above begin. -/
inductive StackTwin (c c' : Slots) : Nat → Nat → List Frame → List Frame → Prop where
  | nil {top top' : Nat} : StackTwin c c' top top' [] []
  | cons {top top' : Nat} {f f' : Function} {fr fr' : Frame} {rest rest' : List Frame} :
      FrameTwin σ m m' f f' c c' fr fr' → fr.base + f.size ≤ top → fr'.base + f'.size ≤ top' →
      Waits σ rest fr.dest fr'.dest → StackTwin c c' fr.base fr'.base rest rest' →
      StackTwin c c' top top' (fr :: rest) (fr' :: rest')

end

structure SameWorld (s s' : State Lines) : Prop where
  fields : s'.fields = s.fields
  output : s'.output = s.output
  steps : s'.steps = s.steps

structure StateTwin (σ : FunctionId → Renaming) (m m' : Module) (s s' : State Lines) : Prop
    extends SameWorld s s' where
  stack : StackTwin σ m m' s.slots s'.slots s.slots.top s'.slots.top s.frames s'.frames
  top : s'.slots.top ≤ s.slots.top

/-- What both runs do in one step. Where the left run exceeds a limit or the right one goes wrong,
nothing is said about the other. -/
inductive Outcome.Twin (σ : FunctionId → Renaming) (m m' : Module) :
    Outcome Lines → Outcome Lines → Prop where
  | next {s s' : State Lines} : StateTwin σ m m' s s' → Twin σ m m' (.next s) (.next s')
  | done {v : Option Scalar} {s s' : State Lines} : StateTwin σ m m' s s' → s.frames = [] →
      Twin σ m m' (.done v s) (.done v s')
  | divided {s s' : State Lines} : SameWorld s s' →
      Twin σ m m' (.fault .divisionByZero s) (.fault .divisionByZero s')
  | overflow {depth : Nat} {s : State Lines} {o : Outcome Lines} :
      Twin σ m m' (.fault (.stackOverflow depth) s) o
  | wrong {o : Outcome Lines} {e : Fault} {s' : State Lines} : ¬ e.Allowed →
      Twin σ m m' o (.fault e s')

/-- A fault that compiled code never ends with. -/
theorem not_allowed {e : Fault} (ho : ∀ depth, e ≠ .stackOverflow depth)
    (hd : e ≠ .divisionByZero) : ¬ e.Allowed := by
  rintro (⟨depth, rfl⟩ | rfl)
  · exact ho depth rfl
  · exact hd rfl

/-- A window was added for a call of a function: its local variables are zero, and nothing was put
into its registers yet. -/
structure Blank (below : Slots) (f : Function) (c : Slots) : Prop extends Opened below f c where
  fresh : ∀ r, r < f.registers →
    c.cells[below.top + (f.locals.length + r)]? = some (.short 0)

/-- A call is made active where no limit is exceeded. -/
theorem State.push_blank {m : Module} {limits : Limits} {s : State Lines} {j : FunctionId}
    {f : Function} (hdepth : ¬ limits.maxCallDepth < s.frames.length + 1)
    (hf : m.functions[j]? = some f) (hn : ∀ l ∈ f.locals, l.ty.isNumeric = true)
    (hroom : s.slots.top + f.size ≤ limits.maxRegisters) (dest : Option Register) :
    ∃ c, Blank s.slots f c ∧ s.push m limits j dest = .ok ⟨c, ⟨j, f.entry, 0, s.slots.top,
      s.slots.top + f.locals.length, dest⟩ :: s.frames, s.fields, s.output, s.steps⟩ := by
  obtain ⟨slots, frames, fields, output, steps⟩ := s
  obtain ⟨c, hc, htop, hkeep, hzero⟩ := clearLocals_cells
    (s := slots.grow (f.locals.length + f.registers)) (i := slots.top) hn
    (by rw [Slots.grow_top]; omega)
  refine ⟨c, ⟨⟨by rw [htop, Slots.grow_top], fun i hi => ?_, hzero⟩, fun r hr => ?_⟩, ?_⟩
  · rw [hkeep i (.inl hi), Slots.grow_below _ hi]
  · rw [hkeep _ (.inr (by dsimp only; omega)),
      Slots.grow_fresh (by dsimp only; omega) (by dsimp only; omega)]
  · unfold Function.size at hroom
    simp only [State.push, hdepth, if_false, hf, Slots.hasRoom, hroom, decide_true, Bool.not_true,
      Bool.false_eq_true, hc]

variable {σ : FunctionId → Renaming} {m m' : Module} {c c' d d' : Slots} {s s' : State Lines}
variable {fr fr' : Frame} {rest rest' : List Frame} {f f' : Function}

/-! ## Windows -/

theorem FrameTwin.move (h : FrameTwin σ m m' f f' c c' fr fr') {b b' : BlockId}
    (hb : (σ fr.function).blocks b b') (n : Nat) :
    FrameTwin σ m m' f f' c c' ⟨fr.function, b, n, fr.base, fr.registers, fr.dest⟩
      ⟨fr'.function, b', n, fr'.base, fr'.registers, fr'.dest⟩ :=
  ⟨h.found, h.found', h.function, hb, rfl, h.registers, h.registers', h.base, h.cells⟩

theorem FrameTwin.advance (h : FrameTwin σ m m' f f' c c' fr fr') :
    FrameTwin σ m m' f f' c c' fr.advance fr'.advance :=
  ⟨h.found, h.found', h.function, h.block, congrArg (· + 1) h.next, h.registers, h.registers',
    h.base, h.cells⟩

theorem StackTwin.top {top top' : Nat}
    (h : StackTwin σ m m' c c' top top' (fr :: rest) (fr' :: rest')) :
    ∃ f f', FrameTwin σ m m' f f' c c' fr fr' ∧ fr.base + f.size ≤ top ∧
      fr'.base + f'.size ≤ top' ∧ Waits σ rest fr.dest fr'.dest ∧
      StackTwin σ m m' c c' fr.base fr'.base rest rest' := by
  cases h with
  | cons hfr hroom hroom' hw hrest => exact ⟨_, _, hfr, hroom, hroom', hw, hrest⟩

theorem StackTwin.length {top top' : Nat} (h : StackTwin σ m m' c c' top top' rest rest') :
    rest'.length = rest.length := by
  induction h with
  | nil => rfl
  | cons _ _ _ _ _ ih => exact congrArg (· + 1) ih

section

variable (hm : m.Twin σ m')
include hm

theorem FrameTwin.twin (h : FrameTwin σ m m' f f' c c' fr fr') : f.Twin (σ fr.function) f' :=
  hm.function h.found h.found'

/-- Only slots below the top of the stack matter to it. -/
theorem StackTwin.keeps {top top' : Nat} (h : StackTwin σ m m' c c' top top' rest rest')
    (hc : ∀ i, i < top → d.cells[i]? = c.cells[i]?)
    (hc' : ∀ i, i < top' → d'.cells[i]? = c'.cells[i]?) :
    StackTwin σ m m' d d' top top' rest rest' := by
  induction h with
  | nil => exact .nil
  | @cons top top' f f' fr fr' rest rest' hfr htop htop' hw _ ih =>
    have hsize := (hfr.twin hm).offsets
    refine .cons ⟨hfr.found, hfr.found', hfr.function, hfr.block, hfr.next, hfr.registers,
      hfr.registers', hfr.base, fun {i j} ho => ?_⟩ htop htop' hw
      (ih (fun i hi => hc i (by omega)) fun i hi => hc' i (by omega))
    have hi := hsize.left ho
    have hj := hsize.right ho
    rw [hc _ (by omega), hc' _ (by omega)]
    exact hfr.cells ho

theorem StackTwin.put {top top' : Nat}
    (h : StackTwin σ m m' c c' top top' (fr :: rest) (fr' :: rest')) (htop : top ≤ c.top)
    (htop' : top' ≤ c'.top) (hfr : FrameTwin σ m m' f f' c c' fr fr') {i j : Nat}
    (ho : (σ fr.function).offsets f f' i j) (v : Scalar) :
    fr.base + i < c.top ∧ fr'.base + j < c'.top ∧
      StackTwin σ m m' (c.put (fr.base + i) v) (c'.put (fr'.base + j) v) top top' (fr :: rest)
        (fr' :: rest') := by
  cases h with
  | @cons _ _ g g' _ _ _ _ hfr' hroom hroom' hw hrest =>
    obtain rfl : g = f := Option.some.inj (hfr'.found.symm.trans hfr.found)
    obtain rfl : g' = f' := Option.some.inj (hfr'.found'.symm.trans hfr.found')
    have hsize := (hfr.twin hm).offsets
    have hi := hsize.left ho
    have hj := hsize.right ho
    refine ⟨by omega, by omega, .cons ⟨hfr.found, hfr.found', hfr.function, hfr.block, hfr.next,
      hfr.registers, hfr.registers', hfr.base, fun {k l} hkl => ?_⟩ hroom hroom' hw
      (hrest.keeps hm (fun k hk => Slots.put_ne (by omega) v)
        fun k hk => Slots.put_ne (by omega) v)⟩
    by_cases hk : i = k
    · -- then the slot on the right is the paired one too
      obtain rfl := hk
      obtain rfl := (hsize.iff ho hkl).mp rfl
      rw [Slots.put_self (by omega), Slots.put_self (by omega)]
    · have hl : j ≠ l := fun he => hk ((hsize.iff ho hkl).mpr he)
      rw [Slots.put_ne (by omega), Slots.put_ne (by omega)]
      exact hfr.cells hkl

/-! ## Instructions -/

theorem FrameTwin.read (h : FrameTwin σ m m' f f' c c' fr fr') (hroom : fr.base + f.size ≤ c.top)
    {r r' : Register} (hr : r.Twin (σ fr.function) r') :
    ∃ v, fr.read c r = .ok v ∧ fr'.read c' r' = .ok v := by
  have ho : (σ fr.function).offsets f f' (f.locals.length + r.id) (f'.locals.length + r'.id) :=
    .inr ⟨_, _, hr.2, rfl, rfl⟩
  have hlt := (h.twin hm).offsets.left ho
  obtain ⟨v, hv⟩ : ∃ v, c.cells[fr.base + (f.locals.length + r.id)]? = some v :=
    ⟨_, Array.getElem?_eq_getElem (show _ < c.cells.size by unfold Slots.top at hroom; omega)⟩
  have hv' := (h.cells ho).symm.trans hv
  rw [← Nat.add_assoc] at hv hv'
  exact ⟨v, by rw [Frame.read, h.registers, Slots.get_ok hv],
    by rw [Frame.read, h.registers', Slots.get_ok hv']⟩

theorem FrameTwin.read? (h : FrameTwin σ m m' f f' c c' fr fr') (hroom : fr.base + f.size ≤ c.top)
    {r r' : Option Register} (hr : Option.Rel (Register.Twin (σ fr.function)) r r') :
    ∃ v, fr.read? c r = .ok v ∧ fr'.read? c' r' = .ok v := by
  cases hr with
  | none => exact ⟨none, rfl, rfl⟩
  | some hr =>
    obtain ⟨v, hv, hv'⟩ := h.read hm hroom hr
    exact ⟨some v, by rw [Frame.read?, hv], by rw [Frame.read?, hv']⟩

theorem StateTwin.store (h : StateTwin σ m m' s s') (hs : s.frames = fr :: rest)
    (hs' : s'.frames = fr' :: rest') (hfr : FrameTwin σ m m' f f' s.slots s'.slots fr fr')
    {i j : Nat} (ho : (σ fr.function).offsets f f' i j) (v : Scalar) :
    Outcome.Twin σ m m' (store s (fr.base + i) v) (store s' (fr'.base + j) v) := by
  have hstack := h.stack
  rw [hs, hs'] at hstack
  obtain ⟨hi, hj, hput⟩ := hstack.put hm (Nat.le_refl _) (Nat.le_refl _) hfr ho v
  rw [Machine.store, if_pos hi, Machine.store, if_pos hj]
  refine .next ⟨⟨h.fields, h.output, h.steps⟩, ?_, ?_⟩
  · simp only [Slots.put_top, hs, hs']
    exact hput
  · simpa using h.top

theorem StateTwin.writeNext (h : StateTwin σ m m' s s') (hs : s.frames = fr :: rest)
    (hs' : s'.frames = fr' :: rest') (hfr : FrameTwin σ m m' f f' s.slots s'.slots fr fr')
    {r r' : Register} (hr : r.Twin (σ fr.function) r') (v : Scalar) :
    Outcome.Twin σ m m' (writeNext s fr r v) (writeNext s' fr' r' v) := by
  unfold Machine.writeNext
  rw [hfr.registers, hfr.registers', Nat.add_assoc, Nat.add_assoc]
  exact h.store hm hs hs' hfr (.inr ⟨_, _, hr.2, rfl, rfl⟩) v

theorem StateTwin.push (limits : Limits) (h : StateTwin σ m m' s s') {j : FunctionId}
    {dest dest' : Option Register} (hdest : Waits σ s.frames dest dest') :
    (∃ depth, s.push m limits j dest = .error (.stackOverflow depth, s)) ∨
    (∃ e, s'.push m' limits j dest' = .error (e, s') ∧ ¬ e.Allowed) ∨
    ∃ t t', s.push m limits j dest = .ok t ∧ s'.push m' limits j dest' = .ok t' ∧
      StateTwin σ m m' t t' := by
  have hlength := h.stack.length
  by_cases hdepth : limits.maxCallDepth < s.frames.length + 1
  · exact .inl ⟨s.frames.length + 1, by simp only [State.push, hdepth, if_true]⟩
  obtain ⟨-, hf'⟩ | ⟨f, f', hf, hf', hff⟩ := hm.found j
  · refine .inr (.inl ⟨.unknownFunction j, ?_, not_allowed (by simp) (by simp)⟩)
    simp only [State.push, hlength, hdepth, if_false, hf']
  by_cases hroom : s.slots.top + f.size ≤ limits.maxRegisters
  · have htop := h.top
    have hsize : f'.size ≤ f.size := Nat.add_le_add hff.size.1 hff.size.2
    obtain ⟨c, hc, hpush⟩ := State.push_blank hdepth hf hff.numeric.1 hroom dest
    obtain ⟨c', hc', hpush'⟩ := State.push_blank (by rw [hlength]; exact hdepth) hf'
      hff.numeric.2 (Nat.le_trans (Nat.add_le_add htop hsize) hroom) dest'
    refine .inr (.inr ⟨_, _, hpush, hpush', ⟨h.fields, h.output, h.steps⟩, ?_, ?_⟩)
    · refine .cons ⟨hf, hf', rfl, hff.entry, rfl, rfl, rfl, htop, fun {i k} ho => ?_⟩
        (Nat.le_of_eq hc.top.symm) (Nat.le_of_eq hc'.top.symm) hdest
        (h.stack.keeps hm hc.keeps hc'.keeps)
      obtain hl | ⟨r, r', hr, rfl, rfl⟩ := ho
      · -- local variables start with the zero of their type
        have hi := List.getElem?_eq_getElem (hff.locals.left hl)
        have hk := List.getElem?_eq_getElem (hff.locals.right hl)
        rw [hc.zeros i _ hi, hc'.zeros k _ hk, hff.types hl hi hk]
      · rw [hc.fresh r (hff.registers.left hr), hc'.fresh r' (hff.registers.right hr)]
    · rw [hc.top, hc'.top]
      exact Nat.add_le_add htop hsize
  · refine .inl ⟨s.frames.length + 1, ?_⟩
    unfold Function.size at hroom
    simp only [State.push, hdepth, if_false, hf, Slots.hasRoom, hroom, decide_false, Bool.not_false,
      if_true]

/-- An instruction of the innermost calls, which have gone on behind it. -/
theorem execInstr_twin (limits : Limits) (h : StateTwin σ m m' s s')
    (hs : s.frames = fr.advance :: rest) (hs' : s'.frames = fr'.advance :: rest')
    (hfr : FrameTwin σ m m' f f' s.slots s'.slots fr.advance fr'.advance)
    (hroom : fr.base + f.size ≤ s.slots.top) {i i' : Instr} (hi : i.Twin (σ fr.function) i') :
    Outcome.Twin σ m m' (execInstr m limits s fr i) (execInstr m' limits s' fr' i') := by
  have read : ∀ {r r' : Register}, r.Twin (σ fr.function) r' →
      ∃ v, fr.read s.slots r = .ok v ∧ fr'.read s'.slots r' = .ok v :=
    fun hr => hfr.read hm hroom hr
  have write : ∀ {r r' : Register}, r.Twin (σ fr.function) r' → ∀ v,
      Outcome.Twin σ m m' (writeNext s fr r v) (writeNext s' fr' r' v) :=
    fun hr v => h.writeNext hm hs hs' hfr hr v
  cases hi with
  | const hd => exact write hd _
  | copy hd hr =>
    obtain ⟨v, hv, hv'⟩ := read hr
    simp only [execInstr, hv, hv']
    exact write hd v
  | binary op hd hl hr =>
    obtain ⟨a, ha, ha'⟩ := read hl
    obtain ⟨b, hb, hb'⟩ := read hr
    simp only [execInstr, ha, ha', hb, hb']
    cases Scalar.binary op a b with
    | ok v => exact write hd v
    | error e =>
      cases e with
      | divisionByZero => exact .divided h.toSameWorld
      | operandMismatch l r =>
        exact .wrong (not_allowed (by simp [Fault.ofArith]) (by simp [Fault.ofArith]))
  | unary op hd hr =>
    obtain ⟨v, hv, hv'⟩ := read hr
    simp only [execInstr, hv, hv']
    exact write hd _
  | convert hd hr =>
    obtain ⟨v, hv, hv'⟩ := read hr
    simp only [execInstr, hv, hv', hd.1]
    split
    · exact .wrong (not_allowed (by simp) (by simp))
    · exact write hd _
  | @loadLocal _ _ i i' hd hl =>
    have hlt : fr.base + i < s.slots.cells.size :=
      Nat.lt_of_lt_of_le (Nat.add_lt_add_left ((hfr.twin hm).offsets.left (.inl hl)) _) hroom
    obtain ⟨v, hv⟩ : ∃ v, s.slots.cells[fr.base + i]? = some v :=
      ⟨_, Array.getElem?_eq_getElem hlt⟩
    have hv' : s'.slots.cells[fr'.base + i']? = some v := (hfr.cells (.inl hl)).symm.trans hv
    simp only [execInstr, Slots.get_ok hv, Slots.get_ok hv']
    exact write hd v
  | storeLocal hl hr =>
    obtain ⟨v, hv, hv'⟩ := read hr
    simp only [execInstr, hv, hv']
    exact h.store hm hs hs' hfr (.inl hl) v
  | loadField hd =>
    simp only [execInstr, h.fields]
    split
    · exact .wrong (not_allowed (by simp) (by simp))
    · exact write hd _
  | storeField hr =>
    obtain ⟨v, hv, hv'⟩ := read hr
    simp only [execInstr, hv, hv', h.fields]
    split
    · exact .next ⟨⟨rfl, h.output, h.steps⟩, h.stack, h.top⟩
    · exact .wrong (not_allowed (by simp) (by simp))
  | call hd =>
    rename_i d d' g
    have hwaits : Waits σ s.frames d d' := by
      rw [hs]
      exact hd
    simp only [execInstr]
    obtain ⟨depth, hp⟩ | ⟨e, hp', he⟩ | ⟨t, t', hp, hp', ht⟩ := h.push hm limits hwaits
    · rw [hp]
      exact .overflow
    · rw [hp']
      exact .wrong he
    · rw [hp, hp']
      exact .next ht
  | print hr =>
    obtain ⟨v, hv, hv'⟩ := hfr.read? hm hroom hr
    have hv : fr.read? s.slots _ = .ok v := hv
    have hv' : fr'.read? s'.slots _ = .ok v := hv'
    simp only [execInstr, hv, hv']
    exact .next ⟨⟨h.fields, by rw [h.output], h.steps⟩, h.stack, h.top⟩

/-! ## Terminators -/

omit hm in
theorem selectCase_twin {ρ : Renaming} (n : Int) {cs cs' : List (Int × BlockId)}
    (h : List.Forall₂ (caseTwin ρ) cs cs') {o o' : BlockId} (ho : ρ.blocks o o') :
    ρ.blocks (selectCase n cs o) (selectCase n cs' o') := by
  unfold selectCase
  induction h with
  | nil => exact ho
  | @cons c c' cs cs' hc _ ih =>
    rw [List.lookup_cons, List.lookup_cons, ← hc.1]
    cases n == c.1 with
    | true => exact hc.2
    | false => exact ih

omit hm in
theorem jump_twin (h : StateTwin σ m m' s s') (hs : s.frames = fr :: rest)
    (hs' : s'.frames = fr' :: rest') {b b' : BlockId} (hb : (σ fr.function).blocks b b') :
    Outcome.Twin σ m m' (jump s fr rest b) (jump s' fr' rest' b') := by
  have hstack := h.stack
  rw [hs, hs'] at hstack
  obtain ⟨f, f', hfr, hroom, hroom', hw, hrest⟩ := hstack.top
  exact .next ⟨⟨h.fields, h.output, h.steps⟩, .cons (hfr.move hb 0) hroom hroom' hw hrest, h.top⟩

theorem leave_twin (h : StateTwin σ m m' s s') (hs : s.frames = fr :: rest)
    (hs' : s'.frames = fr' :: rest') (name name' : String) (v : Option Scalar) :
    Outcome.Twin σ m m' (leave s fr rest name v) (leave s' fr' rest' name' v) := by
  have hstack := h.stack
  rw [hs, hs'] at hstack
  obtain ⟨f, f', hfr, hroom, hroom', hw, hrest⟩ := hstack.top
  have hbase : fr.base ≤ s.slots.top := Nat.le_trans (Nat.le_add_right _ _) hroom
  have hbase' : fr'.base ≤ s'.slots.top := Nat.le_trans (Nat.le_add_right _ _) hroom'
  -- what is left lies below the window that is given up
  have hfreed : StateTwin σ m m' ⟨s.slots.free fr.base, rest, s.fields, s.output, s.steps⟩
      ⟨s'.slots.free fr'.base, rest', s'.fields, s'.output, s'.steps⟩ := by
    refine ⟨⟨h.fields, h.output, h.steps⟩, ?_, ?_⟩
    · rw [Slots.free_top hbase, Slots.free_top hbase']
      exact hrest.keeps hm (fun i hi => Slots.free_below hi hbase)
        fun i hi => Slots.free_below hi hbase'
    · rw [Slots.free_top hbase, Slots.free_top hbase']
      exact hfr.base
  unfold leave
  cases hrest with
  | nil => exact .done hfreed rfl
  | @cons _ _ g g' caller caller' below below' hcaller _ _ _ _ =>
    have hstack := hfreed.stack
    cases hdest : fr.dest with
    | none =>
      rw [hdest] at hw
      cases hdest' : fr'.dest with
      | none => exact .next hfreed
      | some d' =>
        rw [hdest'] at hw
        cases hw
    | some d =>
      rw [hdest] at hw
      cases hdest' : fr'.dest with
      | none =>
        rw [hdest'] at hw
        cases hw
      | some d' =>
        rw [hdest'] at hw
        cases hw with
        | some hd =>
          cases v with
          | none => exact .wrong (not_allowed (by simp) (by simp))
          | some v =>
            obtain ⟨g₁, g₁', hfr₁, -⟩ := hstack.top
            exact hfreed.writeNext hm rfl rfl hfr₁ hd v

theorem execTerm_twin (h : StateTwin σ m m' s s') (hs : s.frames = fr :: rest)
    (hs' : s'.frames = fr' :: rest') (hfr : FrameTwin σ m m' f f' s.slots s'.slots fr fr')
    (hroom : fr.base + f.size ≤ s.slots.top) {t t' : Terminator} (ht : t.Twin (σ fr.function) t') :
    Outcome.Twin σ m m' (execTerm s fr rest f t) (execTerm s' fr' rest' f' t') := by
  cases ht with
  | jump hb => exact jump_twin h hs hs' hb
  | branch hc hy hn =>
    obtain ⟨v, hv, hv'⟩ := hfr.read hm hroom hc
    simp only [execTerm, hv, hv']
    refine jump_twin h hs hs' ?_
    cases v.isTrue with
    | true => exact hy
    | false => exact hn
  | ret hr =>
    obtain ⟨v, hv, hv'⟩ := hfr.read? hm hroom hr
    simp only [execTerm, hv, hv']
    exact leave_twin hm h hs hs' _ _ v
  | switch hr hcases ho =>
    obtain ⟨v, hv, hv'⟩ := hfr.read hm hroom hr
    simp only [execTerm, hv, hv']
    cases v.toInt? with
    | none => exact .wrong (not_allowed (by simp) (by simp))
    | some n => exact jump_twin h hs hs' (selectCase_twin n hcases ho)
  | unreachable => exact .wrong (not_allowed (by simp) (by simp))

/-! ## Runs -/

theorem step_twin (limits : Limits) (h : StateTwin σ m m' s s') :
    Outcome.Twin σ m m' (step m limits s) (step m' limits s') := by
  have hstack := h.stack
  unfold step
  cases hs : s.frames with
  | nil =>
    have hs' : s'.frames = [] := by
      have := hstack.length
      rw [hs] at this
      exact List.eq_nil_of_length_eq_zero this
    rw [hs']
    exact .done h hs
  | cons fr rest =>
    obtain ⟨fr', rest', hs'⟩ : ∃ fr' rest', s'.frames = fr' :: rest' := by
      have := hstack.length
      rw [hs] at this
      exact List.exists_cons_of_length_eq_add_one this
    rw [hs, hs'] at hstack
    obtain ⟨f, f', hfr, hroom, hroom', hw, hrest⟩ := hstack.top
    obtain ⟨b, b', hb, hb', hbb⟩ := (hfr.twin hm).block hfr.block
    simp only [hs', hfr.found, hfr.function, hfr.found', hb, hb', hfr.next]
    obtain ⟨hi, hi'⟩ | ⟨i, i', hi, hi', hii⟩ := forall₂_getElem? hbb.code fr.next
    · rw [hi, hi']
      have hready : StateTwin σ m m' ⟨s.slots, fr :: rest, s.fields, s.output, s.steps + 1⟩
          ⟨s'.slots, fr' :: rest', s'.fields, s'.output, s'.steps + 1⟩ :=
        ⟨⟨h.fields, h.output, congrArg (· + 1) h.steps⟩, hstack, h.top⟩
      exact execTerm_twin hm hready rfl rfl hfr hroom hbb.term
    · rw [hi, hi']
      have hready : StateTwin σ m m' ⟨s.slots, fr.advance :: rest, s.fields, s.output, s.steps + 1⟩
          ⟨s'.slots, fr'.advance :: rest', s'.fields, s'.output, s'.steps + 1⟩ :=
        ⟨⟨h.fields, h.output, congrArg (· + 1) h.steps⟩,
          .cons hfr.advance hroom hroom' hw hrest, h.top⟩
      exact execInstr_twin hm limits hready rfl rfl hfr.advance hroom hii

end

/-- A run that did not go wrong. -/
def Ending.Excused : Ending Lines → Prop
  | (.ok _, _) => True
  | (.error e, _) => e.Allowed

def Ending.Overflows {ω : Type} : Ending ω → Prop
  | (.ok _, _) => False
  | (.error e, _) => ∃ depth, e = .stackOverflow depth

/-- Both runs end alike: with the same result or fault, and the same was stored, printed and
counted. Behind a result, calls can go on in both. -/
inductive Ending.Twin (σ : FunctionId → Renaming) (m m' : Module) :
    Ending Lines → Ending Lines → Prop where
  | ok {v : Option Scalar} {s s' : State Lines} : StateTwin σ m m' s s' → s.frames = [] →
      Twin σ m m' (.ok v, s) (.ok v, s')
  | divided {s s' : State Lines} : SameWorld s s' →
      Twin σ m m' (.error .divisionByZero, s) (.error .divisionByZero, s')

theorem SameWorld.unwind (h : SameWorld s s') : SameWorld s.unwind s'.unwind := by
  have hkeep : ∀ s : State Lines, SameWorld s s.unwind := by
    intro s
    unfold State.unwind
    split
    · exact ⟨rfl, rfl, rfl⟩
    · exact ⟨rfl, rfl, rfl⟩
  have h₁ := hkeep s
  have h₂ := hkeep s'
  exact ⟨by rw [h₂.fields, h.fields, h₁.fields], by rw [h₂.output, h.output, h₁.output],
    by rw [h₂.steps, h.steps, h₁.steps]⟩

theorem start_twin (σ : FunctionId → Renaming) (m m' : Module) (zeros : List Scalar) :
    StateTwin σ m m' (.zeroed zeros) (.zeroed zeros) :=
  ⟨⟨rfl, rfl, rfl⟩, .nil, Nat.le_refl _⟩

section

variable (hm : m.Twin σ m') {limits : Limits}
include hm

/-- By induction on the right run, which does not go wrong. -/
theorem ends_twin {e' : Ending Lines} (h' : Ends m' limits s' e') (he' : e'.Excused)
    (h : StateTwin σ m m' s s') :
    ∃ e, Ends m limits s e ∧ (e.Overflows ∨ e.Twin σ m m' e') := by
  induction h' generalizing s with
  | @done s' t' v hstep' =>
    have hstep := step_twin hm limits h
    rw [hstep'] at hstep
    cases hs : step m limits s with
    | next t => rw [hs] at hstep; cases hstep
    | done v t =>
      rw [hs] at hstep
      cases hstep with
      | done ht hnone => exact ⟨_, .done hs, .inr (.ok ht hnone)⟩
    | fault e t =>
      rw [hs] at hstep
      cases hstep with
      | overflow => exact ⟨_, .fault hs, .inl ⟨_, rfl⟩⟩
  | @fault s' t' e' hstep' =>
    have hstep := step_twin hm limits h
    rw [hstep'] at hstep
    cases hs : step m limits s with
    | next t | done v t =>
      rw [hs] at hstep
      cases hstep with
      | wrong hwrong => exact absurd he' hwrong
    | fault e t =>
      rw [hs] at hstep
      cases hstep with
      | divided hsame => exact ⟨_, .fault hs, .inr (.divided hsame.unwind)⟩
      | overflow => exact ⟨_, .fault hs, .inl ⟨_, rfl⟩⟩
      | wrong hwrong => exact absurd he' hwrong
  | @next s' t' e' hstep' _ ih =>
    have hstep := step_twin hm limits h
    rw [hstep'] at hstep
    cases hs : step m limits s with
    | next t =>
      rw [hs] at hstep
      cases hstep with
      | next ht =>
        obtain ⟨e, he, htwin⟩ := ih he' ht
        exact ⟨e, .next hs he, htwin⟩
    | done v t => rw [hs] at hstep; cases hstep
    | fault e t =>
      rw [hs] at hstep
      cases hstep with
      | overflow => exact ⟨_, .fault hs, .inl ⟨_, rfl⟩⟩

theorem callEnds_twin {j : FunctionId} {e' : Ending Lines} (h' : CallEnds m' limits j s' e')
    (he' : e'.Excused) (h : StateTwin σ m m' s s') (hs : s.frames = []) :
    ∃ e, CallEnds m limits j s e ∧ (e.Overflows ∨ e.Twin σ m m' e') := by
  have hwaits : Waits σ s.frames none none := by
    rw [hs]
    trivial
  obtain ⟨depth, hp⟩ | ⟨e, hp', he⟩ | ⟨t, t', hp, hp', ht⟩ := h.push hm limits (j := j) hwaits
  · exact ⟨_, .refused hp, .inl ⟨depth, rfl⟩⟩
  · cases h' with
    | refused hr =>
      cases hp'.symm.trans hr
      exact absurd he' he
    | entered hr _ => cases hp'.symm.trans hr
  · cases h' with
    | refused hr => cases hp'.symm.trans hr
    | entered hr hends =>
      cases hp'.symm.trans hr
      obtain ⟨e, he, htwin⟩ := ends_twin hm hends he' ht
      exact ⟨e, .entered hp he, htwin⟩

/-- A run of the left module, given one of the right module that does not go wrong. -/
theorem run_twin {zeros : List Scalar} (hz : zeroFields m.fields = .ok zeros) {fuel : Nat}
    {e' : Ending Lines} (h' : run m' limits fuel .start = some e') (he' : e'.Excused) :
    ∃ fuel e, run m limits fuel .start = some e ∧ (e.Overflows ∨ e.Twin σ m m' e') := by
  have hstart := start_twin σ m m' zeros
  have hz' : zeroFields m'.fields = .ok zeros := hm.fields ▸ hz
  obtain ⟨e₁, t', rfl, hinit'⟩ | ⟨v, t', hinit', hentry'⟩ := run_callEnds hz' h'
  · rw [← hm.initializer] at hinit'
    obtain ⟨⟨r, t⟩, hinit, htwin⟩ := callEnds_twin hm hinit' he' hstart rfl
    cases r with
    | error e₁ =>
      obtain ⟨fuel, hrun⟩ := run_of_failed (s := .start) hz hinit
      exact ⟨fuel, _, hrun, htwin⟩
    | ok v =>
      obtain hover | htwin := htwin
      · cases hover
      · cases htwin
  · rw [← hm.initializer] at hinit'
    obtain ⟨⟨r, t⟩, hinit, htwin⟩ := callEnds_twin hm hinit' trivial hstart rfl
    cases r with
    | error e₁ =>
      obtain ⟨fuel, hrun⟩ := run_of_failed (s := .start) hz hinit
      obtain hover | htwin := htwin
      · exact ⟨fuel, _, hrun, .inl hover⟩
      · cases htwin
    | ok v =>
      obtain hover | htwin := htwin
      · cases hover
      cases htwin with
      | ok ht hnone =>
        rw [← hm.entry] at hentry'
        obtain ⟨e, hentry, htwin⟩ := callEnds_twin hm hentry' he' ht hnone
        obtain ⟨fuel, hrun⟩ := run_of_ends (s := .start) hz hinit hentry
        exact ⟨fuel, e, hrun, htwin⟩

end

end Cascade.Machine
