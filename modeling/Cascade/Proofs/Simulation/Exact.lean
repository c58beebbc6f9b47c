import Cascade.Proofs.Machine.Safe
import Cascade.Proofs.Scalar.Integral
import Cascade.Proofs.Simulation.Narrowing

/-!
# Cascade.Proofs.Simulation.Exact

Conversions between integral types never change an integer, in whatever run of whatever compiles.

* `Between`: the places of a call in the code of a constant. Control gets in only at the start, and
  no call is made there.
* `Traced`: where a call is in such code, it has come from its start by steps of its own;
  `visits_traced`: this holds in every state of a run.
* `conversions_exact`: what every executed conversion does.
-/

namespace Cascade.Simulation

open Code Machine Codegen
open Syntax.Build

def filled (b : Builder) : Nat := (b.blocks[b.current]?.map fun blk => blk.code.length).getD 0

theorem filled_eq {b : Builder} {blk : Block} (h : b.blocks[b.current]? = some blk) :
    filled b = blk.code.length := by
  rw [filled, h]
  rfl

/-- A place in the code from one builder to a later one, where the start and the end count as
well. -/
structure Between (b₁ b₂ : Builder) (k n : Nat) : Prop where
  entered : k = b₁.current ∧ filled b₁ ≤ n ∨ b₁.blocks.length ≤ k ∧ k < b₂.blocks.length
  before : k = b₂.current → n ≤ filled b₂

/-- One instruction back from such a place is another one, unless it was the start. -/
theorem Between.back {b₁ b₂ : Builder} {k n : Nat} (h : Between b₁ b₂ k (n + 1))
    (hstart : ¬ (k = b₁.current ∧ n + 1 = filled b₁)) : Between b₁ b₂ k n := by
  refine ⟨?_, fun he => Nat.le_of_succ_le (h.before he)⟩
  obtain ⟨he, hle⟩ | hin := h.entered
  · refine .inl ⟨he, Nat.le_of_lt_succ (Nat.lt_of_le_of_ne hle fun heq => ?_)⟩
    exact hstart ⟨he, heq.symm⟩
  · exact .inr hin

section

variable {b₁ b₂ last : Builder} {r : Register} {v : Scalar} {f : Function}

theorem Stretch.extends (h : Stretch b₁ b₂ last r v) (hf : MadeWith last f) :
    b₂.Extends (wholeOf f) := by
  rw [← hf.whole]
  exact h.seals.grown.trans (Builder.goto_extends _ _)

theorem MadeWith.blocks (hf : MadeWith last f) : last.blocks = f.blocks :=
  congrArg Builder.blocks hf.whole

theorem Stretch.code (h : Stretch b₁ b₂ last r v) (hf : MadeWith last f) {k n : Nat}
    (hw : Between b₁ b₂ k (n + 1)) {blk : Block} (hk : f.blocks[k]? = some blk) {i : Instr}
    (hi : blk.code[n]? = some i) : ∃ blk₂, b₂.blocks[k]? = some blk₂ ∧ blk₂.code[n]? = some i := by
  have hlt : k < b₂.blocks.length := by
    obtain ⟨rfl, -⟩ | ⟨-, hlt⟩ := hw.entered
    · exact Nat.lt_of_lt_of_le h.isOpen.1 h.computes.works.grown.length
    · exact hlt
  have hblk₂ := List.getElem?_eq_getElem hlt
  refine ⟨_, hblk₂, ?_⟩
  by_cases hc : k = b₂.current
  · obtain ⟨blk', more, hk', hcode⟩ := (h.extends hf).code hblk₂
    obtain rfl : blk' = blk := Option.some.inj (hk'.symm.trans hk)
    have hn := hw.before hc
    subst hc
    rw [filled_eq hblk₂] at hn
    rwa [hcode, List.getElem?_append_left hn] at hi
  · have hended := h.computes.works.ended hblk₂ (hw.entered.imp And.left And.left) hc (by simp)
    have hk' := (h.extends hf).closed hblk₂ hended
    obtain rfl := Option.some.inj (hk'.symm.trans hk)
    exact hi

theorem Stretch.behind_call (h : Stretch b₁ b₂ last r v) (hf : MadeWith last f) {k n : Nat}
    (hw : Between b₁ b₂ k (n + 1)) {blk : Block} (hk : f.blocks[k]? = some blk)
    {d : Option Register} {g : FunctionId} (hi : blk.code[n]? = some (.call d g)) :
    k = b₁.current ∧ n + 1 = filled b₁ := by
  obtain ⟨blk₂, hk₂, hi₂⟩ := h.code hf hw hk hi
  obtain ⟨blk₁, hk₁, hi₁⟩ := h.computes.works.calls hk₂ hi₂
  obtain ⟨rfl, hle⟩ | ⟨hle, -⟩ := hw.entered
  · have hlt := (List.getElem?_eq_some_iff.mp hi₁).1
    rw [filled_eq hk₁] at hle ⊢
    exact ⟨rfl, by omega⟩
  · exact absurd (List.getElem?_eq_some_iff.mp hk₁).1 (Nat.not_lt_of_le hle)

/-- From the end of a block, control gets to the start of such code, or it was in it before. -/
theorem Stretch.behind_jump (h : Stretch b₁ b₂ last r v) (hf : MadeWith last f) {j k n : Nat}
    (hw : Between b₁ b₂ k 0) {blk : Block} (hj : f.blocks[j]? = some blk)
    (hk : k ∈ blk.term.targets) (hn : blk.code[n]? = none) :
    k = b₁.current ∧ 0 = filled b₁ ∨ Between b₁ b₂ j n := by
  obtain ⟨rfl, hle⟩ | ⟨hge, hlt⟩ := hw.entered
  · exact .inl ⟨rfl, (Nat.le_zero.mp hle).symm⟩
  · have hblk := List.getElem?_eq_getElem hlt
    -- all ways into the blocks of the constant were there when its code was finished
    obtain ⟨blk₂, hj₂, hk₂⟩ := h.seals.ways (hf.blocks ▸ hj) hk hblk (by
      by_cases hc : k = b₂.current
      · exact .inl hc
      · exact .inr (h.computes.works.ended hblk (.inr hge) hc (by simp)))
    have hj_lt := (List.getElem?_eq_some_iff.mp hj₂).1
    have hcurrent : j ≠ b₂.current := by
      rintro rfl
      have hopen := h.computes.isOpen.2
      rw [Builder.isClosed_eq hj₂, Block.isClosed] at hopen
      cases ht : blk₂.term with
      | unreachable => rw [ht] at hk₂; cases hk₂
      | _ => rw [ht] at hopen; cases hopen
    refine .inr ⟨?_, fun he => absurd he hcurrent⟩
    by_cases hold : b₁.blocks.length ≤ j
    · exact .inr ⟨hold, hj_lt⟩
    · by_cases hc : j = b₁.current
      · subst hc
        refine .inl ⟨rfl, ?_⟩
        obtain ⟨blk', more, hj', hcode⟩ := (h.computes.works.grown.trans (h.extends hf)).code
          (List.getElem?_eq_getElem h.isOpen.1)
        obtain rfl : blk' = blk := Option.some.inj (hj'.symm.trans hj)
        rw [filled_eq (List.getElem?_eq_getElem h.isOpen.1)]
        have := List.getElem?_eq_none_iff.mp hn
        rw [hcode, List.length_append] at this
        omega
      · rw [h.computes.works.others (Nat.lt_of_not_le hold) hc] at hj₂
        exact absurd (h.inRange hj₂ k hk₂) (Nat.not_lt_of_le hge)

end

/-! ## States of a run -/

variable {m : Module} {limits : Limits} {s : State Lines} {fr : Frame} {rest : List Frame}
variable {b₁ b₂ last : Builder} {r : Register} {v : Scalar} {f : Function}

/-- A call that waits for another one to end: it is behind the call instruction. -/
inductive AtCall (m : Module) (fr : Frame) : Prop where
  | intro {f : Function} {b : Block} {n : Nat} {d : Option Register} {g : FunctionId} :
      m.functions[fr.function]? = some f → f.block? fr.block = some b → fr.next = n + 1 →
      b.code[n]? = some (.call d g) → AtCall m fr

/-- Where the innermost call is in the code of a constant, it has come from its start by steps of
its own. -/
structure Traced (m : Module) (limits : Limits) (s : State Lines) : Prop where
  waits : ∀ fr ∈ s.frames.tail, AtCall m fr
  since : ∀ {fr : Frame} {rest : List Frame} {f : Function} {last b₁ b₂ : Builder} {r : Register}
    {v : Scalar}, s.frames = fr :: rest → m.functions[fr.function]? = some f.prune →
    MadeWith last f → Stretch b₁ b₂ last r v → Between b₁ b₂ fr.block fr.next →
    ∃ s₀ fr₀, Behind m f rest b₁ s₀ fr₀ ∧ Inside m limits rest s₀ s

theorem MadeWith.block (hf : MadeWith last f) {k : BlockId} {blk : Block}
    (h : f.prune.block? k = some blk) : f.blocks[k]? = some blk := by
  rw [← hf.coherent.block?_place hf.numbered]
  exact hf.coherent.block?_of_prune h

/-- In a sound state, a call at the right place is behind what a builder has made so far. -/
theorem behind_of_sound {g : Signature} {result : Ty} {written : List (List Nat)}
    (h : Machine.Sound m g result s written) (hs : s.frames = fr :: rest)
    (hf : m.functions[fr.function]? = some f.prune) (hcoherent : f.Coherent) {b : Builder}
    (hb : b.Open) (hblock : fr.block = b.current) (hnext : fr.next = filled b) :
    Behind m f rest b s fr := by
  cases h with
  | intro _ hfr _ _ =>
    obtain ⟨rfl, rfl⟩ := List.cons.inj hs
    obtain rfl := Option.some.inj (hf.symm.trans hfr.found)
    have hblk := List.getElem?_eq_getElem hb.1
    exact ⟨rfl, hf, hfr.leads.of_prune hcoherent, hfr.start, hfr.extent.symm, _, hblk, hblock,
      hnext.trans (filled_eq hblk)⟩

/-- Where a call begins, only the start of such code can be. -/
theorem entered_since {g : Signature} {result : Ty} {written : List (List Nat)} {s' : State Lines}
    {j : FunctionId} {dest : Option Register} (hp : s.push m limits j dest = .ok s')
    (hs' : Machine.Sound m g result s' written) (hfr : s'.frames = fr :: rest)
    (hf : m.functions[fr.function]? = some f.prune) (hmade : MadeWith last f)
    (hst : Stretch b₁ b₂ last r v) (hw : Between b₁ b₂ fr.block fr.next) :
    ∃ s₀ fr₀, Behind m f rest b₁ s₀ fr₀ ∧ Inside m limits rest s₀ s' := by
  cases State.push_pushes hp with
  | entered hg _ _ _ =>
    obtain ⟨rfl, rfl⟩ := List.cons.inj hfr
    obtain rfl := Option.some.inj (hg.symm.trans hf)
    obtain ⟨he, hle⟩ | ⟨hle, -⟩ := hw.entered
    · exact ⟨_, _, behind_of_sound hs' rfl hf hmade.coherent hst.isOpen he
        (Nat.le_zero.mp hle).symm, .refl⟩
    · have hle : b₁.blocks.length ≤ f.entry := hle
      rw [hmade.entry] at hle
      exact absurd hst.isOpen.1 (Nat.not_lt_of_le (Nat.le_trans hle (Nat.zero_le _)))

theorem Traced.step {g : Signature} {result : Ty} {written : List (List Nat)} {s' : State Lines}
    (h : Traced m limits s) (hstep : step m limits s = .next s')
    (hs' : Machine.Sound m g result s' written) : Traced m limits s' := by
  obtain ⟨fr, rest, hs⟩ := frames_of_next hstep
  have hwaits : ∀ fr ∈ rest, AtCall m fr := by
    have := h.waits
    rwa [hs] at this
  -- where the step leads to the start of the code, the trace begins
  have hstart : ∀ {fr' : Frame} {rest' : List Frame} {f : Function} {last b₁ b₂ : Builder}
      {r : Register} {v : Scalar}, s'.frames = fr' :: rest' →
      m.functions[fr'.function]? = some f.prune → MadeWith last f → Stretch b₁ b₂ last r v →
      fr'.block = b₁.current → fr'.next = filled b₁ →
      ∃ s₀ fr₀, Behind m f rest' b₁ s₀ fr₀ ∧ Inside m limits rest' s₀ s' :=
    fun hfr hf hmade hst hblock hnext =>
      ⟨s', _, behind_of_sound hs' hfr hf hmade.coherent hst.isOpen hblock hnext, .refl⟩
  obtain ⟨f₀, b, hf₀, hb, hmoves⟩ := next_moves hs hstep
  cases hmoves with
  | @instr i c fields output hi hcall hwrites =>
    refine ⟨hwaits, fun {fr' rest' f last b₁ b₂ r v} hfr hf hmade hst hw => ?_⟩
    obtain ⟨rfl, rfl⟩ := List.cons.inj hfr
    by_cases hat : fr.block = b₁.current ∧ fr.next + 1 = filled b₁
    · exact hstart rfl hf hmade hst hat.1 hat.2
    · obtain ⟨s₀, fr₀, hbehind, hin⟩ := h.since hs hf hmade hst (Between.back hw hat)
      exact ⟨s₀, fr₀, hbehind, hin.trans (.single hs hstep rfl)⟩
  | call hi hp =>
    refine ⟨?_, fun hfr hf hmade hst hw => entered_since hp hs' hfr hf hmade hst hw⟩
    cases State.push_pushes hp with
    | entered _ _ _ _ => exact List.forall_mem_cons.mpr ⟨.intro hf₀ hb rfl hi, hwaits⟩
  | jump hn hl =>
    refine ⟨hwaits, fun {fr' rest' f last b₁ b₂ r v} hfr hf hmade hst hw => ?_⟩
    obtain ⟨rfl, rfl⟩ := List.cons.inj hfr
    obtain rfl := Option.some.inj (hf₀.symm.trans hf)
    obtain ⟨he, hfilled⟩ | hw' := hst.behind_jump hmade hw (hmade.block hb) hl hn
    · exact hstart rfl hf hmade hst he hfilled
    · obtain ⟨s₀, fr₀, hbehind, hin⟩ := h.since hs hf hmade hst hw'
      exact ⟨s₀, fr₀, hbehind, hin.trans (.single hs hstep rfl)⟩
  | returned _ _ _ =>
    refine ⟨fun fr' hfr' => hwaits fr' (List.mem_of_mem_tail hfr'),
      fun {fr' rest' f last b₁ b₂ r v} hfr hf hmade hst hw => ?_⟩
    have hfr : rest = fr' :: rest' := hfr
    obtain ⟨hf', hb', hnext, hcall⟩ := hwaits fr' (hfr ▸ List.mem_cons_self)
    obtain rfl := Option.some.inj (hf.symm.trans hf')
    rw [hnext] at hw
    obtain ⟨he, hfilled⟩ := hst.behind_call hmade hw (hmade.block hb') hcall
    exact hstart hfr hf hmade hst he (hnext.trans hfilled)

theorem visits_traced {g : Signature} (hm : m.Fits g) {j : FunctionId} {f : Function}
    (hj : m.functions[j]? = some f) {s₀ : State Lines} (hs₀ : s₀.frames = [])
    (hworld : s₀.fields.map Scalar.ty = g.fields) {written : List (List Nat)}
    (h : Visits m limits j s₀ s written) : Traced m limits s := by
  induction h with
  | entered hp =>
    have hs := visits_sound hm hj hs₀ hworld (.entered hp)
    refine ⟨?_, fun hfr hf hmade hst hw => entered_since hp hs hfr hf hmade hst hw⟩
    cases State.push_pushes hp with
    | entered _ _ _ _ => rw [List.tail_cons, hs₀]; exact nofun
  | next hv hstep ih => exact ih.step hstep (visits_sound hm hj hs₀ hworld (.next hv hstep))

/-! ## Conversions -/

theorem Traced.reads {rank : BlockId → Nat} (h : Traced m limits s) (hs : s.frames = fr :: rest)
    (hf : m.functions[fr.function]? = some f.prune) (hrank : f.prune.Descends rank)
    (hmade : MadeWith last f) (hst : Stretch b₁ b₂ last r v) (hblock : fr.block = b₂.current)
    (hnext : fr.next = filled b₂) : fr.read s.slots r = .ok v := by
  have hopen := hst.computes.isOpen.1
  have hw : Between b₁ b₂ fr.block fr.next := by
    refine ⟨?_, fun _ => Nat.le_of_eq hnext⟩
    rw [hblock, hnext]
    obtain he | hle := hst.computes.works.current
    · refine .inl ⟨he, ?_⟩
      obtain ⟨blk', more, hk', hcode⟩ := hst.computes.works.grown.code
        (List.getElem?_eq_getElem hst.isOpen.1)
      rw [filled_eq (List.getElem?_eq_getElem hst.isOpen.1), filled_eq (he ▸ hk'), hcode,
        List.length_append]
      exact Nat.le_add_right _ _
    · exact .inr ⟨hle, hopen⟩
  obtain ⟨s₀, fr₀, hbehind, hin⟩ := h.since hs hf hmade hst hw
  obtain ⟨s', fr', hin', hexec⟩ := hst.computes.executes limits hmade.numbered
    hmade.coherent (hst.extends hmade) hbehind
  obtain ⟨blk, hblk, hblock', hnext'⟩ := hexec.behind.place
  obtain rfl : s = s' := Inside.unique hrank hbehind.frames hbehind.found hin hin' hs
    hexec.behind.frames (hblock.trans hblock'.symm)
    (hnext.trans ((filled_eq hblk).trans hnext'.symm))
  obtain ⟨rfl, -⟩ := List.cons.inj (hs.symm.trans hexec.behind.frames)
  exact hexec.reads

/-- What an executed conversion does: its operand is an integer, and its destination becomes a value
that stands for the same integer. -/
def Converted (m : Module) (limits : Limits) (s : State Lines) (fr : Frame) (d r : Register) :
    Prop :=
  ∃ x y n s', fr.read s.slots r = .ok x ∧ x.convert d.ty = some y ∧ x.toInt? = some n ∧
    y.toInt? = some n ∧ step m limits s = .next s' ∧ fr.read s'.slots d = .ok y

theorem Traced.converted {g : Signature} {result : Ty} {written : List (List Nat)}
    (h : Traced m limits s) (hsound : Machine.Sound m g result s written)
    (hs : s.frames = fr :: rest) (hf : m.functions[fr.function]? = some f.prune)
    {rank : BlockId → Nat} (hrank : f.prune.Descends rank) (hmade : MadeWith last f)
    {d : Register} (hnext : next? m fr = some (.inl (.convert d r)))
    (hr : r.ty.isIntegral = true) (hd : d.ty.isIntegral = true) :
    Converted m limits s fr d r := by
  cases hsound with
  | @intro c fr rest fields output steps w ws f₀ cert hworld hfr hexp _ =>
    obtain ⟨rfl, rfl⟩ := List.cons.inj hs
    obtain rfl := Option.some.inj (hf.symm.trans hfr.found)
    obtain ⟨b, hblk, hexp⟩ := hexp
    obtain ⟨b', hblk', hfits⟩ := hfr.fits.block fr.block hfr.leads
    obtain rfl : b = b' := Option.some.inj (hblk.symm.trans hblk')
    have hi : b.code[fr.next]? = some (.convert d r) := by
      simp only [next?, hf, hblk] at hnext
      split at hnext
      · cases hnext
        assumption
      · cases hnext
    cases (hfits.code.get hi).mono (.refl _) hexp with
    | convert hdecl hhas hnum =>
      obtain ⟨x, hx, htx⟩ := hfr.read hhas
      obtain ⟨n, hn⟩ := Scalar.toInt?_isSome (x := x) (htx ▸ hr)
      have hfits : x.fits d.ty = true := by
        obtain hwide | ⟨b₁, b₂, v, blk, hst, hfit, hblock, hcur, hlen⟩ :=
          hmade.careful (hmade.blocks ▸ hmade.block hblk) hi hr hd
        · exact (Scalar.fits_iff_holds hn d.ty).mpr ((htx ▸ Scalar.toInt?_holds hn).widen hwide hd)
        · have hread := h.reads rfl hf hrank hmade hst hblock (hlen.trans (filled_eq hcur).symm)
          obtain rfl : x = v := Except.ok.inj (hx.symm.trans hread)
          exact hfit
      obtain ⟨y, hy, hval⟩ := (Scalar.fits_iff_convert hn d.ty).mp hfits
      have hlt : fr.registers + d.id < c.top := by
        have := register_lt hfr.fits hdecl
        have := hfr.extent
        omega
      refine ⟨x, y, n, ⟨c.put (fr.registers + d.id) y, fr.advance :: rest, fields, output,
        steps + 1⟩, hx, hy, hn, hval, ?_, Slots.get_ok (Slots.put_self hlt y)⟩
      simp only [Machine.step, hf, hblk, hi, execInstr, hx, hy]
      exact if_pos hlt

/-- In every run of whatever compiles, with any limits, every conversion between integral types that
is executed gives the integer that it gets. -/
theorem conversions_exact {settings : Settings} {p : Syntax.Program} {c : Compiled}
    (h : compile settings p = .ok c) {limits : Limits} {s : State Lines} {written : List (List Nat)}
    (hr : RunState c.code limits s written) {fr : Frame} {rest : List Frame}
    (hs : s.frames = fr :: rest) {d r : Register}
    (hnext : next? c.code fr = some (.inl (.convert d r))) (hri : r.ty.isIntegral = true)
    (hdi : d.ty.isIntegral = true) : Converted c.code limits s fr d r := by
  obtain ⟨hw, hcode⟩ := compile_ok h
  obtain ⟨code, hcode', hm⟩ := Codegen.lowerProgram_fits hw
  obtain rfl : c.code = code := Except.ok.inj (hcode.symm.trans hcode')
  have hvisits : ∀ {j : FunctionId} {f : Function} {s₀ : State Lines},
      c.code.functions[j]? = some f → s₀.frames = [] →
      s₀.fields.map Scalar.ty = c.typed.signature.fields → Visits c.code limits j s₀ s written →
      Converted c.code limits s fr d r := by
    intro j f s₀ hj hs₀ hworld hv
    obtain ⟨f', hf'⟩ : ∃ f', c.code.functions[fr.function]? = some f' := by
      cases hf' : c.code.functions[fr.function]? with
      | none => simp only [next?, hf', reduceCtorEq] at hnext
      | some f' => exact ⟨f', rfl⟩
    have hmem := List.mem_of_getElem? hf'
    obtain ⟨rank, hrank⟩ := lowerProgram_descends hw hcode hmem
    obtain ⟨last, f', rfl, hmade⟩ := lowerProgram_madeWith hw hcode hmem
    exact (visits_traced hm hj hs₀ hworld hv).converted (visits_sound hm hj hs₀ hworld hv) hs hf'
      hrank hmade hnext hri hdi
  cases hr with
  | zeroed _ => cases hs
  | initializer hz hv =>
    obtain ⟨init, hinit, -⟩ := hm.initializer
    exact hvisits hinit rfl (zeros_typed hm hz) hv
  | entry hz hinit hv =>
    obtain ⟨t, ht⟩ : ∃ t, c.typed.signature.methods[c.code.entry]? = some t :=
      ⟨_, List.getElem?_eq_getElem hm.entry⟩
    obtain ⟨entry, hentry, -⟩ := hm.methods ht
    cases initializer_safe hm hz hinit with
    | returned _ hframes hworld => exact hvisits hentry hframes hworld hv
  | ended hrun =>
    obtain ⟨t, ht⟩ : ∃ t, c.typed.signature.methods[c.code.entry]? = some t :=
      ⟨_, List.getElem?_eq_getElem hm.entry⟩
    cases run_safe hm ht hrun with
    | returned _ hframes _ => rw [hframes] at hs; cases hs
    | failed _ hframes _ => rw [hframes] at hs; cases hs

/-- A program that stores the constant 1 into a narrower type. -/
def narrowed : Syntax.Program :=
  withMethod (emptyClass "Main") (method .void "main" [declare .short "k" (some (int 1))])

theorem narrowed_exact : ∃ c s fr rest d r, compile .default narrowed = .ok c ∧
    s.frames = fr :: rest ∧ next? c.code fr = some (.inl (.convert d r)) ∧ r.ty = .int ∧
      d.ty = .short ∧ Converted c.code .default s fr d r := by
  obtain ⟨c, hc, s, written, fr, rest, d, r, hr, hs, hnext, hri, hdi⟩ :
      ∃ c, compile .default narrowed = .ok c ∧ ∃ s written fr rest d r,
        RunState c.code .default s written ∧ s.frames = fr :: rest ∧
        next? c.code fr = some (.inl (.convert d r)) ∧ r.ty = .int ∧ d.ty = .short :=
    ⟨_, compile_eq rfl rfl, _, _, _, _, _, _, .entry (v := none) rfl (.entered rfl (.done rfl))
      (.next (.entered rfl) rfl), rfl, rfl, rfl, rfl⟩
  exact ⟨c, s, fr, rest, d, r, hc, hs, hnext, hri, hdi,
    conversions_exact hc hr hs hnext (by rw [hri]; rfl) (by rw [hdi]; rfl)⟩

end Cascade.Simulation
