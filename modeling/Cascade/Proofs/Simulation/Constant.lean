import Cascade.Proofs.Codegen.Lowering
import Cascade.Proofs.Codegen.CallFree
import Cascade.Proofs.Machine.Inside
import Cascade.Proofs.Machine.Isolation
import Cascade.Proofs.Simulation.Logical
import Cascade.Proofs.Typing.Constant
import Cascade.Syntax.Build

/-!
# Cascade.Proofs.Simulation.Constant

The code of an expression with a constant value computes that value, wherever it is put and
whatever the memory is. Folding takes both operands of a logical operator, execution only one if it
decides, and both come to the same.

* `Computes`: code that leaves a value in a register and touches nothing else.
* `genExpr_computes`: the code of a constant expression, by induction on the expression.
* `constant_executes`: the same for every accepted expression, as steps of the call alone.
-/

namespace Cascade.Simulation

open Code Machine Codegen
open Syntax.Build
open Typed (Memory)

variable {b b' : Builder} {r : Register} {v : Scalar}

/-- In every call that has the code up to builder `b'`, the code from builder `b` leads to where a
register holds a value, and leaves the memory as it is. -/
def Delivers (b : Builder) (rb : Register × Builder) (v : Scalar) : Prop :=
  ∀ (A : Activation) (m : Module) (limits : Limits) (s : State Lines) (μ : Memory), A.Of m →
    rb.2.Extends A.builder → μ.locals.length ≤ b.locals.length → Stands A b s μ →
    ∃ s', Steps m limits s s' ∧ Given A b rb s v μ s'

/-- The code from one builder to a later one leaves a value in a register and keeps to blocks of
its own. -/
structure Computes (b b' : Builder) (r : Register) (v : Scalar) : Prop where
  works : b.CallFree b' []
  isOpen : b'.Open
  ty : r.ty = v.ty
  lt : r.id < b'.registers
  delivers : Delivers b (r, b') v

theorem computes_write (h : b.CallFree b' []) (ho : b'.Open) {ty : Ty} {i : Instr}
    (hi : called? i = none) (hty : ty = v.ty)
    (hdelivers : Delivers b (⟨b'.registers, ty⟩, (b'.newRegister ty).2.emit i) v) :
    Computes b ((b'.newRegister ty).2.emit i) ⟨b'.registers, ty⟩ v where
  works := h.write ho.2 ty hi
  isOpen := ho.write ty i
  ty := hty
  lt := Nat.lt_succ_self _
  delivers := hdelivers

theorem constant_computes (ho : b.Open) (v : Scalar) :
    Computes b (b.constant v).2 (b.constant v).1 v :=
  computes_write (.refl ho.1) ho rfl rfl
    fun _ _ limits _ _ hA hb _ hs => constant_given limits hA hs hb

theorem Computes.further (h : Computes b b' r v) {w : Scalar} {ty : Ty} {i : Instr}
    (hi : called? i = none) (hty : ty = w.ty)
    (hgiven : ∀ (A : Activation) (m : Module) (limits : Limits) (s : State Lines) (μ : Memory),
      A.Of m → ((b'.newRegister ty).2.emit i).Extends A.builder → Stands A b' s μ →
      Holds A s r.id v → ∃ s', Steps m limits s s' ∧
        Given A b' (⟨b'.registers, ty⟩, (b'.newRegister ty).2.emit i) s w μ s') :
    Computes b ((b'.newRegister ty).2.emit i) ⟨b'.registers, ty⟩ w := by
  refine computes_write h.works h.isOpen hi hty fun A m limits s μ hA hb hμ hs => ?_
  obtain ⟨s1, hs1, hg1⟩ := h.delivers A m limits s μ hA
    ((Builder.write_extends h.isOpen.2 _ _).trans hb) hμ hs
  obtain ⟨s2, hs2, hg2⟩ := hgiven A m limits s1 μ hA hb hg1.stands hg1.holds
  exact ⟨s2, hs1.trans hs2, hg2.after hg1.kept h.works.grown.registers⟩

theorem Computes.convert (h : Computes b b' r v) {ty : Ty} {w : Scalar} (hne : r.ty ≠ ty)
    (hw : v.convert ty = some w) :
    Computes b (Codegen.convert b' r ty).2 (Codegen.convert b' r ty).1 w := by
  have hgiven := fun (A : Activation) m limits s μ (hA : A.Of m) hb hs hr =>
    convert_given (b := b') (s := s) (μ := μ) limits hA hs hne hr hw hb
  unfold Codegen.convert at hgiven ⊢
  rw [if_neg hne] at hgiven ⊢
  exact h.further rfl (Scalar.ty_convert hw).symm hgiven

theorem Computes.unary (h : Computes b b' r v) (op : UnaryOp) {ty : Ty}
    (hty : ty = (Scalar.unary op v).ty) :
    Computes b ((b'.newRegister ty).2.emit (.unary ⟨b'.registers, ty⟩ op r)) ⟨b'.registers, ty⟩
      (Scalar.unary op v) :=
  h.further rfl hty fun _ _ limits _ _ hA hb hs hr => unary_given limits hA hs hr hb

theorem Computes.binary {b'' : Builder} {r' : Register} {w x : Scalar} (h : Computes b b' r v)
    (h' : Computes b' b'' r' w) {op : BinaryOp} {ty : Ty} (hx : Scalar.binary op v w = .ok x)
    (hty : ty = x.ty) :
    Computes b ((b''.newRegister ty).2.emit (.binary ⟨b''.registers, ty⟩ op r r'))
      ⟨b''.registers, ty⟩ x := by
  refine computes_write (h.works.trans h'.works) h'.isOpen rfl hty ?_
  intro A m limits s μ hA hb hμ hs
  have hext2 := (Builder.write_extends h'.isOpen.2 _ _).trans hb
  obtain ⟨s1, hs1, hg1⟩ := h.delivers A m limits s μ hA (h'.works.grown.trans hext2) hμ hs
  obtain ⟨s2, hs2, hg2⟩ := h'.delivers A m limits s1 μ hA hext2
    (Nat.le_trans hμ h.works.grown.locals_le) hg1.stands
  have hl : Holds A s2 r.id v := hg2.kept _ _ h.lt hg1.holds
  obtain ⟨s3, hs3, hg3⟩ := binary_given limits hA hg2.stands hl hg2.holds hx hb
  exact ⟨s3, (hs1.trans hs2).trans hs3, (hg3.after hg2.kept h'.works.grown.registers).after
    hg1.kept h.works.grown.registers⟩

/-! ## Logical operators -/

section

theorem At.resume {A : Activation} {s : State Lines} {μ : Memory} {waiting : List BlockId}
    {k : BlockId} (h : b.CallFree b' waiting) (hk : k ∈ waiting) (hat : At A k 0 s μ) :
    Stands A (b'.goto k) s μ := by
  obtain ⟨-, -, label, hblk⟩ := h.waits k hk
  exact hat.enter hblk rfl

variable {d : Draft} (ho : d.b.Open) (op : LogicalOp) (result : LocalIndex) (left : Register)
include ho

theorem skipped_meets {A : Activation} {m : Module} (limits : Limits) {s : State Lines} {μ : Memory}
    {a : Scalar} (hA : A.Of m) (h : Stands A d.b s μ) (hl : Holds A s left.id a)
    (hbeyond : μ.locals.length ≤ result) (hresult : result < A.code.locals.length)
    (hb : (d.skipped op result left).b.Extends A.builder) (ha : a.isTrue = (op == .or)) :
    ∃ s', Steps m limits s s' ∧
      Meets A d.b.registers s result (d.b.blocks.length + 2) (.ofBool a.isTrue) μ s' := by
  have ho1 := short_isOpen ho op left
  have htruth := (skipped_grown ho op result left).trans hb
  obtain ⟨s1, hs1, hslots, hat⟩ :=
    branch_goes limits hA h hl ((branch_grown ho op result left).trans hb)
  rw [if_pos ha] at hat
  have hst1 : Stands A (d.short op left).b s1 μ := hat.resume (branch_callFree ho op left) (by simp)
  obtain ⟨s2, hs2, hg2⟩ := write_given limits hA hst1 (v := .ofBool (op == .or)) htruth
    fun _ _ => rfl
  obtain ⟨s3, hs3, hm⟩ := store_meets limits hA hg2.stands hg2.holds hbeyond hresult
    (ho1.write _ _).2 hb d.b.registers
  refine ⟨s3, (hs1.trans hs2).trans hs3, hm.arrived, ?_, ha ▸ hm.truth⟩
  exact ((Kept.of_slots hslots _).trans (Nat.le_refl _) hg2.kept).trans (Nat.le_refl _) hm.kept

theorem skipped_stands {A : Activation} {m : Module} (limits : Limits) {s : State Lines}
    {μ : Memory} {a : Scalar} (hA : A.Of m) (h : Stands A d.b s μ) (hl : Holds A s left.id a)
    (hb : (d.branch op left).b.Extends A.builder) (ha : ¬ a.isTrue = (op == .or)) :
    ∃ s', Steps m limits s s' ∧ s'.slots = s.slots ∧ Stands A (d.right op result left).b s' μ := by
  obtain ⟨s1, hs1, hslots, hat⟩ := branch_goes limits hA h hl hb
  rw [if_neg ha] at hat
  exact ⟨s1, hs1, hslots, hat.resume (skipped_callFree ho op result left) (by simp)⟩

end

section

variable {d d' : Draft} {op : LogicalOp} {result : LocalIndex} {left right : Register}
variable {a c z : Scalar} {w : List Nat}

theorem combine_eq (op : LogicalOp) (x y : Bool) :
    op.combine x y = if x = (op == .or) then x else y := by
  cases op <;> cases x <;> rfl

/-- Both ways through a logical operator lead to the truth value that folding tells. -/
theorem Computes.logical (ho : b.Open) (hl : Computes (b.newLocal .truth).2 d.b left a)
    (hr : Computes (d.right op b.locals.length left).b d'.b right c)
    (hz : Scalar.zero? c.ty = some z) :
    Computes b (d'.fetched z right b.locals.length (d.b.blocks.length + 2) w).b
      ⟨(d'.met z right b.locals.length (d.b.blocks.length + 2) w).b.registers, .truth⟩
      (.ofBool (op.combine a.isTrue c.isTrue)) := by
  let k := d.b.blocks.length + 2
  have hright := (right_callFree hl.isOpen op b.locals.length left).trans hr.works
  have hjoined : d.b.CallFree (d'.joined z right b.locals.length k).b [k] :=
    joined_callFree hr.isOpen hright k
  have hmet : d.b.CallFree (d'.met z right b.locals.length k w).b [] :=
    hjoined.goto (Builder.isClosed_close (noted_isOpen hr.isOpen).1 rfl) (by simp) (by grind)
  have hopen : (d'.met z right b.locals.length k w).b.Open :=
    hjoined.goto_isOpen (by simp)
  have hall := (((Builder.CallFree.refl ho.1).newLocal .truth).trans hl.works).trans hmet
  refine computes_write hall hopen rfl rfl ?_
  intro A m limits s μ hA hb hμ hs
  have hfetched := (Builder.write_extends hopen.2 _ _).trans hb
  have hjoin := (Builder.goto_extends _ _).trans hfetched
  have hr' := (joined_grown hr.isOpen k).trans hjoin
  have hskipped := ((Builder.goto_extends _ _).trans hr.works.grown).trans hr'
  have hl' := (right_callFree hl.isOpen op b.locals.length left).grown.trans
    (hr.works.grown.trans hr')
  have hlt : b.locals.length < d.b.locals.length :=
    Nat.lt_of_lt_of_le (by simp [Builder.newLocal]) hl.works.grown.locals_le
  have hresult := local_lt hl' hlt
  obtain ⟨s1, hs1, hg1⟩ := hl.delivers A m limits s μ hA hl'
    (Nat.le_trans hμ (by simp [Builder.newLocal])) hs
  -- behind the block where both ways meet
  have hread : ∀ {s' : State Lines} {x : Scalar},
      Meets A d.b.registers s1 b.locals.length k x μ s' →
      ∃ s'', Steps m limits s' s'' ∧ Given A b
        (⟨(d'.met z right b.locals.length k w).b.registers, .truth⟩,
          (d'.fetched z right b.locals.length k w).b) s x μ s'' := by
    intro s' x hm
    have hget := Slots.get_ok hm.truth
    obtain ⟨s'', hs'', hg⟩ := write_given limits hA (hm.arrived.resume hjoined (by simp)) (v := x)
      hb fun _ _ => by simp only [execInstr, Activation.state, Activation.frame, hget]; rfl
    exact ⟨s'', hs'', hg.stands, (hg1.kept.trans hl.works.grown.registers hm.kept).trans
      hall.grown.registers hg.kept, hg.holds⟩
  rw [combine_eq]
  split
  · rename_i ha
    obtain ⟨s2, hs2, hm⟩ := skipped_meets hl.isOpen op b.locals.length left limits hA hg1.stands
      hg1.holds hμ hresult hskipped ha
    obtain ⟨s3, hs3, hg3⟩ := hread hm
    exact ⟨s3, (hs1.trans hs2).trans hs3, hg3⟩
  · rename_i ha
    obtain ⟨s2, hs2, hslots, hst2⟩ := skipped_stands hl.isOpen op b.locals.length left limits hA
      hg1.stands hg1.holds ((branch_grown hl.isOpen op b.locals.length left).trans hskipped) ha
    have hgrown := (right_callFree hl.isOpen op b.locals.length left).grown
    have hlocals := hgrown.locals_le
    obtain ⟨s3, hs3, hg3⟩ := hr.delivers A m limits s2 μ hA hr' (by omega) hst2
    obtain ⟨s4, hs4, hm⟩ := noted_meets limits hA hr.isOpen hg3.stands hg3.holds hr.lt hz hμ
      hresult hjoin
    obtain ⟨s5, hs5, hg5⟩ := hread (x := .ofBool c.isTrue)
      ⟨hm.arrived, ((Kept.of_slots hslots _).trans hgrown.registers hg3.kept).trans
        hright.grown.registers hm.kept, hm.truth⟩
    exact ⟨s5, (((hs1.trans hs2).trans hs3).trans hs4).trans hs5, hg5⟩

end

/-! ## Expressions -/

theorem Computes.value {p : Typed.Program} {e : Typed.Expr}
    (h : ∃ r b', genExpr p b e = .ok (some r, b') ∧ Computes b b' r v) :
    ∃ r b', needValue e.span (genExpr p b e) = .ok (r, b') ∧ Computes b b' r v := by
  obtain ⟨r, b', hr, hc⟩ := h
  exact ⟨r, b', by rw [hr]; rfl, hc⟩

/-- The code of a constant expression can be made in every open block, and it computes the
constant. -/
theorem genExpr_computes (p : Typed.Program) {g : Signature} {slots : List Ty} {e : Typed.Expr}
    (he : e.WellTyped g slots) : ∀ {v : Scalar}, e.constant? = some v → ∀ {b : Builder}, b.Open →
      ∃ r b', genExpr p b e = .ok (some r, b') ∧ Computes b b' r v := by
  induction he with
  | @const v span =>
    intro w hv b ho
    cases hv
    exact ⟨_, _, rfl, constant_computes ho v⟩
  | @convert e ty span he hc ih =>
    intro v hv b ho
    simp only [Typed.Expr.constant?] at hv
    split at hv
    · rename_i w hw
      obtain ⟨r, b1, hr, h1⟩ := Computes.value (ih hw ho)
      have hne : r.ty ≠ ty := by
        rw [h1.ty, Typed.constant?_ty he w hw]
        exact hc.1
      exact ⟨_, _, by simp only [genExpr, hr, valued], h1.convert hne hv⟩
    · cases hv
  | @unary op e span he hn ih =>
    intro v hv b ho
    simp only [Typed.Expr.constant?] at hv
    split at hv
    · rename_i w hw
      cases hv
      obtain ⟨r, b1, hr, h1⟩ := Computes.value (ih hw ho)
      refine ⟨_, _, by simp only [genExpr, hr]; rfl, h1.unary op ?_⟩
      rw [Scalar.ty_unary, Typed.constant?_ty he w hw]
    · cases hv
  | @binary op l r span hl hr hlr hn ihl ihr =>
    intro v hv b ho
    simp only [Typed.Expr.constant?] at hv
    split at hv
    · rename_i x y hx hy
      cases hxy : Scalar.binary op x y with
      | error e => rw [hxy] at hv; cases hv
      | ok w =>
        rw [hxy] at hv
        cases hv
        obtain ⟨rl, b1, hrl, h1⟩ := Computes.value (ihl hx ho)
        obtain ⟨rr, b2, hrr, h2⟩ := Computes.value (ihr hy h1.isOpen)
        refine ⟨_, _, by simp only [genExpr, hrl, hrr]; rfl, h1.binary h2 hxy ?_⟩
        rw [(Scalar.ty_binary hxy).2, Typed.constant?_ty hl x hx]
    · cases hv
  | @logical op l r span hl hr hnl hnr ihl ihr =>
    intro v hv b ho
    simp only [Typed.Expr.constant?] at hv
    split at hv
    · rename_i x y hx hy
      cases hv
      obtain ⟨rl, b1, hrl, h1⟩ := Computes.value (ihl (b := (b.newLocal .truth).2) hx ho)
      -- nothing needs to be known of the drafts around these builders
      let d : Draft := ⟨b1, [], [], [], [], []⟩
      obtain ⟨rr, b2, hrr, h2⟩ := Computes.value
        (ihr hy (right_isOpen (d := d) h1.isOpen op b.locals.length rl))
      obtain ⟨z, hz⟩ := Scalar.zero?_isSome hnr
      rw [← Typed.constant?_ty hr y hy] at hz
      let d' : Draft := ⟨b2, [], [], [], [], []⟩
      have hopened : openLogical b1 op (b.newLocal .truth).1 rl = _ :=
        openLogical_eq d op b.locals.length rl
      have hclosed : closeLogical b2 _ (b.newLocal .truth).1 rr r.span = _ :=
        closeLogical_eq d' (h2.ty ▸ hz) (b1.blocks.length + 2) b.locals.length [] r.span
      have h2' : Computes (d.right op b.locals.length rl).b d'.b rr y := h2
      refine ⟨_, _, ?_, Computes.logical (w := []) ho h1 h2' hz⟩
      simp only [genExpr, hrl, hopened, hrr]
      rw [show closeLogical b2 _ (b.newLocal .truth).1 rr r.span = _ from hclosed]
      rfl
    · cases hv
  | load _ => intro v hv; cases hv
  | update _ _ => intro v hv; cases hv
  | assign _ _ _ _ => intro v hv; cases hv
  | call _ => intro v hv; cases hv
  | print _ _ _ => intro v hv; cases hv
  | printBlank => intro v hv; cases hv

/-! ## Execution -/

/-- A finished function, seen as what a builder has made. -/
def wholeOf (f : Function) : Builder := ⟨f.locals, f.blocks, f.entry, f.registers⟩

/-- The innermost call of a state runs a function, has its window on top of the slots, and is behind
what a builder has made of the function so far. -/
structure Behind (m : Module) (f : Function) (rest : List Frame) (b : Builder) (s : State Lines)
    (fr : Frame) : Prop where
  frames : s.frames = fr :: rest
  found : m.functions[fr.function]? = some f.prune
  reach : f.Leads f.entry fr.block
  registers : fr.registers = fr.base + f.locals.length
  top : s.slots.top = fr.registers + f.registers
  place : ∃ blk, b.blocks[b.current]? = some blk ∧ fr.block = b.current ∧ fr.next = blk.code.length

/-- What is in the first `n` local variables of a call, and the fields and the lines printed. -/
def memoryOf (s : State Lines) (fr : Frame) (n : Nat) : Memory :=
  ⟨(s.slots.cells.toList.drop fr.base).take n, ⟨s.fields, s.output⟩⟩

theorem memoryOf_locals {s : State Lines} {fr : Frame} {n i : Nat} (hi : i < n) :
    (memoryOf s fr n).locals[i]? = s.slots.cells[fr.base + i]? := by
  rw [memoryOf, List.getElem?_take_of_lt hi, List.getElem?_drop, Array.getElem?_toList]

section

variable {m : Module} {f : Function} {rest : List Frame} {s : State Lines} {fr : Frame}

/-- A call with its function, from a frame. -/
def activationOf (f : Function) (rest : List Frame) (s : State Lines) (fr : Frame) : Activation :=
  ⟨fr.function, f, s.slots.free fr.base, fr.dest, rest⟩

theorem Behind.base_eq (h : Behind m f rest b s fr) :
    (activationOf f rest s fr).base = fr.base :=
  Slots.free_top (by have := h.top; have := h.registers; omega)

theorem Behind.stands (h : Behind m f rest b s fr) (hlocals : b.locals.length ≤ f.locals.length) :
    Stands (activationOf f rest s fr) b s (memoryOf s fr b.locals.length) := by
  obtain ⟨blk, hblk, hblock, hnext⟩ := h.place
  have hbase := h.base_eq
  have hregisters : (activationOf f rest s fr).registers = fr.registers := by
    rw [Activation.registers, hbase, h.registers]
    rfl
  have htop := h.top
  have hreg := h.registers
  refine ⟨blk, hblk, ?_, hblock ▸ h.reach, ?_, ?_, ?_, ?_⟩
  · rw [Activation.state, Activation.frame, hbase, hregisters, ← hblock, ← hnext]
    obtain ⟨slots, frames, fields, output, steps⟩ := s
    cases h.frames
    rfl
  · rw [hregisters]
    exact htop
  · intro i hi
    rw [hbase] at hi
    exact (Slots.free_below hi (by omega)).symm
  · intro i v hi
    have hlt : i < b.locals.length := by
      have := (List.getElem?_eq_some_iff.mp hi).1
      rw [memoryOf, List.length_take] at this
      omega
    rw [memoryOf_locals hlt] at hi
    rw [hbase]
    exact hi
  · rw [memoryOf, List.length_take]
    exact Nat.le_trans (Nat.min_le_left _ _) hlocals

/-- The code has led a call to where a register holds a value. It has not changed the fields, the
lines printed, or any slot up to the local variables made so far. -/
structure Executed (m : Module) (f : Function) (rest : List Frame) (rb : Register × Builder)
    (v : Scalar) (b : Builder) (s s' : State Lines) (fr fr' : Frame) : Prop where
  behind : Behind m f rest rb.2 s' fr'
  same : fr'.base = fr.base
  reads : fr'.read s'.slots rb.1 = .ok v
  fields : s'.fields = s.fields
  output : s'.output = s.output
  slots : ∀ i < fr.base + b.locals.length, s'.slots.cells[i]? = s.slots.cells[i]?

/-- The code of a constant is executed by steps of the call alone, with any limits. -/
theorem Computes.executes (h : Computes b b' r v) (limits : Limits)
    (hnumbered : ∀ {k : Nat} {blk : Block}, f.blocks[k]? = some blk → blk.id = k)
    (hcoherent : f.Coherent) (hb : b'.Extends (wholeOf f)) (hs : Behind m f rest b s fr) :
    ∃ s' fr', Inside m limits rest s s' ∧ Executed m f rest (r, b') v b s s' fr fr' := by
  have hlocals : b.locals.length ≤ f.locals.length :=
    (h.works.grown.trans hb).locals_le
  let A := activationOf f rest s fr
  let μ := memoryOf s fr b.locals.length
  have hA : A.Of m := ⟨hs.found, hnumbered, hcoherent⟩
  have hbase : A.base = fr.base := hs.base_eq
  have hst : Stands A b s μ := hs.stands hlocals
  obtain ⟨_, _, hat⟩ := id hst
  obtain ⟨s', hsteps, hgiven⟩ := h.delivers A m ⟨0, limits.maxRegisters⟩ s μ hA hb
    (by simp only [μ, memoryOf, List.length_take]; exact Nat.min_le_left _ _) hst
  obtain ⟨blk, hblk, hat'⟩ := hgiven.stands
  have hframes : s'.frames = A.frame b'.current blk.code.length :: rest := by
    rw [hat'.state]
    rfl
  refine ⟨s', A.frame b'.current blk.code.length, inside_of_steps rfl limits hs.frames hsteps
    hframes, ⟨hframes, hs.found, hat'.reach, rfl, hat'.window.top, blk, hblk, rfl, rfl⟩, hbase,
    hgiven.holds.read _ _, ?_, ?_, fun i hi => ?_⟩
  · rw [hat'.state]
    rfl
  · rw [hat'.state]
    rfl
  · by_cases hlt : i < fr.base
    · rw [hat'.window.below i (hbase ▸ hlt), hat.window.below i (hbase ▸ hlt)]
    · obtain ⟨j, rfl⟩ := Nat.exists_eq_add_of_le (Nat.le_of_not_lt hlt)
      have hj : j < b.locals.length := by omega
      have htop := hs.top
      have hreg := hs.registers
      have hin : fr.base + j < s.slots.cells.size :=
        show fr.base + j < s.slots.top by omega
      have hval : μ.locals[j]? = some s.slots.cells[fr.base + j] := by
        rw [memoryOf_locals hj, Array.getElem?_eq_getElem hin]
      have h' := hat'.window.locals j _ hval
      rw [hbase] at h'
      rw [h', Array.getElem?_eq_getElem hin]

end

/-- An accepted expression with a constant value has a value of its type, which is the label that
it gives to a case. Its code can be made in every open block. In every function that has the code
and finds its blocks, and in every state of a call of it, the call gets through the code by steps of
its own, without a call or a fault, to where the value is in a register. Fields, lines printed and
earlier local variables are as before. -/
theorem constant_executes {cx : Typing.Context} {scopes : Scopes} {e : Syntax.Expr}
    {t : Typed.Expr} {v : Scalar} (he : Typing.typeExpr cx scopes e = .ok t)
    (hv : t.constant? = some v) :
    v.ty = t.ty ∧ (∀ n, t.label? = some n → v.toInt? = some n) ∧
    ∀ (p : Typed.Program) (b : Builder), b.Open →
      ∃ r b', lowerExpr p t b = .ok (some r, b') ∧ r.ty = t.ty ∧
        ∀ (m : Module) (limits : Limits) (f : Function) (rest : List Frame) (s : State Lines)
          (fr : Frame), (∀ {k : Nat} {blk : Block}, f.blocks[k]? = some blk → blk.id = k) →
          f.Coherent → b'.Extends (wholeOf f) → Behind m f rest b s fr →
          ∃ s' fr', Inside m limits rest s s' ∧ Executed m f rest (r, b') v b s s' fr fr' := by
  have hw : t.WellTyped ⟨[], []⟩ [] := Typing.typeExpr_constant e he hv
  have hty := Typed.constant?_ty hw v hv
  refine ⟨hty, fun n hn => ?_, fun p b ho => ?_⟩
  · simp only [Typed.Expr.label?, hv] at hn
    split at hn
    · exact hn
    · cases hn
  · obtain ⟨r, b', hgen, hc⟩ := genExpr_computes p hw hv ho
    exact ⟨r, b', (lowerExpr_does p t ho.1).same.trans hgen, hc.ty.trans hty,
      fun m limits f rest s fr hnumbered hcoherent hb hs =>
        hc.executes limits hnumbered hcoherent hb hs⟩

theorem push_behind {m : Module} {limits : Limits} {f : Function} {s s' : State Lines}
    {g : FunctionId} {dest : Option Register} (hp : s.push m limits g dest = .ok s')
    (hf : m.functions[g]? = some f.prune) (hentry : f.entry = 0) (locals : List Code.Local) :
    ∃ fr, Behind m f s.frames (.start locals) s' fr := by
  cases State.push_pushes hp with
  | entered hf' hdepth hroom hc =>
    obtain rfl := Option.some.inj (hf.symm.trans hf')
    obtain ⟨htop, -, -⟩ := clearLocals_spec hc (by rw [Slots.grow_top]; omega)
    rw [Slots.grow_top, ← Nat.add_assoc] at htop
    exact ⟨_, rfl, hf, .refl, rfl, htop, _, rfl, hentry, rfl⟩

def disjunction : Syntax.Expr :=
  logical .or (binary .mul (int 2) (int 3)) (binary .div (int 1) (int 4))

/-- A function that consists of the code up to a builder and returns a register. -/
def returning (b : Builder) (r : Register) : Function :=
  (b.close (.ret (some r))).function 0 "f" r.ty .zero

def alone (f : Function) : Module := ⟨"", [], [f.prune], 0, 0⟩

theorem disjunction_executes : ∃ t r b',
    Typing.typeExpr ⟨⟨[], [], []⟩, .default, 0, .void⟩ (.start .reject) disjunction = .ok t ∧
    t.constant? = some (.short 1) ∧
    lowerExpr ⟨"", [], [], 0⟩ t (.start []) = .ok (some r, b') ∧
    ∃ s s' fr', State.start.push (alone (returning b' r)) .default 0 none = .ok s ∧
      Inside (alone (returning b' r)) .default [] s s' ∧ s'.frames = [fr'] ∧
      fr'.read s'.slots r = .ok (.short 1) := by
  obtain ⟨-, -, h⟩ := constant_executes (v := .short 1)
    (rfl : Typing.typeExpr ⟨⟨[], [], []⟩, .default, 0, .void⟩ (.start .reject) disjunction = _) rfl
  obtain ⟨r, b', hgen, -, hexec⟩ := h ⟨"", [], [], 0⟩ (.start []) ⟨Nat.zero_lt_one, rfl⟩
  have hrun := (lowerExpr_does _ _ (start_current [])).same.symm.trans hgen
  have hopen : b'.isClosed = false := by cases hrun; rfl
  have hnumbered : ∀ {k : Nat} {blk : Block}, (returning b' r).blocks[k]? = some blk →
      blk.id = k := by
    have hids : (returning b' r).blocks.map Block.id = List.range 4 := by cases hrun; rfl
    intro k blk hk
    have hid := congrArg (·[k]?) hids
    simp only [List.getElem?_map, hk, Option.map_some] at hid
    obtain ⟨hlt, he⟩ := List.getElem?_eq_some_iff.mp hid.symm
    exact he.symm.trans (List.getElem_range hlt)
  obtain ⟨s, hp⟩ : ∃ s, State.start.push (alone (returning b' r)) .default 0 none = .ok s := by
    cases hrun
    exact ⟨_, rfl⟩
  obtain ⟨fr, hs⟩ := push_behind hp rfl rfl []
  obtain ⟨s', fr', hin, he⟩ := hexec _ .default (returning b' r) _ s fr hnumbered
    Builder.function_coherent
    ((Builder.close_extends hopen (.ret (some r))).trans (Builder.goto_extends _ 0)) hs
  exact ⟨_, r, b', rfl, rfl, hgen, s, s', fr', hp, hin, he.behind.frames, he.reads⟩

end Cascade.Simulation
