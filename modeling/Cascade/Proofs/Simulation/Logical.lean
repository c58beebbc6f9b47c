import Cascade.Proofs.Codegen.Expr
import Cascade.Proofs.Simulation.Ops

/-!
# Cascade.Proofs.Simulation.Logical

What the machine does on the blocks of a logical operator. Both ways through them meet in one
block, with the truth value in a local variable that the memory does not know.

* `decided_meets`: the way on which the left operand decides.
* `right_stands`, `noted_meets`: the way through the right operand.
* `fetched_given`: behind the block where both meet.
-/

namespace Cascade.Simulation

open Code Machine Codegen
open Typed (Memory)

variable {A : Activation} {m : Module} {limits : Limits} {s : State Lines} {μ : Memory}
variable {g : Signature} {returns : Ty} {d : Draft}

/-- The call is at the start of a block where both ways meet, and the truth value is there. -/
structure Meets (A : Activation) (count : Nat) (s : State Lines) (result k : Nat) (v : Scalar)
    (μ : Memory) (s' : State Lines) : Prop where
  arrived : At A k 0 s' μ
  kept : Kept A count s s'
  truth : s'.slots.cells[A.base + result]? = some v

theorem At.goto (hs : d.Sound g returns) {k : Nat} (hk : k < d.b.blocks.length)
    (hfresh : k ∉ d.entered) (h : At A k 0 s μ) : Stands A (d.b.goto k) s μ := by
  have hblk := List.getElem?_eq_getElem hk
  exact h.enter hblk (hs.fresh hblk hfresh).1

theorem Stands.newBlock {b : Builder} (h : Stands A b s μ) (label : String) :
    Stands A (b.newBlock label).2 s μ := by
  obtain ⟨blk, hblk, hat⟩ := h
  exact ⟨blk, Builder.newBlock_keeps hblk label, hat⟩

/-- Local variables that the memory does not know are no part of it. -/
theorem write_beyond {n : Nat} (h : μ.locals.length ≤ n) (v : Scalar) :
    μ.write (.slot n) v = μ := by
  rw [Memory.write, List.set_eq_of_length_le h]

theorem local_lt {b : Builder} (hb : b.Extends A.builder) {n : Nat} (h : n < b.locals.length) :
    n < A.code.locals.length := by
  obtain ⟨more, hmore⟩ := hb.locals
  rw [show A.code.locals = b.locals ++ more from hmore, List.length_append]
  omega

theorem store_meets (limits : Limits) (hA : A.Of m) {b : Builder} (h : Stands A b s μ)
    {r : Register} {v : Scalar} (hr : Holds A s r.id v) {result k : Nat}
    (hbeyond : μ.locals.length ≤ result) (hresult : result < A.code.locals.length)
    (hopen : b.isClosed = false)
    (hb : ((b.emit (.storeLocal result r)).close (.jump k)).Extends A.builder) (count : Nat) :
    ∃ s', Steps m limits s s' ∧ Meets A count s result k v μ s' := by
  have hext := (Builder.close_extends ((Builder.isClosed_emit b (.storeLocal result r)).trans hopen)
    (.jump k)).trans hb
  obtain ⟨s1, hs1, hst1, hk1, hcell⟩ := storeLocal_stands limits hA h hr hresult hext count
  rw [write_beyond hbeyond] at hst1
  obtain ⟨s2, hs2, hat, hslots⟩ := hst1.goes limits hA rfl hb (List.mem_singleton.mpr rfl)
    fun _ _ => rfl
  exact ⟨s2, hs1.trans (.single hs2), hat, hk1.trans (Nat.le_refl _) (.of_slots hslots _),
    by rw [hslots]; exact hcell⟩

section

variable {op : LogicalOp} {result : LocalIndex} {left : Register} {a : Scalar}

theorem branch_goes (limits : Limits) (hA : A.Of m) (h : Stands A d.b s μ)
    (hl : Holds A s left.id a) (hb : (d.branch op left).b.Extends A.builder) :
    ∃ s', Steps m limits s s' ∧ s'.slots = s.slots ∧
      At A (if a.isTrue = (op == .or) then d.b.blocks.length + 1 else d.b.blocks.length) 0 s' μ
    := by
  have hst : Stands A d.withBlocks.b s μ := ((h.newBlock _).newBlock _).newBlock _
  obtain ⟨s', hs', hat, hslots⟩ := hst.goes limits hA (t := branchOf op left d.b.blocks.length
    (d.b.blocks.length + 1)) (by cases op <;> rfl) hb
    (l := if a.isTrue = (op == .or) then d.b.blocks.length + 1 else d.b.blocks.length)
    (by rw [mem_branchOf]; split <;> simp)
    fun k n => by
      cases op with
      | and => cases ha : a.isTrue <;> simp [branchOf, execTerm, Activation.state, hl.read, ha]
      | or => cases ha : a.isTrue <;> simp [branchOf, execTerm, Activation.state, hl.read, ha]
  exact ⟨s', .single hs', hslots, hat⟩

variable (hs : d.Sound g returns) (ho : d.Open) (hhas : d.Has g returns left)
  (hresult : (d.scheme g returns).locals[result]? = some .truth)
  (hb : (d.right op result left).b.Extends A.builder)

include hs ho hhas hresult hb

theorem skipped_extends : (d.skipped op result left).b.Extends A.builder :=
  (right_op hs ho hhas hresult).extends.trans hb

theorem short_extends : (d.short op left).b.Extends A.builder :=
  (((truth_grows op hs ho hhas).trans (decided_grows hs ho hhas hresult)).makes.extends.trans
    (skipped_op hs ho hhas hresult).extends).trans (skipped_extends hs ho hhas hresult hb)

theorem branch_extends : (d.branch op left).b.Extends A.builder :=
  (short_op hs ho).extends.trans (short_extends hs ho hhas hresult hb)

theorem decided_meets (limits : Limits) (hA : A.Of m) (h : Stands A d.b s μ)
    (hl : Holds A s left.id a) (hbeyond : μ.locals.length ≤ result)
    (ha : a.isTrue = (op == .or)) :
    ∃ s', Steps m limits s s' ∧
      Meets A d.b.registers s result (d.b.blocks.length + 2) (.ofBool a.isTrue) μ s' := by
  obtain ⟨s1, hs1, hslots, hat⟩ :=
    branch_goes limits hA h hl (branch_extends hs ho hhas hresult hb)
  rw [if_pos ha] at hat
  have hst1 : Stands A (d.short op left).b s1 μ :=
    At.goto (branch_sound hs ho hhas) (by rw [branch_length]; omega) (short_fresh hs) hat
  have hskipped := skipped_extends hs ho hhas hresult hb
  have htruth := (decided_grows hs ho hhas hresult).makes.extends.trans
    ((skipped_op hs ho hhas hresult).extends.trans hskipped)
  obtain ⟨s2, hs2, hg2⟩ := write_given limits hA hst1 (v := .ofBool (op == .or)) htruth
    fun _ _ => rfl
  have hlt : result < d.b.locals.length := by
    have := (List.getElem?_eq_some_iff.mp hresult).1
    simpa [Draft.scheme] using this
  have hlocals : result < A.code.locals.length :=
    local_lt ((right_makes hs ho hhas hresult).extends.trans hb) hlt
  obtain ⟨s3, hs3, hm⟩ := store_meets limits hA hg2.stands hg2.holds hbeyond hlocals
    (truth_grows op hs ho hhas).isOpen.2 hskipped d.b.registers
  refine ⟨s3, (hs1.trans hs2).trans hs3, hm.arrived, ?_, ha ▸ hm.truth⟩
  exact ((Kept.of_slots hslots _).trans (Nat.le_refl _) hg2.kept).trans (Nat.le_refl _) hm.kept

/-- Where it does not decide, the call gets to the code of the right operand. -/
theorem right_stands (limits : Limits) (hA : A.Of m) (h : Stands A d.b s μ)
    (hl : Holds A s left.id a) (ha : ¬ a.isTrue = (op == .or)) :
    ∃ s', Steps m limits s s' ∧ s'.slots = s.slots ∧ Stands A (d.right op result left).b s' μ := by
  obtain ⟨s1, hs1, hslots, hat⟩ :=
    branch_goes limits hA h hl (branch_extends hs ho hhas hresult hb)
  rw [if_neg ha] at hat
  exact ⟨s1, hs1, hslots, At.goto (skipped_sound hs ho hhas hresult)
    (by rw [skipped_length]; omega) (right_fresh hs) hat⟩

end

section

variable {right : Register} {z : Scalar} {result k : Nat} {w : List Nat}

theorem noted_meets (limits : Limits) (hA : A.Of m) (ho : d.Open) (h : Stands A d.b s μ)
    {v : Scalar} (hr : Holds A s right.id v) (hlt : right.id < d.b.registers)
    (hz : Scalar.zero? v.ty = some z) (hbeyond : μ.locals.length ≤ result)
    (hresult : result < A.code.locals.length)
    (hb : (d.joined z right result k).b.Extends A.builder) :
    ∃ s', Steps m limits s s' ∧
      Meets A d.b.registers s result k (.ofBool v.isTrue) μ s' := by
  have ho1 : (d.zeroed z).Open := ho.write _ _
  have ho2 : (d.compared z right).Open := ho1.write _ _
  have ho3 : (d.noted z right result).Open := ho2.emit _
  have hext2 : (d.compared z right).b.Extends A.builder :=
    ((Builder.emit_extends ho2.2 _).trans (Builder.close_extends ho3.2 _)).trans hb
  have hext1 : (d.zeroed z).b.Extends A.builder := (Builder.write_extends ho1.2 _ _).trans hext2
  obtain ⟨s1, hs1, hg1⟩ := constant_given limits hA h (v := z) hext1
  obtain ⟨s2, hs2, hg2⟩ := binary_given limits hA hg1.stands (hg1.kept _ _ hlt hr) hg1.holds
    (Scalar.binary_ne_zero hz) hext2
  obtain ⟨s3, hs3, hm⟩ := store_meets limits hA hg2.stands hg2.holds hbeyond hresult ho2.2 hb
    d.b.registers
  refine ⟨s3, (hs1.trans hs2).trans hs3, hm.arrived, ?_, hm.truth⟩
  exact (hg1.kept.trans (Nat.le_succ _) hg2.kept).trans (Nat.le_refl _) hm.kept

theorem fetched_given (limits : Limits) (hA : A.Of m)
    (hs : (d.joined z right result k).Sound g returns)
    (hk : k < (d.joined z right result k).b.blocks.length)
    (hfresh : k ∉ (d.joined z right result k).entered) {b : Builder} {s' : State Lines} {v : Scalar}
    (h : Meets A b.registers s result k v μ s')
    (hle : b.registers ≤ (d.met z right result k w).b.registers)
    (hb : (d.fetched z right result k w).b.Extends A.builder) :
    ∃ s'', Steps m limits s' s'' ∧ Given A b
      (⟨(d.met z right result k w).b.registers, .truth⟩, (d.fetched z right result k w).b) s v μ
      s'' := by
  have hst : Stands A (d.met z right result k w).b s' μ := At.goto hs hk hfresh h.arrived
  have hget := Slots.get_ok h.truth
  obtain ⟨s'', hs'', hg⟩ := write_given limits hA hst (v := v) hb fun k n => by
    simp only [execInstr, Activation.state, Activation.frame, hget]
  exact ⟨s'', hs'', hg.stands, h.kept.trans hle hg.kept, hg.holds⟩

end

end Cascade.Simulation
