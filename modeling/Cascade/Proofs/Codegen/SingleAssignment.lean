import Cascade.Proofs.Code.SingleAssignment
import Cascade.Proofs.Codegen.Order

/-!
# Cascade.Proofs.Codegen.SingleAssignment

Code generation takes a new register for every instruction that writes one, so the code of a
well-typed program is in single-assignment form.

* `Builder.WritesOnce`: the instructions of a builder write its registers, each of them once.
* `Makes.writesOnce`: the operations on drafts keep that.
* `lowerProgram_singleAssignment`: the functions of a program.
-/

namespace Cascade.Codegen

open Code

namespace Builder

def dests (b : Builder) : List Register := b.blocks.flatMap Block.dests

/-- The registers made so far are those that instructions write, and each is written once. -/
def WritesOnce (b : Builder) : Prop :=
  (b.dests.map Register.id).Perm (List.range b.registers)

theorem dests_modify {blocks : List Block} {k : BlockId} (hk : k < blocks.length)
    (change : Block → Block) (more : List Register)
    (hchange : ∀ blk : Block, (change blk).dests = blk.dests ++ more) :
    ((blocks.modify k change).flatMap Block.dests).Perm
      (blocks.flatMap Block.dests ++ more) := by
  have hsplit : blocks = blocks.take k ++ blocks[k] :: blocks.drop (k + 1) := by
    rw [← List.drop_eq_getElem_cons hk, List.take_append_drop]
  rw [List.modify_eq_take_cons_drop hk]
  conv_rhs => rw [hsplit]
  simp only [List.flatMap_append, List.flatMap_cons, hchange, List.append_assoc]
  exact (List.perm_append_comm.append_left _).append_left _

theorem emit_dests {b : Builder} (h : b.current < b.blocks.length) (i : Instr) :
    (b.emit i).dests.Perm (b.dests ++ i.dest?.toList) :=
  dests_modify h (·.emit i) _ fun blk => by
    simp only [Block.dests, Block.emit, List.filterMap_append]
    cases hd : i.dest? <;> simp [hd]

theorem close_dests {b : Builder} (h : b.current < b.blocks.length) (t : Terminator) :
    (b.close t).dests.Perm b.dests := by
  have hperm := dests_modify h (·.close t) [] fun blk => by
    simp [Block.dests, Block.close]
  rwa [List.append_nil] at hperm

theorem newBlock_dests (b : Builder) (label : String) : (b.newBlock label).2.dests = b.dests := by
  simp [dests, newBlock, Block.dests, Block.empty]

end Builder

variable {g : Signature} {returns : Ty}

theorem Op.writesOnce {d d' : Draft} (hop : Op g returns d d') (h : d.b.WritesOnce) :
    d'.b.WritesOnce := by
  cases hop with
  | @emit i ho hdest _ =>
    have hperm := Builder.emit_dests ho.1 i
    rw [hdest, Option.toList_none, List.append_nil] at hperm
    exact (hperm.map _).trans h
  | @write ty i ho hdest _ =>
    have hperm : (d.write ty i).b.dests.Perm (d.b.dests ++ i.dest?.toList) :=
      Builder.emit_dests (b := (d.b.newRegister ty).2) ho.1 i
    rw [hdest] at hperm
    -- the new register is numbered by how many there were
    calc ((d.write ty i).b.dests.map Register.id).Perm
          (d.b.dests.map Register.id ++ [d.b.registers]) := by simpa using hperm.map Register.id
      _ |>.Perm (List.range d.b.registers ++ [d.b.registers]) := h.append_right _
      _ = List.range (d.b.registers + 1) := List.range_succ.symm
  | newLocal _ => exact h
  | newBlock =>
    show ((Builder.newBlock _ _).2.dests.map Register.id).Perm _
    rwa [Builder.newBlock_dests]
  | close ho _ _ => exact ((Builder.close_dests ho.1 _).map _).trans h
  | goto _ _ _ _ => exact h

theorem Makes.writesOnce {d d' : Draft} (hm : Makes g returns d d') (h : d.b.WritesOnce) :
    d'.b.WritesOnce := by
  induction hm with
  | refl => exact h
  | step _ hop ih => exact hop.writesOnce ih

theorem start_writesOnce (locals : List Code.Local) : (Builder.start locals).WritesOnce :=
  .refl _

theorem Draft.finish_dests {d : Draft} (hs : d.Sound g returns) :
    (d.finish returns).b.dests.Perm d.b.dests := by
  unfold Draft.finish
  split
  · exact Builder.close_dests (hs.entered _ hs.current) _
  · exact .refl _

theorem prune_dests (f : Function) : f.prune.dests.Sublist f.dests :=
  List.filter_sublist.flatMap _

theorem Drafted.once {p : Typed.Program} {f : Function} (h : Drafted p f) :
    (f.dests.map Register.id).Nodup := by
  obtain ⟨hlocals, hadds, -, heq⟩ := h
  rename_i returns locals d span
  have honce := hadds.makes.writesOnce (start_writesOnce locals)
  have hnodup : ((d.finish returns).b.dests.map Register.id).Nodup :=
    ((((Draft.finish_dests (hadds.makes.sound (.start hlocals))).map _).trans
      honce).nodup_iff).mpr List.nodup_range
  rw [heq, finish_eq]
  exact ((prune_dests _).map _).nodup hnodup

/-- All functions of a well-typed program are in single-assignment form, that of the fields too. -/
theorem lowerProgram_singleAssignment {p : Typed.Program} (hw : p.WellTyped) {m : Module}
    (h : lowerProgram p = .ok m) {f : Function} (hf : f ∈ m.functions) : f.SingleAssignment := by
  obtain ⟨m', h', hfits⟩ := lowerProgram_fits hw
  obtain rfl : m = m' := Except.ok.inj (h.symm.trans h')
  obtain ⟨htrim, c, hc⟩ := hfits.functions f hf
  exact hc.singleAssignment htrim (lowerProgram_drafted hw h hf).once

end Cascade.Codegen
