import Cascade.Codegen.Program
import Cascade.Proofs.Codegen.Draft

/-!
# Cascade.Proofs.Codegen.Plain

Code generation makes a conversion for a conversion in the tree, and for nothing else.

* `Builder.Plain`: between two builders, no conversion was added.
* `Plain.step`, `Plain.openLogical`, `Plain.openSwitch` and the like: operations of which this
  holds.
-/

namespace Cascade.Codegen

open Code

def conversion? : Instr → Option (Register × Register)
  | .convert d r => some (d, r)
  | _ => none

/-- A later builder has no conversion in its code but those of an earlier one. -/
structure Builder.Plain (b b' : Builder) : Prop where
  old : ∀ {k n : Nat} {blk : Block} {d r : Register}, b'.blocks[k]? = some blk →
    blk.code[n]? = some (.convert d r) →
    ∃ blk', b.blocks[k]? = some blk' ∧ blk'.code[n]? = some (.convert d r)

namespace Builder.Plain

variable {b b' : Builder}

theorem refl (b : Builder) : b.Plain b := ⟨fun hk hn => ⟨_, hk, hn⟩⟩

theorem newLocal (h : b.Plain b') (ty : Ty) : b.Plain (b'.newLocal ty).2 := ⟨h.old⟩

theorem goto (h : b.Plain b') (k : BlockId) : b.Plain (b'.goto k) := ⟨h.old⟩

theorem newBlock (h : b.Plain b') (label : String) : b.Plain (b'.newBlock label).2 where
  old := fun hk hn => by
    obtain hk | ⟨-, rfl⟩ := newBlock_blocks hk
    · exact h.old hk hn
    · cases hn

theorem close (h : b.Plain b') (t : Terminator) : b.Plain (b'.close t) where
  old := fun hk hn => by
    obtain ⟨-, hk⟩ | ⟨-, c, hc, rfl⟩ := modify_blocks hk
    · exact h.old hk hn
    · exact h.old hc hn

theorem emit (h : b.Plain b') {i : Instr} (hi : conversion? i = none) : b.Plain (b'.emit i) where
  old := fun {k n blk d r} hk hn => by
    obtain ⟨-, hk⟩ | ⟨-, c, hc, rfl⟩ := modify_blocks hk
    · exact h.old hk hn
    · have hn : (c.code ++ [i])[n]? = some (.convert d r) := hn
      obtain hlt | hge := Nat.lt_or_ge n c.code.length
      · rw [List.getElem?_append_left hlt] at hn
        exact h.old hc hn
      · rw [List.getElem?_append_right hge] at hn
        rw [← List.mem_singleton.mp (List.mem_of_getElem? hn)] at hi
        cases hi

theorem write (h : b.Plain b') (ty : Ty) {i : Instr} (hi : conversion? i = none) :
    b.Plain ((b'.newRegister ty).2.emit i) :=
  have h' : b.Plain (b'.newRegister ty).2 := ⟨h.old⟩
  h'.emit hi

theorem constant (h : b.Plain b') (v : Scalar) : b.Plain (b'.constant v).2 :=
  h.write v.ty rfl

theorem load (h : b.Plain b') (place : Typed.Place) (ty : Ty) :
    b.Plain (Codegen.load b' place ty).2 := by
  cases place with
  | slot n => exact h.write ty rfl
  | field f => exact h.write ty rfl

theorem store (h : b.Plain b') (place : Typed.Place) (r : Register) :
    b.Plain (Codegen.store b' place r) := by
  cases place with
  | slot n => exact h.emit rfl
  | field f => exact h.emit rfl

theorem step (h : b.Plain b') {place : Typed.Place} {delta : Int} {before : Bool} {ty : Ty}
    {span : Span} {rb : Register × Builder}
    (hrun : Codegen.step b' place delta before ty span = .ok rb) : b.Plain rb.2 := by
  unfold Codegen.step at hrun
  dsimp only at hrun
  split at hrun
  · cases hrun
  · cases hrun
    exact (((h.load place ty).constant _).write ty rfl).store place _

theorem zero (h : b.Plain b') {ty : Ty} {span : Span} {rb : Register × Builder}
    (hrun : Codegen.zero b' ty span = .ok rb) : b.Plain rb.2 := by
  unfold Codegen.zero at hrun
  split at hrun
  · cases hrun
    exact h.constant _
  · cases hrun

theorem call (h : b.Plain b') {p : Typed.Program} {m : MethodId}
    {rb : Option Register × Builder} (hrun : Codegen.call p b' m = .ok rb) :
    b.Plain rb.2 := by
  unfold Codegen.call at hrun
  split at hrun
  · cases hrun
  · split at hrun
    · cases hrun
      exact h.emit rfl
    · cases hrun
      exact h.write _ rfl

theorem openLogical (h : b.Plain b') (op : LogicalOp) (result : LocalIndex) (left : Register) :
    b.Plain (Codegen.openLogical b' op result left).2 := by
  have hblocks := ((h.newBlock "logical.rhs").newBlock "logical.short").newBlock "logical.merge"
  cases op with
  | and => exact (((((hblocks.close _).goto _).constant _).emit rfl).close _).goto _
  | or => exact (((((hblocks.close _).goto _).constant _).emit rfl).close _).goto _

theorem closeLogical (h : b.Plain b') {merge : BlockId} {result : LocalIndex}
    {right : Register} {span : Span} {rb : Register × Builder}
    (hrun : Codegen.closeLogical b' merge result right span = .ok rb) : b.Plain rb.2 := by
  unfold Codegen.closeLogical at hrun
  split at hrun
  · cases hrun
  · rename_i hz
    cases hrun
    exact (((((h.zero hz).write .truth rfl).emit rfl).close _).goto _).write .truth rfl

theorem newCaseBlocks (h : b.Plain b') (i n : Nat) :
    b.Plain (Codegen.newCaseBlocks b' i n).2 := by
  induction n generalizing i b' with
  | zero => exact h
  | succ n ih => exact ih (h.newBlock _) (i + 1)

theorem openSwitch (h : b.Plain b') (r : Register) (cases : List Typed.Case) :
    b.Plain (Codegen.openSwitch b' r cases).2 :=
  ((h.newCaseBlocks 0 cases.length).newBlock "switch.exit").close _

theorem reopen (h : b.Plain b') : b.Plain (Codegen.reopen b') := by
  unfold Codegen.reopen
  split
  · exact (h.newBlock "dead").goto _
  · exact h

end Builder.Plain

end Cascade.Codegen
