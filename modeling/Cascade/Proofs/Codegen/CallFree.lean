import Cascade.Proofs.Codegen.Expr

/-!
# Cascade.Proofs.Codegen.CallFree

Code that keeps to the current block and to blocks of its own, whatever the builder is that it is
added to.

* `Builder.CallFree`: what stands between two builders is such code; some of its blocks may still
  wait to be filled.
* `CallFree.emit`, `CallFree.close`, `CallFree.goto` and the like: one operation more.
* `CallFree.trans`: such code behind such code.
* `right_callFree`, `joined_callFree`: the blocks of a logical operator.
-/

namespace Cascade.Codegen

open Code

def Builder.Open (b : Builder) : Prop := b.current < b.blocks.length ∧ b.isClosed = false

def called? : Instr → Option FunctionId
  | .call _ f => some f
  | _ => none

/-- Code without calls was added to the current block of a builder and in new blocks. Of these the
ones `waiting` are still empty, and all others but the current one have ended. -/
structure Builder.CallFree (b b' : Builder) (waiting : List BlockId) : Prop where
  grown : b.Extends b'
  inside : b'.current < b'.blocks.length
  current : b'.current = b.current ∨ b.blocks.length ≤ b'.current
  others : ∀ {k : BlockId}, k < b.blocks.length → k ≠ b.current → b'.blocks[k]? = b.blocks[k]?
  waits : ∀ k ∈ waiting, b.blocks.length ≤ k ∧ k ≠ b'.current ∧
    ∃ label, b'.blocks[k]? = some (.empty k label)
  ended : ∀ {k : BlockId} {blk : Block}, b'.blocks[k]? = some blk →
    k = b.current ∨ b.blocks.length ≤ k → k ≠ b'.current → k ∉ waiting → blk.isClosed = true
  calls : ∀ {k : BlockId} {blk : Block} {n : Nat} {d : Option Register} {f : FunctionId},
    b'.blocks[k]? = some blk → blk.code[n]? = some (.call d f) →
    ∃ blk', b.blocks[k]? = some blk' ∧ blk'.code[n]? = some (.call d f)

namespace Builder

theorem newBlock_self (b : Builder) (label : String) :
    (b.newBlock label).2.blocks[b.blocks.length]? = some (.empty b.blocks.length (some label)) := by
  simp [newBlock]

theorem Open.emit {b : Builder} (h : b.Open) (i : Instr) : (b.emit i).Open :=
  ⟨by rw [emit_length]; exact h.1, (isClosed_emit b i).trans h.2⟩

theorem Open.write {b : Builder} (h : b.Open) (ty : Ty) (i : Instr) :
    ((b.newRegister ty).2.emit i).Open :=
  Open.emit (b := (b.newRegister ty).2) h i

theorem Extends.locals_le {b b' : Builder} (h : b.Extends b') :
    b.locals.length ≤ b'.locals.length := by
  obtain ⟨more, he⟩ := h.locals
  rw [he, List.length_append]
  exact Nat.le_add_right _ _

theorem open_goto {b : Builder} {k id : BlockId} {label : Option String}
    (h : b.blocks[k]? = some (.empty id label)) : (b.goto k).Open :=
  ⟨(List.getElem?_eq_some_iff.mp h).1, isClosed_eq (b := b.goto k) h⟩

end Builder

namespace Builder.CallFree

variable {b b' b'' : Builder} {waiting : List BlockId}

theorem refl (h : b.current < b.blocks.length) : b.CallFree b [] where
  grown := .refl b
  inside := h
  current := .inl rfl
  others := fun _ _ => rfl
  waits := nofun
  ended := fun hk hk' hne _ => by
    obtain rfl | hle := hk'
    · exact absurd rfl hne
    · exact absurd (List.getElem?_eq_some_iff.mp hk).1 (Nat.not_lt_of_le hle)
  calls := fun hk hn => ⟨_, hk, hn⟩

theorem ne_current (h : b.CallFree b' waiting) {k : BlockId} (hk : k < b.blocks.length)
    (hne : k ≠ b.current) : k ≠ b'.current := by
  obtain he | hle := h.current
  · rw [he]; exact hne
  · exact Nat.ne_of_lt (Nat.lt_of_lt_of_le hk hle)

/-- More at the end of the current block, which is no call. -/
theorem modify (h : b.CallFree b' waiting) (hopen : b'.isClosed = false) {change : Block → Block}
    (hchange : ∀ blk, ∃ more, (change blk).code = blk.code ++ more ∧ ∀ d f, .call d f ∉ more)
    {registers : Nat} (hr : b'.registers ≤ registers) :
    b.CallFree ⟨b'.locals, b'.blocks.modify b'.current change, b'.current, registers⟩ waiting where
  grown := h.grown.trans (modify_extends hopen
    (fun blk => let ⟨more, he, _⟩ := hchange blk; ⟨more, he⟩) hr)
  inside := by rw [List.length_modify]; exact h.inside
  current := h.current
  others := fun hk hne =>
    (List.getElem?_modify_ne _ _ (Ne.symm (h.ne_current hk hne))).trans (h.others hk hne)
  waits := fun k hk => by
    obtain ⟨hle, hne, label, he⟩ := h.waits k hk
    exact ⟨hle, hne, label, (List.getElem?_modify_ne _ _ (Ne.symm hne)).trans he⟩
  ended := fun hk hk' hne hw => by
    obtain ⟨-, hk⟩ | ⟨he, -⟩ := Builder.modify_blocks hk
    · exact h.ended hk hk' hne hw
    · exact absurd he hne
  calls := fun {k blk n d f} hk hn => by
    obtain ⟨-, hk⟩ | ⟨-, c, hc, rfl⟩ := Builder.modify_blocks hk
    · exact h.calls hk hn
    · obtain ⟨more, he, hmore⟩ := hchange c
      rw [he] at hn
      by_cases hlt : n < c.code.length
      · rw [List.getElem?_append_left hlt] at hn
        exact h.calls hc hn
      · rw [List.getElem?_append_right (Nat.le_of_not_lt hlt)] at hn
        exact absurd (List.mem_of_getElem? hn) (hmore d f)

theorem emit (h : b.CallFree b' waiting) (hopen : b'.isClosed = false) {i : Instr}
    (hi : called? i = none) : b.CallFree (b'.emit i) waiting :=
  h.modify hopen (fun _ => ⟨[i], rfl, fun d f hm => by
    rw [← List.mem_singleton.mp hm] at hi
    cases hi⟩) (Nat.le_refl _)

theorem write (h : b.CallFree b' waiting) (hopen : b'.isClosed = false) (ty : Ty) {i : Instr}
    (hi : called? i = none) : b.CallFree ((b'.newRegister ty).2.emit i) waiting :=
  h.modify hopen (fun _ => ⟨[i], rfl, fun d f hm => by
    rw [← List.mem_singleton.mp hm] at hi
    cases hi⟩) (Nat.le_succ _)

theorem close (h : b.CallFree b' waiting) (hopen : b'.isClosed = false) (t : Terminator) :
    b.CallFree (b'.close t) waiting :=
  h.modify hopen (fun blk => ⟨[], show (blk.close t).code = blk.code ++ [] by simp [Block.close],
    nofun⟩) (Nat.le_refl _)

theorem newLocal (h : b.CallFree b' waiting) (ty : Ty) : b.CallFree (b'.newLocal ty).2 waiting :=
  ⟨h.grown.trans (newLocal_extends b' ty), h.inside, h.current, h.others, h.waits, h.ended, h.calls⟩

theorem newBlock (h : b.CallFree b' waiting) (label : String) :
    b.CallFree (b'.newBlock label).2 (b'.blocks.length :: waiting) where
  grown := h.grown.trans (newBlock_extends b' label)
  inside := by rw [newBlock_length]; exact Nat.lt_succ_of_lt h.inside
  current := h.current
  others := fun hk hne => by
    rw [← h.others hk hne]
    exact List.getElem?_append_left (Nat.lt_of_lt_of_le hk h.grown.length)
  waits := List.forall_mem_cons.mpr
    ⟨⟨h.grown.length, Nat.ne_of_gt h.inside, _, newBlock_self b' label⟩, fun k hk => by
      obtain ⟨hle, hne, l, he⟩ := h.waits k hk
      exact ⟨hle, hne, l, newBlock_keeps he label⟩⟩
  ended := fun hk hk' hne hw => by
    obtain hk | ⟨rfl, -⟩ := newBlock_blocks hk
    · exact h.ended hk hk' hne fun hm => hw (List.mem_cons_of_mem _ hm)
    · exact absurd List.mem_cons_self hw
  calls := fun hk hn => by
    obtain hk | ⟨-, rfl⟩ := newBlock_blocks hk
    · exact h.calls hk hn
    · cases hn

/-- Work goes on in a block that waits, once the current one has ended. -/
theorem goto (h : b.CallFree b' waiting) (hclosed : b'.isClosed = true) {k : BlockId}
    {waiting' : List BlockId} (hk : k ∈ waiting)
    (hw : ∀ j, j ∈ waiting' ↔ j ∈ waiting ∧ j ≠ k) : b.CallFree (b'.goto k) waiting' where
  grown := h.grown.trans (goto_extends b' k)
  inside := by
    obtain ⟨-, -, label, he⟩ := h.waits k hk
    exact (List.getElem?_eq_some_iff.mp he).1
  current := .inr (h.waits k hk).1
  others := h.others
  waits := fun j hj => by
    obtain ⟨hj, hne⟩ := (hw j).mp hj
    obtain ⟨hle, -, label, he⟩ := h.waits j hj
    exact ⟨hle, hne, label, he⟩
  ended := fun {j blk} hj hj' hne hnw => by
    by_cases hc : j = b'.current
    · subst hc
      rw [← isClosed_eq (b := b') hj]
      exact hclosed
    · exact h.ended hj hj' hc fun hm => hnw ((hw j).mpr ⟨hm, hne⟩)
  calls := h.calls

theorem goto_isOpen (h : b.CallFree b' waiting) {k : BlockId} (hk : k ∈ waiting) :
    (b'.goto k).Open := by
  obtain ⟨-, -, label, hblk⟩ := h.waits k hk
  exact open_goto hblk

theorem trans (h : b.CallFree b' waiting) (h' : b'.CallFree b'' []) : b.CallFree b'' waiting where
  grown := h.grown.trans h'.grown
  inside := h'.inside
  current := by
    obtain he | hle := h'.current
    · rw [he]; exact h.current
    · exact .inr (Nat.le_trans h.grown.length hle)
  others := fun hk hne =>
    (h'.others (Nat.lt_of_lt_of_le hk h.grown.length) (h.ne_current hk hne)).trans (h.others hk hne)
  waits := fun k hk => by
    obtain ⟨hle, hne, label, he⟩ := h.waits k hk
    have hlt := (List.getElem?_eq_some_iff.mp he).1
    exact ⟨hle, h'.ne_current hlt hne, label, (h'.others hlt hne).trans he⟩
  ended := fun {k blk} hk hk' hne hw => by
    by_cases hin : k = b'.current ∨ b'.blocks.length ≤ k
    · exact h'.ended hk hin hne nofun
    · obtain ⟨hc, hlt⟩ := not_or.mp hin
      rw [h'.others (Nat.lt_of_not_le hlt) hc] at hk
      exact h.ended hk hk' hc hw
  calls := fun hk hn => by
    obtain ⟨blk', hk', hn'⟩ := h'.calls hk hn
    exact h.calls hk' hn'

end Builder.CallFree

/-! ## Logical operators -/

section

variable {d : Draft} (ho : d.b.Open) (op : LogicalOp) (result : LocalIndex) (left : Register)
include ho

theorem branch_callFree : d.b.CallFree (d.branch op left).b
    [d.b.blocks.length + 2, d.b.blocks.length + 1, d.b.blocks.length] := by
  have hw := (((Builder.CallFree.refl ho.1).newBlock "logical.rhs").newBlock
    "logical.short").newBlock "logical.merge"
  simp only [Builder.newBlock_length] at hw
  exact hw.close (branch_open (d := d) ho).2 _

theorem short_callFree :
    d.b.CallFree (d.short op left).b [d.b.blocks.length + 2, d.b.blocks.length] := by
  refine (branch_callFree ho op left).goto (branch_open (d := d) ho |>.close ?_) (by simp)
    (by grind)
  cases op
  · rfl
  · rfl

theorem short_isOpen : (d.short op left).b.Open :=
  (branch_callFree ho op left).goto_isOpen (by simp)

theorem truth_isOpen : (d.truth op left).b.Open := (short_isOpen ho op left).write _ _

theorem skipped_callFree :
    d.b.CallFree (d.skipped op result left).b [d.b.blocks.length + 2, d.b.blocks.length] :=
  (((short_callFree ho op left).write (short_isOpen ho op left).2 .truth rfl).emit
    (truth_isOpen ho op left).2 rfl).close ((truth_isOpen ho op left).emit _).2 _

theorem skipped_grown : (d.truth op left).b.Extends (d.skipped op result left).b :=
  (Builder.emit_extends (truth_isOpen ho op left).2 _).trans
    (Builder.close_extends ((truth_isOpen ho op left).emit _).2 _)

theorem branch_grown : (d.branch op left).b.Extends (d.skipped op result left).b :=
  ((Builder.goto_extends _ _).trans (Builder.write_extends (short_isOpen ho op left).2 _ _)).trans
    (skipped_grown ho op result left)

theorem right_callFree : d.b.CallFree (d.right op result left).b [d.b.blocks.length + 2] :=
  (skipped_callFree ho op result left).goto
    (Builder.isClosed_close ((truth_isOpen ho op left).emit _).1 rfl) (by simp) (by grind)

theorem right_isOpen : (d.right op result left).b.Open :=
  (skipped_callFree ho op result left).goto_isOpen (by simp)

end

section

variable {b : Builder} {d : Draft} {z : Scalar} {right : Register} {result : LocalIndex}
variable (ho : d.b.Open)
include ho

theorem compared_isOpen : (d.compared z right).b.Open := Builder.Open.write (ho.write _ _) _ _

theorem noted_isOpen : (d.noted z right result).b.Open := (compared_isOpen ho).emit _

theorem joined_grown (k : BlockId) : d.b.Extends (d.joined z right result k).b :=
  (((Builder.write_extends ho.2 _ _).trans (Builder.write_extends (ho.write _ _).2 _ _)).trans
    (Builder.emit_extends (compared_isOpen ho).2 _)).trans
      (Builder.close_extends (noted_isOpen ho).2 _)

theorem joined_callFree {waiting : List BlockId} (h : b.CallFree d.b waiting) (k : BlockId) :
    b.CallFree (d.joined z right result k).b waiting :=
  (((h.write ho.2 _ rfl).write (ho.write _ _).2 _ rfl).emit (compared_isOpen ho).2 rfl).close
    (noted_isOpen ho).2 _

end

end Cascade.Codegen
