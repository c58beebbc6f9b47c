import Cascade.Proofs.Codegen.Expr

/-!
# Cascade.Proofs.Codegen.Sealed

No way is added to code that is finished. Control is only ever sent to blocks that nothing was put
into yet, so all ways into a block that work was taken up in are there from then on.

* `Builder.Seals`: a later builder with no more ways into finished blocks than an earlier one.
* `Makes.seals`: the operations of code generation lead to such builders.
-/

namespace Cascade.Codegen

open Code

/-- A later builder has everything of an earlier one, and each way in it to the current block of the
earlier one, or to one that had ended there, is one of the earlier builder. -/
structure Builder.Seals (b b' : Builder) : Prop where
  grown : b.Extends b'
  ways : ∀ {j k : BlockId} {blk blk' : Block}, b'.blocks[j]? = some blk' → k ∈ blk'.term.targets →
    b.blocks[k]? = some blk → k = b.current ∨ blk.isClosed = true →
    ∃ blk₀, b.blocks[j]? = some blk₀ ∧ k ∈ blk₀.term.targets
  left : b'.current = b.current ∨ ∃ blk, b'.blocks[b.current]? = some blk ∧ blk.isClosed = true

namespace Builder

theorem Seals.refl (b : Builder) : b.Seals b :=
  ⟨.refl b, fun hj hk _ _ => ⟨_, hj, hk⟩, .inl rfl⟩

theorem Seals.trans {b b' b'' : Builder} (h : b.Seals b') (h' : b'.Seals b'') : b.Seals b'' where
  grown := h.grown.trans h'.grown
  ways := fun {j k blk _} hj hk hb hend => by
    -- the block that the way leads to is finished in the builder between as well
    obtain ⟨blk', hb', hend'⟩ : ∃ blk', b'.blocks[k]? = some blk' ∧
        (k = b'.current ∨ blk'.isClosed = true) := by
      obtain rfl | hclosed := hend
      · obtain ⟨blk', -, hb', -⟩ := h.grown.code hb
        obtain he | ⟨c, hc, hclosed⟩ := h.left
        · exact ⟨blk', hb', .inl he.symm⟩
        · exact ⟨c, hc, .inr hclosed⟩
      · exact ⟨blk, h.grown.closed hb hclosed, .inr hclosed⟩
    obtain ⟨_, hj', hk'⟩ := h'.ways hj hk hb' hend'
    exact h.ways hj' hk' hb hend
  left := by
    obtain he | ⟨blk, hb, hclosed⟩ := h.left
    · rw [← he]
      exact h'.left
    · exact .inr ⟨blk, h'.grown.closed hb hclosed, hclosed⟩

theorem modify_seals {b : Builder} (hopen : b.isClosed = false) {change : Block → Block}
    (hchange : ∀ blk, ∃ more, (change blk).code = blk.code ++ more)
    (htargets : ∀ blk, ∀ k ∈ (change blk).term.targets, k ∈ blk.term.targets ∨
      k ≠ b.current ∧ ∀ blk', b.blocks[k]? = some blk' → blk'.isClosed = false)
    {registers : Nat} (hr : b.registers ≤ registers) :
    b.Seals ⟨b.locals, b.blocks.modify b.current change, b.current, registers⟩ where
  grown := modify_extends hopen hchange hr
  ways := fun {j k blk _} hj hk hb hend => by
    obtain ⟨-, hj⟩ | ⟨-, c, hc, rfl⟩ := modify_blocks hj
    · exact ⟨_, hj, hk⟩
    · obtain hk | ⟨hne, hempty⟩ := htargets c k hk
      · exact ⟨c, hc, hk⟩
      · obtain rfl | hclosed := hend
        · exact absurd rfl hne
        · rw [hempty blk hb] at hclosed
          cases hclosed
  left := .inl rfl

theorem emit_seals {b : Builder} (hopen : b.isClosed = false) (i : Instr) : b.Seals (b.emit i) :=
  modify_seals hopen (fun blk => ⟨[i], show (blk.emit i).code = _ from rfl⟩)
    (fun _ _ hk => .inl hk) (Nat.le_refl _)

theorem write_seals {b : Builder} (hopen : b.isClosed = false) (ty : Ty) (i : Instr) :
    b.Seals ((b.newRegister ty).2.emit i) :=
  modify_seals hopen (fun blk => ⟨[i], show (blk.emit i).code = _ from rfl⟩)
    (fun _ _ hk => .inl hk) (Nat.le_succ _)

end Builder

variable {g : Signature} {returns : Ty} {d d' : Draft}

theorem Draft.Sound.unsealed (hs : d.Sound g returns) {k : BlockId} (hk : k ∉ d.entered) :
    k ≠ d.b.current ∧ ∀ blk, d.b.blocks[k]? = some blk → blk.isClosed = false := by
  refine ⟨fun he => hk (he ▸ hs.current), fun blk hb => ?_⟩
  rw [Block.isClosed, (hs.fresh hb hk).2]
  rfl

theorem Draft.close_seals (hs : d.Sound g returns) (hopen : d.b.isClosed = false) {t : Terminator}
    (ht : ∀ k ∈ t.targets, k ∉ d.entered) : d.b.Seals (d.close t).b :=
  Builder.modify_seals hopen (fun blk => ⟨[], by simp [Block.close]⟩)
    (fun _ k hk => .inr (hs.unsealed (ht k hk))) (Nat.le_refl _)

theorem Op.seals (hop : Op g returns d d') (hs : d.Sound g returns) : d.b.Seals d'.b := by
  cases hop with
  | emit ho => exact Builder.emit_seals ho.2 _
  | write ho => exact Builder.write_seals ho.2 _ _
  | newLocal =>
    exact ⟨Builder.newLocal_extends _ _, fun hj hk _ _ => ⟨_, hj, hk⟩, .inl rfl⟩
  | newBlock =>
    refine ⟨Builder.newBlock_extends _ _, fun hj hk _ _ => ?_, .inl rfl⟩
    obtain hj | ⟨-, rfl⟩ := Builder.newBlock_blocks hj
    · exact ⟨_, hj, hk⟩
    · cases hk
  | close ho _ ht => exact Draft.close_seals hs ho.2 fun k hk => (ht k hk).2
  | @goto k w hclosed _ _ _ =>
    refine ⟨Builder.goto_extends _ _, fun hj hk _ _ => ⟨_, hj, hk⟩, .inr ?_⟩
    have hblk := List.getElem?_eq_getElem (hs.entered _ hs.current)
    exact ⟨_, hblk, (Builder.isClosed_eq hblk).symm.trans hclosed⟩

theorem Makes.seals (hm : Makes g returns d d') (hs : d.Sound g returns) : d.b.Seals d'.b := by
  induction hm with
  | refl => exact .refl _
  | step hm hop ih => exact ih.trans (hop.seals (hm.sound hs))

/-- All ways in a draft lead to blocks that it has. -/
theorem Draft.Sound.targets_lt (hs : d.Sound g returns) {k : BlockId} {blk : Block}
    (hb : d.b.blocks[k]? = some blk) : ∀ l ∈ blk.term.targets, l < d.b.blocks.length := by
  by_cases hk : k ∈ d.entered
  · obtain ⟨⟨_, w⟩, hw, rfl⟩ := List.mem_map.mp hk
    exact (hs.block hw hb).targets
  · intro l hl
    rw [(hs.fresh hb hk).2] at hl
    cases hl

/-- What is put behind the right operand of a logical operator can be made, and adds no way to what
is finished. -/
theorem closeLogical_seals {d'' : Draft} {right : Register} {result : LocalIndex}
    (hs : d.Sound g returns) (hb : Branched g returns d d') (hg : Grows g returns d' d'')
    (hr : d''.Has g returns right) (hn : right.ty.isNumeric = true)
    (hresult : (d.scheme g returns).locals[result]? = some .truth) (span : Span) :
    ∃ rb, closeLogical d''.b (d.b.blocks.length + 2) result right span = .ok rb ∧
      d''.b.Seals rb.2 := by
  obtain ⟨z, hz⟩ := Scalar.zero?_isSome hn
  have hs'' := hg.makes.sound (hb.makes.sound hs)
  have hnoted := noted_grows hs'' hg.isOpen hr (Scalar.ty_zero? hz)
    ((hb.makes.trans hg.makes).scheme.local hresult)
  have hall := hg.trans hnoted
  have hmet := (hnoted.makes.step (joined_op hs hb hall)).step (met_op hs hb hall)
  exact ⟨_, closeLogical_eq d'' hz _ result d.written span,
    (hmet.seals hs'').trans (Builder.write_seals (met_grows hs hb hall).isOpen.2 _ _)⟩

end Cascade.Codegen
