import Cascade.Proofs.Code.Reach
import Cascade.Proofs.Codegen.Draft

/-!
# Cascade.Proofs.Codegen.Reachable

Where control can get in a function under construction, and that a draft knows it.

* `Builder.Reaches`: control can get to a block from the entry, along the ends that blocks have so
  far.
* `Builder.reaches_iff`: that is what the search in the graph of the function finds.
* `Draft.Grounded`: a draft that holds no block live, and no way open, that control cannot take.
  The operations of code generation keep drafts so.
* `Draft.Sound.running_iff`: in such a draft, control runs off the current block exactly if the
  block is open and reached.
-/

namespace Cascade.Codegen

open Code

variable {g : Signature} {returns : Ty}

theorem isClosed_of_target {blk : Block} {l : BlockId} (h : l ∈ blk.term.targets) :
    blk.isClosed = true := by
  unfold Block.isClosed
  cases ht : blk.term with
  | unreachable => rw [ht] at h; cases h
  | _ => rfl

namespace Builder

inductive Reaches (b : Builder) : BlockId → Prop where
  | entry : Reaches b 0
  | step {k l : BlockId} {blk : Block} : Reaches b k → b.blocks[k]? = some blk →
      l ∈ blk.term.targets → Reaches b l

/-- Control can get to the end of the current block, which has not ended. -/
def Runs (b : Builder) : Prop := b.isClosed = false ∧ b.Reaches b.current

theorem Reaches.mono {b b' : Builder} {k : BlockId} (h : b.Reaches k) (hx : b.Extends b') :
    b'.Reaches k := by
  induction h with
  | entry => exact .entry
  | step _ hblk hl ih => exact ih.step (hx.closed hblk (isClosed_of_target hl)) hl

/-- Control gets to where the current block ends by sending it, if it gets to that block. -/
theorem Reaches.close {b : Builder} (hin : b.current < b.blocks.length)
    (hopen : b.isClosed = false) (h : b.Reaches b.current) {t : Terminator} {k : BlockId}
    (hk : k ∈ t.targets) : (b.close t).Reaches k := by
  have hblk : (b.close t).blocks[b.current]? = some (b.blocks[b.current].close t) := by
    simp [Builder.close, List.getElem?_eq_getElem hin]
  exact (h.mono (close_extends hopen t)).step hblk hk

theorem reaches_iff {b : Builder}
    (hnum : ∀ {k : Nat} {blk : Block}, b.blocks[k]? = some blk → blk.id = k) {id : FunctionId}
    {name : String} {returns : Ty} {span : Span} {k : BlockId} :
    b.Reaches k ↔ k ∈ (b.function id name returns span).reachable := by
  rw [Function.mem_reachable]
  have hblock : ∀ k, (b.function id name returns span).block? k = b.blocks[k]? :=
    Builder.function_coherent.block?_place hnum
  constructor
  · intro h
    induction h with
    | entry => exact .refl
    | step _ hblk hl ih =>
      refine ih.step ?_
      simp only [Function.successors, hblock]
      rw [hblk]
      exact hl
  · intro h
    induction h with
    | refl => exact .entry
    | @step j l _ hl ih =>
      simp only [Function.successors, hblock] at hl
      cases hblk : b.blocks[j]? with
      | none =>
        rw [hblk] at hl
        cases hl
      | some blk =>
        rw [hblk] at hl
        exact ih.step hblk hl

end Builder

/-! ## What drafts know -/

/-- Control can get to all live blocks and take all ways. -/
structure Draft.Grounded (d : Draft) : Prop where
  live : ∀ k ∈ d.live, d.b.Reaches k
  ways : ∀ {k : BlockId} {u : List Nat}, (k, u) ∈ d.ways → d.b.Reaches k

namespace Draft

theorem Grounded.start (locals : List Code.Local) : (Draft.start locals).Grounded where
  live := fun k hk => by
    obtain rfl := List.mem_singleton.mp hk
    exact .entry
  ways := nofun

theorem Grounded.close {d : Draft} (h : d.Grounded) (ho : d.Open) (t : Terminator) :
    (d.close t).Grounded where
  live := fun k hk => (h.live k hk).mono (Builder.close_extends ho.2 t)
  ways := fun {k u} hu => by
    unfold Draft.close at hu
    dsimp only at hu
    split at hu
    · rename_i hlive
      obtain hu | hu := List.mem_append.mp hu
      · obtain ⟨l, hl, he⟩ := List.mem_map.mp hu
        cases he
        exact .close ho.1 ho.2 (h.live _ hlive) hl
      · exact (h.ways hu).mono (Builder.close_extends ho.2 t)
    · exact (h.ways hu).mono (Builder.close_extends ho.2 t)

/-- A block becomes live when work is taken up in it and a way leads there. -/
theorem Grounded.goto {d : Draft} (h : d.Grounded) (k : Nat) (w : List Nat) :
    (d.goto k w).Grounded where
  live := fun l hl => by
    refine Builder.Reaches.mono ?_ (Builder.goto_extends d.b k)
    unfold Draft.goto at hl
    dsimp only at hl
    split at hl
    · rename_i hway
      obtain rfl | hl := List.mem_cons.mp hl
      · obtain ⟨⟨l', u⟩, hu, rfl⟩ := List.mem_map.mp hway
        exact h.ways hu
      · exact h.live l hl
    · exact h.live l hl
  ways := fun hu => (h.ways hu).mono (Builder.goto_extends d.b k)

end Draft

theorem Op.grounded {d d' : Draft} (hop : Op g returns d d') (h : d.Grounded) : d'.Grounded := by
  have keep : ∀ {d' : Draft}, d'.live = d.live → d'.ways = d.ways → d.b.Extends d'.b →
      d'.Grounded := fun hl hw hx =>
    ⟨fun k hk => (h.live k (hl ▸ hk)).mono hx, fun hu => (h.ways (hw ▸ hu)).mono hx⟩
  cases hop with
  | emit ho => exact keep rfl rfl (Builder.emit_extends ho.2 _)
  | write ho => exact keep rfl rfl (Builder.write_extends ho.2 _ _)
  | newLocal => exact keep rfl rfl (Builder.newLocal_extends _ _)
  | newBlock => exact keep rfl rfl (Builder.newBlock_extends _ _)
  | close ho => exact h.close ho _
  | goto => exact h.goto _ _

theorem Makes.grounded {d d' : Draft} (hm : Makes g returns d d') (h : d.Grounded) :
    d'.Grounded := by
  induction hm with
  | refl => exact h
  | step _ hop ih => exact hop.grounded ih

namespace Draft

theorem Sound.live_of_reaches {d : Draft} (hs : d.Sound g returns) {k : BlockId}
    (h : d.b.Reaches k) : k ∈ d.entered → k ∈ d.live := by
  induction h with
  | entry => exact fun _ => hs.entry.2
  | @step j l blk _ hblk hl ih =>
    intro he
    have hj : j ∈ d.entered := by
      by_cases hj : j ∈ d.entered
      · exact hj
      · rw [(hs.fresh hblk hj).2] at hl
        cases hl
    obtain ⟨⟨j, w⟩, hw, rfl⟩ := List.mem_map.mp hj
    obtain ⟨⟨l, u⟩, hu, rfl⟩ := List.mem_map.mp he
    exact (hs.arrive hu ((hs.block hw hblk).ways (ih hj) l hl)).2

theorem Sound.running_iff {d : Draft} (hs : d.Sound g returns) (hg : d.Grounded) :
    d.Running ↔ d.b.Runs :=
  and_congr_right fun _ => ⟨hg.live _, fun h => hs.live_of_reaches h hs.current⟩

end Draft

end Cascade.Codegen
