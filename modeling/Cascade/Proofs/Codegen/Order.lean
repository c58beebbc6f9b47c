import Cascade.Proofs.Code.Acyclic
import Cascade.Proofs.Codegen.Program

/-!
# Cascade.Proofs.Codegen.Order

The code of a function has no cycle. Blocks are numbered as they are made, and control may go from
a block to one with a lower number: from a case inside another one back to what lies behind the
switch. But control is only ever sent to a block that nothing was put into yet, so it goes from
each block to blocks that work was taken up in later.

* `Draft.Onward`: this order; `Makes.onward`: the operations preserve it.
* `lowerProgram_descends`: ranks for the functions of a program.
-/

namespace Cascade.Codegen

open Code

variable {g : Signature} {returns : Ty}

namespace Draft

/-- How many blocks were entered before a block; all that were, if it was not entered. -/
def place (d : Draft) (k : BlockId) : Nat := d.entered.reverse.idxOf k

/-- Control goes from each block to blocks that were entered later, if at all. -/
def Onward (d : Draft) : Prop :=
  ∀ k blk, d.b.blocks[k]? = some blk → ∀ l ∈ blk.term.targets, d.place k < d.place l

theorem place_lt {d : Draft} {k : BlockId} (h : k ∈ d.entered) : d.place k < d.entered.length := by
  have := List.idxOf_lt_length_of_mem (List.mem_reverse.mpr h)
  rwa [List.length_reverse] at this

theorem place_new {d : Draft} {k : BlockId} (h : k ∉ d.entered) : d.place k = d.entered.length := by
  rw [place, List.idxOf_eq_length (fun hk => h (List.mem_reverse.mp hk)), List.length_reverse]

theorem place_le (d : Draft) (k : BlockId) : d.place k ≤ d.entered.length := by
  by_cases h : k ∈ d.entered
  · exact Nat.le_of_lt (place_lt h)
  · exact Nat.le_of_eq (place_new h)

theorem entered_goto (d : Draft) (k : BlockId) (w : List Nat) :
    (d.goto k w).entered.reverse = d.entered.reverse ++ [k] := by
  simp [entered, goto]

theorem place_goto {d : Draft} {j k : BlockId} {w : List Nat} (h : j ∈ d.entered) :
    (d.goto k w).place j = d.place j := by
  rw [place, entered_goto, List.idxOf_append, if_pos (List.mem_reverse.mpr h)]
  rfl

theorem place_goto_le (d : Draft) (j k : BlockId) (w : List Nat) :
    d.place j ≤ (d.goto k w).place j := by
  by_cases h : j ∈ d.entered
  · exact Nat.le_of_eq (place_goto h).symm
  · rw [place_new h, place, entered_goto, List.idxOf_append,
      if_neg (fun hj => h (List.mem_reverse.mp hj)), List.length_reverse]
    exact Nat.le_add_left _ _

theorem Onward.start (locals : List Code.Local) : (Draft.start locals).Onward := by
  intro k blk hk l hl
  simp only [Draft.start, Builder.start, List.getElem?_singleton] at hk
  split at hk
  · cases hk
    cases hl
  · cases hk

/-- A change to the current block that sends control nowhere, or to blocks that were not entered. -/
theorem Onward.modify {d d' : Draft} (h : d.Onward) (hs : d.Sound g returns)
    {change : Block → Block} (hblocks : d'.b.blocks = d.b.blocks.modify d.b.current change)
    (hstarts : d'.starts = d.starts)
    (hchange : ∀ blk, ∀ l ∈ (change blk).term.targets, l ∈ blk.term.targets ∨ l ∉ d.entered) :
    d'.Onward := by
  have hplace : d'.place = d.place := by
    funext k
    rw [place, place, entered, entered, hstarts]
  intro k blk hk l hl
  rw [hblocks] at hk
  rw [hplace]
  obtain ⟨-, hk⟩ | ⟨rfl, c, hc, rfl⟩ := Builder.modify_blocks hk
  · exact h k blk hk l hl
  · obtain hl | hl := hchange c l hl
    · exact h _ c hc l hl
    · rw [place_new hl]
      exact place_lt hs.current

end Draft

theorem Op.onward {d d' : Draft} (hop : Op g returns d d') (hs : d.Sound g returns)
    (h : d.Onward) : d'.Onward := by
  cases hop with
  | emit | write => exact h.modify hs rfl rfl fun _ _ hl => .inl hl
  | close _ _ htargets => exact h.modify hs rfl rfl fun _ l hl => .inr (htargets l hl).2
  | newLocal => exact h
  | newBlock =>
    intro k blk hk l hl
    obtain hk | ⟨-, rfl⟩ := Builder.newBlock_blocks hk
    · exact h k blk hk l hl
    · cases hl
  | @goto k w _ _ hfresh _ =>
    intro j blk hj l hl
    by_cases he : j ∈ d.entered
    · rw [Draft.place_goto he]
      exact Nat.lt_of_lt_of_le (h j blk hj l hl) (d.place_goto_le l k w)
    · rw [(hs.fresh hj he).2] at hl
      cases hl

theorem Makes.onward {d d' : Draft} (hm : Makes g returns d d') (hs : d.Sound g returns)
    (h : d.Onward) : d'.Onward := by
  induction hm with
  | refl => exact h
  | step hm hop ih => exact hop.onward (hm.sound hs) ih

/-! ## Finished functions -/

theorem Draft.Onward.finish {d : Draft} (h : d.Onward) (hs : d.Sound g returns) :
    (d.finish returns).Onward := by
  unfold Draft.finish
  split
  · exact h.modify hs rfl rfl fun _ l hl => nomatch hl
  · exact h

/-- How many blocks were entered from a block on, itself included. -/
def Draft.rank (d : Draft) (k : BlockId) : Nat := d.entered.length - d.place k

theorem Finished.descends {d : Draft} (h : Finished g returns d) (ho : d.Onward)
    (id : FunctionId) (name : String) (span : Span) :
    (d.b.function id name returns span).Descends d.rank := by
  intro k l hl
  simp only [Function.successors, h.block?] at hl
  cases hk : d.b.blocks[k]? with
  | none =>
    rw [hk] at hl
    cases hl
  | some blk =>
    rw [hk] at hl
    have := ho k blk hk l hl
    have := d.place_le l
    simp only [Draft.rank]
    omega

/-- The function that is made of a body has falling ranks. -/
theorem Adds.descends {locals : List Code.Local} {d : Draft}
    (hlocals : ∀ l ∈ locals, l.ty.isNumeric = true) (ha : Adds g returns (.start locals) d)
    (hr : d.Running → returns = .void) (id : FunctionId) (name : String) (span : Span) :
    (finish d.b id name returns span).Descends (d.finish returns).rank := by
  have hs : (Draft.start locals).Sound g returns := .start hlocals
  rw [finish_eq]
  exact ((ha.finished hlocals hr).descends
    ((ha.makes.onward hs (.start locals)).finish (ha.makes.sound hs)) id name span).prune
      Builder.function_coherent

/-! ## Programs -/

theorem mem_genMethods {p : Typed.Program} : ∀ {ms : List Typed.Method} {fs : List Function},
    genMethods p ms = .ok fs → ∀ f ∈ fs, ∃ m ∈ ms, genMethod p m = .ok f := by
  intro ms
  induction ms with
  | nil =>
    intro fs h f hf
    cases h
    cases hf
  | cons m ms ih =>
    intro fs h f hf
    rw [genMethods] at h
    split at h
    · cases h
    · split at h
      · cases h
      · cases h
        obtain rfl | hf := List.mem_cons.mp hf
        · exact ⟨m, List.mem_cons_self, ‹_›⟩
        · obtain ⟨m', hm', hgen⟩ := ih ‹_› f hf
          exact ⟨m', List.mem_cons_of_mem _ hm', hgen⟩

theorem mem_lowerProgram {p : Typed.Program} {c : Module} (h : lowerProgram p = .ok c)
    {f : Function} (hf : f ∈ c.functions) : (∃ m ∈ p.methods, genMethod p m = .ok f) ∨
      genInitializer p p.methods.length = .ok f := by
  rw [lowerProgram_eq, genProgram] at h
  split at h
  · cases h
  · split at h
    · cases h
    · cases h
      obtain hf | hf := List.mem_append.mp hf
      · exact .inl (mem_genMethods ‹_› f hf)
      · obtain rfl := List.mem_singleton.mp hf
        exact .inr ‹_›

/-- What the code of a function was made from. -/
inductive Drafted (p : Typed.Program) (f : Function) : Prop where
  | intro {returns : Ty} {locals : List Code.Local} {d : Draft} {span : Span} :
      (∀ l ∈ locals, l.ty.isNumeric = true) →
      Adds p.signature returns (.start locals) d → (d.Running → returns = .void) →
      f = finish d.b f.id f.name returns span → Drafted p f

theorem lowerProgram_drafted {p : Typed.Program} (hw : p.WellTyped) {c : Module}
    (h : lowerProgram p = .ok c) {f : Function} (hf : f ∈ c.functions) : Drafted p f := by
  obtain ⟨m, hm, hgen⟩ | hgen := mem_lowerProgram h hf
  · have hmw := hw.methods m hm
    obtain ⟨d, hrun, hp⟩ := genBody_passes (p := p) rfl hmw
    rw [genMethod, hrun] at hgen
    cases hgen
    exact .intro (namedLocal_numeric hmw) hp.toAdds (genBody_runs hmw hp) rfl
  · obtain ⟨d, hrun, hg⟩ := genInits_grows rfl p.fields (d := .start []) hw.fields
      (fun f hf => hw.numbered.signature_field hf) (.start (by simp)) (start_open [])
    rw [genInitializer, show genInits p (.start []) p.fields = _ from hrun] at hgen
    cases hgen
    exact .intro (by simp) hg.toAdds (fun _ => rfl) rfl

theorem lowerProgram_descends {p : Typed.Program} (hw : p.WellTyped) {c : Module}
    (h : lowerProgram p = .ok c) {f : Function} (hf : f ∈ c.functions) :
    ∃ rank, f.Descends rank := by
  obtain ⟨hlocals, ha, hr, heq⟩ := lowerProgram_drafted hw h hf
  rw [heq]
  exact ⟨_, ha.descends hlocals hr _ _ _⟩

end Cascade.Codegen
