import Cascade.Proofs.Codegen.Draft

/-!
# Cascade.Proofs.Codegen.Grows

What the code of a subtree does to a draft.

* `Adds`: every block made is entered, and no other. This is what code for statements does.
* `Grows`: besides, control gets to the end exactly if it got to the start, and no way leads out.
  This is what code for expressions does.
* `Gives`: the code of an expression leaves a register that holds its value.
-/

namespace Cascade.Codegen

open Code

variable {g : Signature} {returns : Ty}

/-- From one draft to a later one, where blocks made in between are entered and earlier ones are
left alone. -/
structure Adds (g : Signature) (returns : Ty) (d d' : Draft) : Prop where
  makes : Makes g returns d d'
  entered : ∀ k, k < d.b.blocks.length → k ∈ d'.entered → k ∈ d.entered
  complete : ∀ k, d.b.blocks.length ≤ k → k < d'.b.blocks.length → k ∈ d'.entered

namespace Adds

theorem refl (d : Draft) : Adds g returns d d :=
  ⟨.refl, fun _ _ h => h, fun _ h h' => absurd h (Nat.not_le_of_lt h')⟩

theorem length {d d' : Draft} (h : Adds g returns d d') :
    d.b.blocks.length ≤ d'.b.blocks.length := h.makes.extends.length

theorem trans {d d' d'' : Draft} (h : Adds g returns d d') (h' : Adds g returns d' d'') :
    Adds g returns d d'' where
  makes := h.makes.trans h'.makes
  entered := fun k hk he => h.entered k hk (h'.entered k (Nat.lt_of_lt_of_le hk h.length) he)
  complete := fun k hk hk' => by
    by_cases hlt : k < d'.b.blocks.length
    · exact h'.makes.entered (h.complete k hk hlt)
    · exact h'.complete k (Nat.le_of_not_lt hlt) hk'

theorem op {d d' : Draft} (hop : Op g returns d d')
    (hlen : d'.b.blocks.length = d.b.blocks.length) (hs : d'.starts = d.starts) :
    Adds g returns d d' where
  makes := hop.makes
  entered := fun k _ he => by rwa [Draft.entered, hs] at he
  complete := fun k hk hk' => absurd (hlen ▸ hk') (Nat.not_lt_of_le hk)

end Adds

/-- The same around the code of an expression. -/
structure Grows (g : Signature) (returns : Ty) (d d' : Draft) : Prop
    extends Adds g returns d d' where
  isOpen : d'.Open
  live : d'.b.current ∈ d'.live ↔ d.b.current ∈ d.live
  written : d.written ⊆ d'.written
  ways : ∀ k u, k < d.b.blocks.length → (k, u) ∈ d'.ways → (k, u) ∈ d.ways

namespace Grows

theorem refl {d : Draft} (ho : d.Open) : Grows g returns d d :=
  ⟨.refl d, ho, Iff.rfl, List.Subset.refl _, fun _ _ _ h => h⟩

theorem trans {d d' d'' : Draft} (h : Grows g returns d d') (h' : Grows g returns d' d'') :
    Grows g returns d d'' where
  toAdds := h.toAdds.trans h'.toAdds
  isOpen := h'.isOpen
  live := h'.live.trans h.live
  written := List.Subset.trans h.written h'.written
  ways := fun k u hk hu =>
    h.ways k u hk (h'.ways k u (Nat.lt_of_lt_of_le hk h.toAdds.length) hu)

end Grows

namespace Builder

theorem isClosed_emit (b : Builder) (i : Instr) : (b.emit i).isClosed = b.isClosed := by
  unfold isClosed emit
  simp only [List.getElem?_modify_eq]
  cases b.blocks[b.current]? <;> rfl

theorem isClosed_close {b : Builder} (h : b.current < b.blocks.length) {t : Terminator}
    (ht : t.isClosed = true) : (b.close t).isClosed = true := by
  unfold isClosed close
  simp only [List.getElem?_modify_eq, List.getElem?_eq_getElem h]
  exact ht

end Builder

namespace Draft

theorem Open.emit {d : Draft} (ho : d.Open) (i : Instr) : (d.emit i).Open :=
  ⟨by simpa [Draft.emit, Builder.emit] using ho.1,
    (Builder.isClosed_emit d.b i).trans ho.2⟩

theorem Open.write {d : Draft} (ho : d.Open) (ty : Ty) (i : Instr) : (d.write ty i).Open :=
  ⟨by simpa [Draft.write, Builder.emit, Builder.newRegister] using ho.1,
    (Builder.isClosed_emit (d.b.newRegister ty).2 i).trans ho.2⟩

/-- A register that holds a value where the draft ends. -/
def Has (g : Signature) (returns : Ty) (d : Draft) (r : Register) : Prop :=
  (d.scheme g returns).Has d.written r

theorem Has.mono {d d' : Draft} {r : Register} (h : d.Has g returns r)
    (hg : Grows g returns d d') : d'.Has g returns r :=
  Scheme.Has.mono h hg.makes.scheme hg.written

def Knows (slots : List Ty) (d : Draft) : Prop :=
  ∃ more, d.b.locals.map Code.Local.ty = slots ++ more

theorem Knows.mono {slots : List Ty} {d d' : Draft} (h : d.Knows slots)
    (hm : Makes g returns d d') : d'.Knows slots := by
  obtain ⟨more, he⟩ := h
  obtain ⟨more', he'⟩ := hm.extends.locals
  exact ⟨more ++ more'.map Code.Local.ty, by rw [he', List.map_append, he, List.append_assoc]⟩

theorem Knows.local {slots : List Ty} {d : Draft} (h : d.Knows slots) {n : Nat} {t : Ty}
    (hn : slots[n]? = some t) : (d.b.locals.map Code.Local.ty)[n]? = some t := by
  obtain ⟨more, he⟩ := h
  obtain ⟨hlt, -⟩ := List.getElem?_eq_some_iff.mp hn
  rw [he, List.getElem?_append_left hlt, hn]

theorem write_has {d : Draft} (hs : d.Sound g returns) (ty : Ty) (i : Instr) :
    (d.write ty i).Has g returns ⟨d.b.registers, ty⟩ := by
  refine ⟨?_, List.mem_cons_self⟩
  simp [Scheme.Declares, scheme, write, ← hs.types]

end Draft

theorem grows_emit {d : Draft} (ho : d.Open) {i : Instr} (hd : i.dest? = none)
    (hi : i.Fits (d.scheme g returns) d.written) : Grows g returns d (d.emit i) where
  toAdds := .op (.emit ho hd hi) (Builder.emit_length _ _) rfl
  isOpen := ho.emit i
  live := Iff.rfl
  written := List.Subset.refl _
  ways := fun _ _ _ h => h

theorem grows_write {d : Draft} (ho : d.Open) {ty : Ty} {i : Instr}
    (hd : i.dest? = some ⟨d.b.registers, ty⟩)
    (hi : i.Fits ((d.write ty i).scheme g returns) d.written) :
    Grows g returns d (d.write ty i) where
  toAdds := .op (.write ho hd hi) (Builder.emit_length _ _) rfl
  isOpen := ho.write ty i
  live := Iff.rfl
  written := List.subset_cons_self _ _
  ways := fun _ _ _ h => h

theorem grows_newLocal {d : Draft} (ho : d.Open) {ty : Ty} (hn : ty.isNumeric = true) :
    Grows g returns d (d.newLocal ty) where
  toAdds := .op (.newLocal hn) rfl rfl
  isOpen := ho
  live := Iff.rfl
  written := List.Subset.refl _
  ways := fun _ _ _ h => h

/-- Code that leaves its value in a register. -/
def Gives (g : Signature) (returns : Ty) (d : Draft) (result : Register × Builder) (ty : Ty) :
    Prop :=
  ∃ d', result.2 = d'.b ∧ Grows g returns d d' ∧ d'.Has g returns result.1 ∧ result.1.ty = ty

theorem Gives.after {d d' : Draft} {result : Register × Builder} {ty : Ty}
    (hg : Grows g returns d d') (h : Gives g returns d' result ty) :
    Gives g returns d result ty := by
  obtain ⟨d'', hb, hg', hr, hty⟩ := h
  exact ⟨d'', hb, hg.trans hg', hr, hty⟩

theorem write_gives {d : Draft} (hs : d.Sound g returns) (ho : d.Open) {ty : Ty} {i : Instr}
    (hd : i.dest? = some ⟨d.b.registers, ty⟩)
    (hi : i.Fits ((d.write ty i).scheme g returns) d.written) :
    Gives g returns d (⟨d.b.registers, ty⟩, (d.b.newRegister ty).2.emit i) ty :=
  ⟨d.write ty i, rfl, grows_write ho hd hi, d.write_has hs ty i, rfl⟩

end Cascade.Codegen
