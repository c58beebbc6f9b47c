import Cascade.Code.Function
import Mathlib.Data.List.Induction

/-!
# Cascade.Proofs.Code.Index

Look-up of blocks. The index of a function is data of its own, which need not fit the blocks.

* `Function.Coherent`: a number leads to the last of the blocks that have it.
* `Function.of`: a function whose index was made for its blocks, by whatever way
  (`foldl_addBlock`, `prune_coherent`).
* `Coherent.block?_eq`: what is found in such a function can be read off the blocks.
-/

namespace Cascade.Code

theorem indexOf_concat (blocks : List Block) (b : Block) :
    indexOf (blocks ++ [b]) = (b.id, blocks.length) :: indexOf blocks := by
  simp [indexOf, List.zipIdx_append]

/-- The place that an index has for a number is that of the last block with it. -/
theorem lookup_indexOf (blocks : List Block) (id : BlockId) : (indexOf blocks).lookup id =
    (blocks.zipIdx.reverse.find? fun p => p.1.id == id).map Prod.snd := by
  rw [indexOf, ← List.map_reverse]
  induction blocks.zipIdx.reverse with
  | nil => rfl
  | cons p ps ih =>
    rw [List.map_cons, List.lookup_cons, List.find?_cons, Bool.beq_comm]
    cases p.1.id == id with
    | true => rfl
    | false => exact ih

namespace Function

/-- The index agrees with the blocks. -/
def Coherent (f : Function) : Prop := ∀ id, f.index.lookup id = (indexOf f.blocks).lookup id

def of (id : FunctionId) (name : String) (returns : Ty) (locals : List Local) (registers : Nat)
    (blocks : List Block) (entry : BlockId) (span : Span) : Function :=
  ⟨id, name, returns, locals, registers, blocks, entry, indexOf blocks, span⟩

variable {f : Function} {id : BlockId} {b : Block}

theorem of_coherent {fid : FunctionId} {name : String} {returns : Ty} {locals : List Local}
    {registers : Nat} {blocks : List Block} {entry : BlockId} {span : Span} :
    (of fid name returns locals registers blocks entry span).Coherent := fun _ => rfl

theorem prune_coherent (f : Function) : f.prune.Coherent := fun _ => rfl

theorem foldl_addBlock (fid : FunctionId) (name : String) (returns : Ty) (locals : List Local)
    (registers : Nat) (blocks : List Block) (entry : BlockId) (span : Span) :
    blocks.foldl addBlock ⟨fid, name, returns, locals, registers, [], entry, [], span⟩ =
      of fid name returns locals registers blocks entry span := by
  induction blocks using List.reverseRecOn with
  | nil => rfl
  | append_singleton blocks b ih =>
    rw [List.foldl_append, ih]
    simp [of, addBlock, indexOf_concat]

theorem block?_mem (h : f.block? id = some b) : b ∈ f.blocks := by
  unfold block? at h
  split at h
  · exact List.mem_of_getElem? h
  · cases h

namespace Coherent

theorem block?_eq (hf : f.Coherent) (id : BlockId) :
    f.block? id = f.blocks.reverse.find? fun b => b.id == id := by
  have hfst : f.blocks.reverse = f.blocks.zipIdx.reverse.map Prod.fst := by
    rw [List.map_reverse, List.zipIdx_map_fst]
  rw [block?, hf, lookup_indexOf, hfst, List.find?_map]
  change _ = (f.blocks.zipIdx.reverse.find? fun p => p.1.id == id).map Prod.fst
  cases hfind : f.blocks.zipIdx.reverse.find? fun p => p.1.id == id with
  | none => rfl
  | some p =>
    have hmem := List.mem_reverse.mp (List.mem_of_find?_eq_some hfind)
    exact List.mem_zipIdx_iff_getElem?.mp hmem

theorem block?_some (hf : f.Coherent) (h : f.block? id = some b) : b ∈ f.blocks ∧ b.id = id := by
  rw [hf.block?_eq] at h
  exact ⟨List.mem_reverse.mp (List.mem_of_find?_eq_some h), by simpa using List.find?_some h⟩

/-- Where the blocks are numbered by their places, the number of a block is its place. -/
theorem block?_place (hf : f.Coherent)
    (hnum : ∀ {k : Nat} {b : Block}, f.blocks[k]? = some b → b.id = k) (k : Nat) :
    f.block? k = f.blocks[k]? := by
  cases hb : f.block? k with
  | some b =>
    obtain ⟨hmem, hid⟩ := hf.block?_some hb
    obtain ⟨j, hj⟩ := List.mem_iff_getElem?.mp hmem
    obtain rfl : j = k := (hnum hj).symm.trans hid
    exact hj.symm
  | none =>
    cases hk : f.blocks[k]? with
    | none => rfl
    | some b =>
      rw [hf.block?_eq] at hb
      have := List.find?_eq_none.mp hb b (List.mem_reverse.mpr (List.mem_of_getElem? hk))
      exact absurd (by simpa using hnum hk) this

end Coherent

end Function

end Cascade.Code
