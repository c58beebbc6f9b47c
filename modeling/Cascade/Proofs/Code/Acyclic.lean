import Cascade.Proofs.Code.Reach

/-!
# Cascade.Proofs.Code.Acyclic

Functions whose graph has no cycle. The numbers of the blocks are in no useful order, so this is
shown with ranks that fall along every edge.
-/

namespace Cascade.Code

namespace Function

variable {f : Function}

def Acyclic (f : Function) : Prop := ∀ k l, l ∈ f.successors k → ¬ f.Leads l k

/-- The ranks of blocks fall wherever control goes on. -/
def Descends (f : Function) (rank : BlockId → Nat) : Prop :=
  ∀ k l, l ∈ f.successors k → rank l < rank k

theorem Descends.leads {rank : BlockId → Nat} (h : f.Descends rank) {k l : BlockId}
    (hl : f.Leads k l) : rank l ≤ rank k := by
  induction hl with
  | refl => exact Nat.le_refl _
  | step _ hs ih => exact Nat.le_trans (Nat.le_of_lt (h _ _ hs)) ih

theorem Descends.acyclic {rank : BlockId → Nat} (h : f.Descends rank) : f.Acyclic :=
  fun k l hl hback => Nat.not_lt_of_le (h.leads hback) (h k l hl)

theorem Coherent.block?_of_prune (hf : f.Coherent) {k : BlockId} {b : Block}
    (h : f.prune.block? k = some b) :
    f.block? k = some b := by
  obtain ⟨hmem, hid⟩ := f.prune_coherent.block?_some h
  have hlead : f.Leads f.entry k := by
    have hseen := (List.mem_filter.mp hmem).2
    exact mem_reachable.mp (by simpa [hid] using hseen)
  rwa [hf.block?_prune hlead] at h

theorem Coherent.successors_prune (hf : f.Coherent) {k l : BlockId}
    (h : l ∈ f.prune.successors k) : l ∈ f.successors k := by
  unfold successors at h
  split at h
  · rename_i b hb
    simpa only [successors, hf.block?_of_prune hb] using h
  · cases h

theorem Descends.prune (hf : f.Coherent) {rank : BlockId → Nat} (h : f.Descends rank) :
    f.prune.Descends rank :=
  fun k l hl => h k l (hf.successors_prune hl)

end Function

end Cascade.Code
