import Cascade.Proofs.Code.Index
import Mathlib.Logic.Relation

/-!
# Cascade.Proofs.Code.Reach

Reachability in the graph of a function, whatever its blocks: they may form cycles, share numbers
or lead to numbers that no block has.

* `Function.Leads`: control can get from one number to another.
* `Function.Takes`: one turn of a search, which may look at its work in any order. Every turn uses
  up an edge (`takes_wellFounded`), and a search that is over has seen exactly what the entry leads
  to (`Searched.mem`).
* `Function.mem_reachable`: so has `reachable`, whose fuel suffices for a whole search.
* `Function.prune_blocks`, `Function.Coherent.block?_prune`: pruning keeps what the entry leads to.
-/

namespace Cascade.Code

namespace Function

variable {f : Function}

/-- Control can get from a number to another one in any number of steps. -/
inductive Leads (f : Function) (start : Nat) : Nat → Prop where
  | refl : Leads f start start
  | step {k l : Nat} : Leads f start k → l ∈ f.successors k → Leads f start l

/-! ## The search -/

/-- Where a search stands: the numbers that it has still to look at, and those that it has seen. -/
structure Search where
  work : List BlockId
  seen : List BlockId

/-- The search takes a number from its work, whichever it likes. Seen for the first time, the number
adds to the work what control can get to from it, in whatever places. -/
inductive Takes (f : Function) : Search → Search → Prop where
  | again {c : Search} {id : BlockId} {rest : List BlockId} : c.work.Perm (id :: rest) →
      id ∈ c.seen → Takes f c ⟨rest, c.seen⟩
  | first {c : Search} {id : BlockId} {rest work : List BlockId} : c.work.Perm (id :: rest) →
      id ∉ c.seen → work.Perm (f.successors id ++ rest) → Takes f c ⟨work, id :: c.seen⟩

/-- What holds from the start of a search to its end. -/
structure Searched (f : Function) (c : Search) : Prop where
  led : ∀ k, k ∈ c.work ∨ k ∈ c.seen → f.Leads f.entry k
  entry : f.entry ∈ c.work ∨ f.entry ∈ c.seen
  closed : ∀ k ∈ c.seen, ∀ l ∈ f.successors k, l ∈ c.work ∨ l ∈ c.seen
  nodup : c.seen.Nodup

theorem searched_start (f : Function) : f.Searched ⟨[f.entry], []⟩ where
  led k hk := by
    obtain rfl : k = f.entry := by simpa using hk
    exact .refl
  entry := .inl List.mem_cons_self
  closed k hk := by cases hk
  nodup := List.nodup_nil

theorem Searched.takes {c c' : Search} (h : f.Searched c) (ht : f.Takes c c') :
    f.Searched c' := by
  cases ht with
  | @again id rest hw hid =>
    -- what is taken has been seen, so nothing is lost
    have hstays : ∀ k, k ∈ c.work ∨ k ∈ c.seen → k ∈ rest ∨ k ∈ c.seen := by
      rintro k (hk | hk)
      · obtain rfl | hk := List.mem_cons.mp (hw.mem_iff.mp hk)
        · exact .inr hid
        · exact .inl hk
      · exact .inr hk
    refine ⟨fun k hk => h.led k (hk.imp_left fun hk => ?_), hstays _ h.entry,
      fun k hk l hl => hstays l (h.closed k hk l hl), h.nodup⟩
    exact hw.mem_iff.mpr (List.mem_cons_of_mem _ hk)
  | @first id rest work hw hid hwork =>
    have hled : f.Leads f.entry id := h.led id (.inl (hw.mem_iff.mpr List.mem_cons_self))
    have hstays : ∀ k, k ∈ c.work ∨ k ∈ c.seen → k ∈ work ∨ k ∈ id :: c.seen := by
      rintro k (hk | hk)
      · obtain rfl | hk := List.mem_cons.mp (hw.mem_iff.mp hk)
        · exact .inr List.mem_cons_self
        · exact .inl (hwork.mem_iff.mpr (List.mem_append_right _ hk))
      · exact .inr (List.mem_cons_of_mem _ hk)
    refine ⟨fun k hk => ?_, hstays _ h.entry, fun k hk l hl => ?_,
      List.nodup_cons.mpr ⟨hid, h.nodup⟩⟩
    · obtain hk | hk := hk
      · obtain hk | hk := List.mem_append.mp (hwork.mem_iff.mp hk)
        · exact hled.step hk
        · exact h.led k (.inl (hw.mem_iff.mpr (List.mem_cons_of_mem _ hk)))
      · obtain rfl | hk := List.mem_cons.mp hk
        · exact hled
        · exact h.led k (.inr hk)
    · obtain rfl | hk := List.mem_cons.mp hk
      · exact .inl (hwork.mem_iff.mpr (List.mem_append_left _ hl))
      · exact hstays l (h.closed k hk l hl)

/-- A search that has no work left has seen all that the entry leads to. -/
theorem Searched.mem {seen : List BlockId} (h : f.Searched ⟨[], seen⟩) {k : BlockId} :
    k ∈ seen ↔ f.Leads f.entry k := by
  have hnil : ∀ {l : BlockId}, l ∈ [] ∨ l ∈ seen → l ∈ seen := by simp
  refine ⟨fun hk => h.led k (.inr hk), fun hk => ?_⟩
  induction hk with
  | refl => exact hnil h.entry
  | step _ hl ih => exact hnil (h.closed _ ih _ hl)

theorem searched_of_takes {c : Search}
    (h : Relation.ReflTransGen f.Takes ⟨[f.entry], []⟩ c) : f.Searched c := by
  induction h with
  | refl => exact searched_start f
  | tail _ ht ih => exact ih.takes ht

/-! ## Its end -/

/-- The edges out of numbers that were not seen yet. -/
def unseenEdges (f : Function) (seen : List BlockId) (index : List (BlockId × Nat)) : Nat :=
  index.foldr (fun e n => (if seen.contains e.1 then 0 else (f.successors e.1).length) + n) 0

theorem unseenEdges_cons_le (id : BlockId) (seen : List BlockId) :
    ∀ index : List (BlockId × Nat),
      unseenEdges f (id :: seen) index ≤ unseenEdges f seen index := by
  intro index
  induction index with
  | nil => exact Nat.le_refl _
  | cons e es ih =>
    simp only [unseenEdges, List.foldr_cons, List.contains_cons] at ih ⊢
    by_cases he : seen.contains e.1 = true
    · simp only [he, Bool.or_true, if_true]
      omega
    · simp only [he, Bool.or_false, Bool.false_eq_true, if_false]
      split
      · omega
      · omega

theorem unseenEdges_cons {id : BlockId} {seen : List BlockId} (hid : seen.contains id = false)
    {i : Nat} : ∀ {index : List (BlockId × Nat)}, (id, i) ∈ index →
    unseenEdges f (id :: seen) index + (f.successors id).length ≤ unseenEdges f seen index := by
  intro index
  induction index with
  | nil =>
    intro h
    cases h
  | cons e es ih =>
    intro h
    have hrest := unseenEdges_cons_le (f := f) id seen es
    simp only [unseenEdges, List.foldr_cons, List.contains_cons] at hrest ⊢
    obtain rfl | h := List.mem_cons.mp h
    · simp only [beq_self_eq_true, Bool.true_or, if_true, hid, Bool.false_eq_true, if_false]
      omega
    · have ih := ih h
      simp only [unseenEdges, List.contains_cons] at ih
      by_cases he : seen.contains e.1 = true
      · simp only [he, Bool.or_true, if_true]
        omega
      · simp only [he, Bool.or_false, Bool.false_eq_true, if_false]
        split
        · omega
        · omega

/-- A number that the index does not have leads nowhere. -/
theorem successors_le {id : BlockId} {seen : List BlockId} (hid : seen.contains id = false) :
    unseenEdges f (id :: seen) f.index + (f.successors id).length ≤
      unseenEdges f seen f.index := by
  cases hi : f.index.lookup id with
  | some i =>
    obtain ⟨before, after, hindex, -⟩ := List.lookup_eq_some_iff.mp hi
    exact unseenEdges_cons hid (i := i) (by rw [hindex]; simp)
  | none =>
    have hnone : f.successors id = [] := by rw [successors, block?, hi]
    rw [hnone]
    exact unseenEdges_cons_le id seen f.index

/-- How often a search can still take a number. -/
def Search.left (f : Function) (c : Search) : Nat := c.work.length + unseenEdges f c.seen f.index

theorem Takes.left_lt {c c' : Search} (h : f.Takes c c') : c'.left f < c.left f := by
  cases h with
  | again hw hid =>
    simp only [Search.left, hw.length_eq, List.length_cons]
    omega
  | @first id rest work hw hid hwork =>
    have hle : unseenEdges f (id :: c.seen) f.index + (f.successors id).length ≤
        unseenEdges f c.seen f.index := successors_le (by simpa using hid)
    simp only [Search.left, hw.length_eq, hwork.length_eq, List.length_cons, List.length_append]
    omega

/-- With fuel for the work and for all edges that are left, `visit` is a whole search. -/
theorem visit_takes : ∀ (n : Nat) (work seen : List BlockId), Search.left f ⟨work, seen⟩ ≤ n →
    Relation.ReflTransGen f.Takes ⟨work, seen⟩ ⟨[], f.visit n work seen⟩ := by
  intro n
  induction n with
  | zero =>
    intro work seen hn
    obtain rfl : work = [] := by
      refine List.eq_nil_of_length_eq_zero ?_
      simp only [Search.left] at hn
      omega
    exact .refl
  | succ n ih =>
    intro work seen hn
    cases work with
    | nil => exact .refl
    | cons id work =>
      rw [visit]
      split
      · rename_i hid
        have ht : f.Takes ⟨id :: work, seen⟩ ⟨work, seen⟩ := .again (.refl _) (by simpa using hid)
        exact .head ht (ih _ _ (Nat.le_of_lt_succ (Nat.lt_of_lt_of_le ht.left_lt hn)))
      · rename_i hid
        have ht : f.Takes ⟨id :: work, seen⟩ ⟨f.successors id ++ work, id :: seen⟩ :=
          .first (.refl _) (by simpa using hid) (.refl _)
        exact .head ht (ih _ _ (Nat.le_of_lt_succ (Nat.lt_of_lt_of_le ht.left_lt hn)))

theorem reachable_takes (f : Function) :
    Relation.ReflTransGen f.Takes ⟨[f.entry], []⟩ ⟨[], f.reachable⟩ :=
  visit_takes _ _ _ (Nat.le_refl _)

theorem mem_reachable {k : Nat} : k ∈ f.reachable ↔ f.Leads f.entry k :=
  (searched_of_takes (reachable_takes f)).mem

instance (k : BlockId) : Decidable (f.Leads f.entry k) := decidable_of_iff _ mem_reachable

/-! ## Pruning -/

theorem Coherent.block?_prune (hf : f.Coherent) {k : BlockId} (h : f.Leads f.entry k) :
    f.prune.block? k = f.block? k := by
  have hk : f.reachable.contains k = true := by simpa using mem_reachable.mpr h
  rw [hf.block?_eq, f.prune_coherent.block?_eq, Function.prune]
  simp only [← List.filter_reverse, List.find?_filter]
  congr 1
  funext b
  by_cases hb : b.id = k
  · simp only [hb, hk, beq_self_eq_true]
    simp
  · simp [hb]

/-- With an index that misses a block, pruning makes the block known. -/
example : ∃ f : Function, f.Leads f.entry 0 ∧ f.block? 0 = none ∧
    f.prune.block? 0 = some ⟨0, none, [], .ret none⟩ :=
  ⟨⟨0, "main", .void, [], 0, [⟨0, none, [], .ret none⟩], 0, [], .zero⟩, .refl, rfl, by decide⟩

end Function

end Cascade.Code
