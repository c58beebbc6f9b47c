import Cascade.Proofs.Codegen.Expr

/-!
# Cascade.Proofs.Codegen.Switch

The blocks of a switch. With `n` cases they are numbered one behind the other, first those of the
cases and then the one behind the switch.

* `OpenSwitch.caseBlock_consecutive`: the number of the block of a case.
* `openSwitch_switched`: making the blocks and dispatching to them.
-/

namespace Cascade.Codegen

open Code

variable {g : Signature} {returns : Ty} {d : Draft}

/-- A switch whose blocks are numbered from `first` on. -/
def OpenSwitch.consecutive (first n : Nat) : OpenSwitch := ⟨first + n, List.range' first n⟩

theorem OpenSwitch.caseBlock_consecutive {first n i : Nat} (h : i ≤ n) :
    (consecutive first n).caseBlock i = first + i := by
  unfold caseBlock consecutive
  obtain hlt | rfl := Nat.lt_or_eq_of_le h
  · simp [List.getD, hlt]
  · simp [List.getD]

theorem OpenSwitch.caseBlock_le (first n i : Nat) : first ≤ (consecutive first n).caseBlock i := by
  unfold caseBlock consecutive
  obtain hlt | hge := Nat.lt_or_ge i n
  · simp [List.getD, hlt]
  · simp [List.getD, hge]

/-- Blocks were made and nothing else was done. -/
structure AddsBlocks (g : Signature) (returns : Ty) (d d' : Draft) (n : Nat) : Prop where
  makes : Makes g returns d d'
  isOpen : d.Open → d'.Open
  current : d'.b.current = d.b.current
  written : d'.written = d.written
  starts : d'.starts = d.starts
  ways : d'.ways = d.ways
  live : d'.live = d.live
  length : d'.b.blocks.length = d.b.blocks.length + n

theorem newBlock_addsBlocks (g : Signature) (returns : Ty) (d : Draft) (label : String) :
    AddsBlocks g returns d (d.newBlock label) 1 :=
  ⟨Op.newBlock.makes, fun ho => ho.newBlock label, rfl, rfl, rfl, rfl, rfl,
    Builder.newBlock_length _ _⟩

theorem AddsBlocks.trans {d' d'' : Draft} {m n : Nat} (h : AddsBlocks g returns d d' m)
    (h' : AddsBlocks g returns d' d'' n) : AddsBlocks g returns d d'' (m + n) where
  makes := h.makes.trans h'.makes
  isOpen := h'.isOpen ∘ h.isOpen
  current := h'.current.trans h.current
  written := h'.written.trans h.written
  starts := h'.starts.trans h.starts
  ways := h'.ways.trans h.ways
  live := h'.live.trans h.live
  length := by rw [h'.length, h.length, Nat.add_assoc]

theorem newCaseBlocks_addsBlocks (g : Signature) (returns : Ty) (n i : Nat) (d : Draft) :
    ∃ d', newCaseBlocks d.b i n = (List.range' d.b.blocks.length n, d'.b) ∧
      AddsBlocks g returns d d' n := by
  induction n generalizing i d with
  | zero => exact ⟨d, rfl, ⟨.refl, id, rfl, rfl, rfl, rfl, rfl, rfl⟩⟩
  | succ n ih =>
    have h1 := newBlock_addsBlocks g returns d ("switch.case" ++ toString i)
    obtain ⟨d', he, h2⟩ := ih (i + 1) (d.newBlock ("switch.case" ++ toString i))
    refine ⟨d', ?_, (Nat.add_comm 1 n) ▸ h1.trans h2⟩
    simp only [Draft.newBlock, Builder.newBlock_length] at he
    simp only [newCaseBlocks, he]
    rfl

/-! ## Dispatch -/

theorem labelled_labels : ∀ (cases : List Typed.Case) (blocks : List Nat),
    cases.length = blocks.length →
    (labelled cases blocks).map Prod.fst = cases.filterMap Typed.Case.label
  | [], _, _ => by simp [labelled]
  | .mk l body :: cs, b :: bs, h => by
    have ih := labelled_labels cs bs (by simpa using h)
    cases l with
    | none => simpa [labelled, Typed.Case.label, List.filterMap_cons] using ih
    | some n => simpa [labelled, Typed.Case.label, List.filterMap_cons] using ih

theorem labelled_targets : ∀ (cases : List Typed.Case) (blocks : List Nat) (k : Nat),
    k ∈ (labelled cases blocks).map Prod.snd → k ∈ blocks
  | [], _, _, h => by simp [labelled] at h
  | .mk l body :: cs, [], _, h => by cases l <;> simp [labelled] at h
  | .mk none body :: cs, b :: bs, k, h => by
    simp only [labelled] at h
    exact List.mem_cons_of_mem b (labelled_targets cs bs k h)
  | .mk (some n) body :: cs, b :: bs, k, h => by
    simp only [labelled, List.map_cons, List.mem_cons] at h
    obtain rfl | h := h
    · exact List.mem_cons_self
    · exact List.mem_cons_of_mem b (labelled_targets cs bs k h)

theorem defaultBlock_consecutive (cases : List Typed.Case) (first : Nat) :
    ∃ i, i ≤ cases.length ∧
      defaultBlock cases (.consecutive first cases.length) = first + i ∧
      (i = cases.length → cases.any Typed.Case.isDefault = false) := by
  unfold defaultBlock
  split
  · rename_i i hi
    obtain ⟨hlt, -⟩ := List.findIdx?_eq_some_iff_getElem.mp hi
    exact ⟨i, Nat.le_of_lt hlt, OpenSwitch.caseBlock_consecutive (Nat.le_of_lt hlt),
      fun h => absurd h (Nat.ne_of_lt hlt)⟩
  · rename_i hnone
    refine ⟨cases.length, Nat.le_refl _, rfl, fun _ => ?_⟩
    simpa [List.any_eq_false, List.findIdx?_eq_none_iff] using hnone

/-- Where control goes from the scrutinee of a switch whose blocks are numbered from `first` on. -/
def dispatch (scrutinee : Register) (cases : List Typed.Case) (first : Nat) : Terminator :=
  .switch scrutinee (labelled cases (List.range' first cases.length))
    (defaultBlock cases (.consecutive first cases.length))

theorem dispatch_targets_le {r : Register} {cases : List Typed.Case} {first k : Nat}
    (h : k ∈ (dispatch r cases first).targets) :
    first ≤ k ∧ k ≤ first + cases.length ∧
      (k = first + cases.length → cases.any Typed.Case.isDefault = false) := by
  obtain ⟨i, hi, hdefault, hbehind⟩ := defaultBlock_consecutive cases first
  simp only [dispatch, Terminator.targets, hdefault, List.mem_append, List.mem_singleton] at h
  obtain h | rfl := h
  · have hk := labelled_targets _ _ _ h
    simp only [List.mem_range'_1] at hk
    exact ⟨hk.1, Nat.le_of_lt hk.2, fun he => absurd he (Nat.ne_of_lt hk.2)⟩
  · exact ⟨Nat.le_add_right _ _, Nat.add_le_add_left hi _, fun he => hbehind (by omega)⟩

theorem labelled_or_default : ∀ (cases : List Typed.Case) (first i : Nat), i < cases.length →
    cases.countP Typed.Case.isDefault ≤ 1 →
    first + i ∈ (labelled cases (List.range' first cases.length)).map Prod.snd ∨
      cases.findIdx? Typed.Case.isDefault = some i
  | .mk (some n) body :: cs, first, 0, _, _ => by
    simp [labelled, List.range'_succ]
  | .mk none body :: cs, first, 0, _, _ => by
    simp [Typed.Case.isDefault, Typed.Case.label, List.findIdx?_cons]
  | .mk (some n) body :: cs, first, i + 1, hi, hone => by
    have ih := labelled_or_default cs (first + 1) i (by simpa using hi)
      (by simpa [List.countP_cons, Typed.Case.isDefault, Typed.Case.label] using hone)
    refine ih.imp (fun h => ?_) fun h => ?_
    · rw [show first + (i + 1) = first + 1 + i by omega]
      exact List.mem_cons_of_mem _ h
    · simp [List.findIdx?_cons, Typed.Case.isDefault, Typed.Case.label] at h ⊢
      exact h
  | .mk none body :: cs, first, i + 1, hi, hone => by
    -- there is no default behind the first
    have hnone : cs.countP Typed.Case.isDefault = 0 := by
      simpa [List.countP_cons, Typed.Case.isDefault, Typed.Case.label] using hone
    have ih := labelled_or_default cs (first + 1) i (by simpa using hi) (by omega)
    refine .inl (ih.elim (fun h => ?_) fun h => ?_)
    · rw [show first + (i + 1) = first + 1 + i by omega]
      exact h
    · obtain ⟨hlt, hd, -⟩ := List.findIdx?_eq_some_iff_getElem.mp h
      exact absurd hd (List.countP_eq_zero.mp hnone _ (List.getElem_mem hlt))

/-- Control goes to the block of every case, and behind a switch without a default. -/
theorem mem_dispatch {r : Register} {cases : List Typed.Case} {first i : Nat}
    (hone : cases.countP Typed.Case.isDefault ≤ 1) (hi : i ≤ cases.length)
    (hbehind : i = cases.length → cases.any Typed.Case.isDefault = false) :
    first + i ∈ (dispatch r cases first).targets := by
  simp only [dispatch, Terminator.targets, List.mem_append, List.mem_singleton]
  obtain hlt | rfl := Nat.lt_or_eq_of_le hi
  · refine (labelled_or_default cases first i hlt hone).imp_right fun h => ?_
    simp only [defaultBlock, h]
    exact (OpenSwitch.caseBlock_consecutive hi).symm
  · refine .inr ?_
    have hnone : cases.findIdx? Typed.Case.isDefault = none := by
      simpa [List.any_eq_false, List.findIdx?_eq_none_iff] using hbehind rfl
    simp only [defaultBlock, hnone]
    rfl

/-- A switch first makes its blocks and then dispatches to them. -/
theorem openSwitch_addsBlocks (g : Signature) (returns : Ty) (d : Draft) (r : Register)
    (cases : List Typed.Case) : ∃ d', AddsBlocks g returns d d' (cases.length + 1) ∧
      openSwitch d.b r cases = (.consecutive d.b.blocks.length cases.length,
        d'.b.close (dispatch r cases d.b.blocks.length)) := by
  obtain ⟨d1, hblocks, hlaid⟩ := newCaseBlocks_addsBlocks g returns cases.length 0 d
  refine ⟨d1.newBlock "switch.exit",
    hlaid.trans (newBlock_addsBlocks g returns d1 "switch.exit"), ?_⟩
  simp only [openSwitch, hblocks, dispatch, OpenSwitch.consecutive, ← hlaid.length]
  rfl

/-- The blocks of a switch with `n` cases are made, and control was sent to some of them. -/
structure Switched (g : Signature) (returns : Ty) (d d' : Draft) (cases : List Typed.Case) :
    Prop where
  makes : Makes g returns d d'
  closed : d'.b.isClosed = true
  length : d'.b.blocks.length = d.b.blocks.length + cases.length + 1
  starts : d'.starts = d.starts
  ways : ∀ k u, (k, u) ∈ d'.ways → (k, u) ∈ d.ways ∨ d.Running ∧ d.b.blocks.length ≤ k ∧
    (k = d.b.blocks.length + cases.length → cases.any Typed.Case.isDefault = false)

theorem openSwitch_switched (hs : d.Sound g returns) (ho : d.Open) {r : Register}
    (hr : d.Has g returns r) (hi : r.ty.isIntegral = true) {cases : List Typed.Case}
    (hlabels : (cases.filterMap Typed.Case.label).Nodup) :
    ∃ d', openSwitch d.b r cases = (.consecutive d.b.blocks.length cases.length, d'.b) ∧
      Switched g returns d d' cases := by
  obtain ⟨d1, hlaid, hopen⟩ := openSwitch_addsBlocks g returns d r cases
  have hlen := hlaid.length
  have hop : Op g returns d1 (d1.close (dispatch r cases d.b.blocks.length)) := by
    refine .close (hlaid.isOpen ho) (.switch ?_ hi ?_) fun k hk => ⟨?_, ?_⟩
    · exact Scheme.Has.mono hr hlaid.makes.scheme (hlaid.written ▸ List.Subset.refl _)
    · rw [labelled_labels _ _ (by simp)]; exact hlabels
    · have := dispatch_targets_le hk; omega
    · rw [Draft.entered, hlaid.starts]
      exact hs.notEntered (dispatch_targets_le hk).1
  refine ⟨_, hopen, hlaid.makes.step hop, (hlaid.isOpen ho).close rfl,
    (Builder.close_length _ _).trans hlen, hlaid.starts, fun k u hu => ?_⟩
  obtain ⟨hlive, hk, -⟩ | hu := mem_close_ways.mp hu
  · have hlive : d.b.current ∈ d.live := by
      rw [← hlaid.current, ← hlaid.live]; exact hlive
    obtain ⟨hle, -, hbehind⟩ := dispatch_targets_le hk
    exact .inr ⟨⟨ho.2, hlive⟩, hle, hbehind⟩
  · exact .inl (hlaid.ways ▸ hu)

end Cascade.Codegen
