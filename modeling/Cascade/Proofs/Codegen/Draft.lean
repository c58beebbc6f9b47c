import Cascade.Proofs.Code.Fits
import Cascade.Proofs.Codegen.Functional

/-!
# Cascade.Proofs.Codegen.Draft

How functions come about. Whatever code generation does to a function under construction is a
sequence of six operations, and each of them is only done where it makes sense: code goes to the
end of an open block, control is sent only to blocks that exist and that nothing was put into yet,
and work goes on in such a block once the current one has ended.

* `Draft`: a builder with what is known of its code.
* `Op`: one operation; `Makes`: any number of them.
* `Draft.Sound`: what holds of every draft; `Makes.sound`: the operations preserve it.
* `Makes.extends`: what stands in the blocks of a draft stays there.
-/

namespace Cascade.Codegen

open Code

/-- A builder and what is known of its code. -/
structure Draft where
  b : Builder
  types : List Ty
  /-- The registers written at the end of the current block. -/
  written : List Nat
  /-- The blocks that were entered, the latest first, with the registers written at their start. -/
  starts : List (Nat × List Nat)
  /-- Where control can go from live blocks, with the registers written there. -/
  ways : List (Nat × List Nat)
  /-- The blocks that control can get to. -/
  live : List Nat

namespace Draft

def entered (d : Draft) : List Nat := d.starts.map Prod.fst

def Open (d : Draft) : Prop := d.b.current < d.b.blocks.length ∧ d.b.isClosed = false

/-- Control can get to the end of the current block, and the block has not ended. -/
def Running (d : Draft) : Prop := d.b.isClosed = false ∧ d.b.current ∈ d.live

def scheme (g : Signature) (returns : Ty) (d : Draft) : Scheme :=
  ⟨g, returns, d.b.locals.map Code.Local.ty, d.types⟩

def start (locals : List Code.Local) : Draft := ⟨.start locals, [], [], [(0, [])], [], [0]⟩

def emit (d : Draft) (i : Instr) : Draft :=
  ⟨d.b.emit i, d.types, d.written, d.starts, d.ways, d.live⟩

/-- Add an instruction that writes a new register. -/
def write (d : Draft) (ty : Ty) (i : Instr) : Draft :=
  ⟨(d.b.newRegister ty).2.emit i, d.types ++ [ty], d.b.registers :: d.written, d.starts, d.ways,
    d.live⟩

def newLocal (d : Draft) (ty : Ty) : Draft :=
  ⟨(d.b.newLocal ty).2, d.types, d.written, d.starts, d.ways, d.live⟩

def newBlock (d : Draft) (label : String) : Draft :=
  ⟨(d.b.newBlock label).2, d.types, d.written, d.starts, d.ways, d.live⟩

def close (d : Draft) (t : Terminator) : Draft :=
  ⟨d.b.close t, d.types, d.written, d.starts,
    if d.b.current ∈ d.live then t.targets.map (fun k => (k, d.written)) ++ d.ways else d.ways,
    d.live⟩

/-- Go on in a block with some registers taken to be written. -/
def goto (d : Draft) (k : Nat) (w : List Nat) : Draft :=
  ⟨d.b.goto k, d.types, w, (k, w) :: d.starts, d.ways,
    if k ∈ d.ways.map Prod.fst then k :: d.live else d.live⟩

end Draft

section

variable (g : Signature) (returns : Ty)

/-- One operation on a function with result type `returns`. -/
inductive Op : Draft → Draft → Prop where
  | emit {d : Draft} {i : Instr} : d.Open → i.dest? = none →
      i.Fits (d.scheme g returns) d.written → Op d (d.emit i)
  | write {d : Draft} {ty : Ty} {i : Instr} : d.Open → i.dest? = some ⟨d.b.registers, ty⟩ →
      i.Fits ((d.write ty i).scheme g returns) d.written → Op d (d.write ty i)
  | newLocal {d : Draft} {ty : Ty} : ty.isNumeric = true → Op d (d.newLocal ty)
  | newBlock {d : Draft} {label : String} : Op d (d.newBlock label)
  | close {d : Draft} {t : Terminator} : d.Open → t.Fits (d.scheme g returns) d.written →
      (∀ k : Nat, k ∈ t.targets → k < d.b.blocks.length ∧ k ∉ d.entered) → Op d (d.close t)
  | goto {d : Draft} {k : Nat} {w : List Nat} : d.b.isClosed = true →
      k < d.b.blocks.length → k ∉ d.entered → (∀ u, (k, u) ∈ d.ways → w ⊆ u) → Op d (d.goto k w)

/-- Operations one after another. -/
inductive Makes : Draft → Draft → Prop where
  | refl {d : Draft} : Makes d d
  | step {d d' d'' : Draft} : Makes d d' → Op g returns d' d'' → Makes d d''

end

variable {g : Signature} {returns : Ty}

theorem Op.makes {d d' : Draft} (h : Op g returns d d') : Makes g returns d d' := .step .refl h

theorem Makes.trans {d d' d'' : Draft} (h : Makes g returns d d') (h' : Makes g returns d' d'') :
    Makes g returns d d'' := by
  induction h' with
  | refl => exact h
  | step _ hop ih => exact .step ih hop

/-! ## Blocks of builders -/

namespace Builder

theorem modify_blocks {blocks : List Block} {current k : Nat} {change : Block → Block}
    {blk : Block} (h : (blocks.modify current change)[k]? = some blk) :
    k ≠ current ∧ blocks[k]? = some blk ∨
      k = current ∧ ∃ c, blocks[k]? = some c ∧ blk = change c := by
  rw [List.getElem?_modify] at h
  cases hk : blocks[k]? with
  | none => rw [hk] at h; cases h
  | some c =>
    rw [hk] at h
    by_cases he : current = k
    · simp only [he, if_true] at h
      cases h
      exact .inr ⟨he.symm, c, rfl, rfl⟩
    · simp only [he, if_false] at h
      cases h
      exact .inl ⟨fun hc => he hc.symm, rfl⟩

theorem newBlock_blocks {b : Builder} {label : String} {k : Nat} {blk : Block}
    (h : (b.newBlock label).2.blocks[k]? = some blk) :
    b.blocks[k]? = some blk ∨ k = b.blocks.length ∧ blk = .empty k (some label) := by
  simp only [newBlock] at h
  obtain hlt | hge := Nat.lt_or_ge k b.blocks.length
  · rw [List.getElem?_append_left hlt] at h; exact .inl h
  · rw [List.getElem?_append_right hge] at h
    obtain ⟨hlt, rfl⟩ := List.getElem?_eq_some_iff.mp h
    simp only [List.length_singleton] at hlt
    obtain rfl : k = b.blocks.length := by omega
    exact .inr ⟨rfl, by simp⟩

theorem isClosed_eq {b : Builder} {blk : Block} (h : b.blocks[b.current]? = some blk) :
    b.isClosed = blk.isClosed := by simp [isClosed, h]

end Builder

/-! ## What holds of every draft -/

/-- What holds of an entered block: its code fits, and where it has ended, so does its end. If
control can get to it, the ways out of it are known. -/
structure BlockSound (c : Scheme) (d : Draft) (k : Nat) (w : List Nat) (blk : Block) :
    Prop where
  code : CodeFits c w blk.code
  term : blk.isClosed = true → blk.term.Fits c (afterCode w blk.code)
  targets : ∀ t ∈ blk.term.targets, t < d.b.blocks.length
  ways : k ∈ d.live → ∀ t ∈ blk.term.targets, (t, afterCode w blk.code) ∈ d.ways

structure Draft.Sound (g : Signature) (returns : Ty) (d : Draft) : Prop where
  numbered : ∀ {k : Nat} {blk : Block}, d.b.blocks[k]? = some blk → blk.id = k
  current : d.b.current ∈ d.entered
  entered : ∀ k ∈ d.entered, k < d.b.blocks.length
  nodup : d.entered.Nodup
  types : d.types.length = d.b.registers
  locals : ∀ l ∈ d.b.locals, l.ty.isNumeric = true
  fresh : ∀ {k : Nat} {blk : Block}, d.b.blocks[k]? = some blk → k ∉ d.entered →
    blk.code = [] ∧ blk.term = .unreachable
  closed : ∀ {k : Nat} {blk : Block}, k ∈ d.entered → k ≠ d.b.current →
    d.b.blocks[k]? = some blk → blk.isClosed = true
  block : ∀ {k : Nat} {w : List Nat} {blk : Block}, (k, w) ∈ d.starts →
    d.b.blocks[k]? = some blk → BlockSound (d.scheme g returns) d k w blk
  here : ∀ {w : List Nat} {blk : Block}, (d.b.current, w) ∈ d.starts →
    d.b.blocks[d.b.current]? = some blk → d.written = afterCode w blk.code
  arrive : ∀ {k : Nat} {w u : List Nat}, (k, w) ∈ d.starts → (k, u) ∈ d.ways →
    w ⊆ u ∧ k ∈ d.live
  ways : ∀ {k : Nat} {u : List Nat}, (k, u) ∈ d.ways → k < d.b.blocks.length
  live : ∀ k ∈ d.live, k ∈ d.entered
  entry : (0, []) ∈ d.starts ∧ 0 ∈ d.live

theorem BlockSound.mono {c c' : Scheme} {d d' : Draft} {k : Nat} {w : List Nat} {blk : Block}
    (h : BlockSound c d k w blk) (hc : c.Le c') (hlen : d.b.blocks.length ≤ d'.b.blocks.length)
    (hlive : k ∈ d'.live → k ∈ d.live) (hways : d.ways ⊆ d'.ways) : BlockSound c' d' k w blk where
  code := h.code.mono hc
  term := fun hcl => (h.term hcl).mono hc (List.Subset.refl _)
  targets := fun t ht => Nat.lt_of_lt_of_le (h.targets t ht) hlen
  ways := fun hk t ht => hways (h.ways (hlive hk) t ht)

theorem BlockSound.empty (c : Scheme) (d : Draft) (k : Nat) (w : List Nat) (id : Nat)
    (label : Option String) : BlockSound c d k w (.empty id label) where
  code := trivial
  term := fun h => by cases h
  targets := fun t ht => by cases ht
  ways := fun _ t ht => by cases ht

namespace Draft

theorem mem_entered {d : Draft} {k : Nat} {w : List Nat} (h : (k, w) ∈ d.starts) :
    k ∈ d.entered :=
  List.mem_map_of_mem h

theorem Sound.start {locals : List Code.Local} (hl : ∀ l ∈ locals, l.ty.isNumeric = true) :
    (Draft.start locals).Sound g returns where
  numbered := fun {k blk} h => by
    simp only [Draft.start, Builder.start, List.getElem?_singleton] at h
    split at h
    · cases h; rename_i hk; exact hk.symm
    · cases h
  current := by simp [Draft.start, Draft.entered, Builder.start]
  entered := by simp [Draft.start, Draft.entered, Builder.start]
  nodup := by simp [Draft.start, Draft.entered]
  types := rfl
  locals := hl
  fresh := fun {k blk} h hk => by
    simp only [Draft.start, Builder.start, List.getElem?_singleton] at h
    split at h
    · cases h; exact ⟨rfl, rfl⟩
    · cases h
  closed := fun {k blk} hk hne => by
    simp only [Draft.start, Draft.entered, List.map_cons, List.map_nil, List.mem_singleton] at hk
    exact absurd hk hne
  block := fun {k w blk} _ h => by
    simp only [Draft.start, Builder.start, List.getElem?_singleton] at h
    split at h
    · cases h
      exact BlockSound.empty _ _ _ _ _ _
    · cases h
  here := fun {w blk} hw h => by
    simp only [Draft.start, List.mem_singleton, Prod.mk.injEq] at hw
    obtain ⟨-, rfl⟩ := hw
    cases h
    rfl
  arrive := fun _ h => by cases h
  ways := fun h => by cases h
  live := by simp [Draft.start, Draft.entered]
  entry := by simp [Draft.start]

theorem Sound.extend {d : Draft} (h : d.Sound g returns) (ho : d.Open) {i : Instr}
    {types : List Ty} (hmore : ∃ more, types = d.types ++ more)
    (hi : i.Fits ⟨g, returns, d.b.locals.map Code.Local.ty, types⟩ d.written) :
    Draft.Sound g returns ⟨⟨d.b.locals, d.b.blocks.modify d.b.current (·.emit i), d.b.current,
      types.length⟩, types, i.after d.written, d.starts, d.ways, d.live⟩ where
  numbered := fun {k blk} hk => by
    obtain ⟨-, hk⟩ | ⟨-, c, hc, rfl⟩ := Builder.modify_blocks hk
    · exact h.numbered hk
    · exact (h.numbered hc : c.id = k)
  current := h.current
  entered := fun k hk => by simpa using h.entered k hk
  nodup := h.nodup
  types := rfl
  locals := h.locals
  fresh := fun {k blk} hk hfresh => by
    obtain ⟨-, hk⟩ | ⟨rfl, -⟩ := Builder.modify_blocks hk
    · exact h.fresh hk hfresh
    · exact absurd h.current hfresh
  closed := fun {k blk} he hne hk => by
    obtain ⟨-, hk⟩ | ⟨rfl, -⟩ := Builder.modify_blocks hk
    · exact h.closed he hne hk
    · exact absurd rfl hne
  block := fun {k w blk} hs hk => by
    have hle : (d.scheme g returns).Le ⟨g, returns, d.b.locals.map Code.Local.ty, types⟩ :=
      ⟨rfl, rfl, ⟨[], by simp [scheme]⟩, hmore⟩
    obtain ⟨-, hk⟩ | ⟨rfl, c, hc, rfl⟩ := Builder.modify_blocks hk
    · exact (h.block hs hk).mono hle (by simp) id (List.Subset.refl _)
    · -- the block is open, so only its code counts
      have hopen : c.isClosed = false := by rw [← Builder.isClosed_eq hc]; exact ho.2
      have hterm : c.term = .unreachable := by
        unfold Block.isClosed at hopen
        cases ht : c.term <;> first | rfl | (rw [ht] at hopen; cases hopen)
      refine ⟨(h.block hs hc).code.mono hle |>.append (by rwa [← h.here hs hc]),
        fun hcl => ?_, fun t ht => ?_, fun _ t ht => ?_⟩
      · rw [show (c.emit i).isClosed = c.isClosed from rfl, hopen] at hcl; cases hcl
      · rw [show (c.emit i).term = c.term from rfl, hterm] at ht; cases ht
      · rw [show (c.emit i).term = c.term from rfl, hterm] at ht; cases ht
  here := fun {w blk} hs hk => by
    obtain ⟨hne, -⟩ | ⟨-, c, hc, rfl⟩ := Builder.modify_blocks hk
    · exact absurd rfl hne
    · rw [show (c.emit i).code = c.code ++ [i] from rfl, afterCode_append, ← h.here hs hc]
  arrive := h.arrive
  ways := fun hu => by simpa using h.ways hu
  live := h.live
  entry := h.entry

theorem Sound.close {d : Draft} (h : d.Sound g returns) {t : Terminator}
    (ht : t.Fits (d.scheme g returns) d.written)
    (htargets : ∀ k : Nat, k ∈ t.targets → k < d.b.blocks.length ∧ k ∉ d.entered) :
    (d.close t).Sound g returns where
  numbered := fun {k blk} hk => by
    obtain ⟨-, hk⟩ | ⟨-, c, hc, rfl⟩ := Builder.modify_blocks hk
    · exact h.numbered hk
    · exact (h.numbered hc : c.id = k)
  current := h.current
  entered := fun k hk => by
    rw [show (d.close t).b.blocks.length = d.b.blocks.length from Builder.close_length _ _]
    exact h.entered k hk
  nodup := h.nodup
  types := h.types
  locals := h.locals
  fresh := fun {k blk} hk hfresh => by
    obtain ⟨-, hk⟩ | ⟨rfl, -⟩ := Builder.modify_blocks hk
    · exact h.fresh hk hfresh
    · exact absurd h.current hfresh
  closed := fun {k blk} he hne hk => by
    obtain ⟨-, hk⟩ | ⟨rfl, -⟩ := Builder.modify_blocks hk
    · exact h.closed he hne hk
    · exact absurd rfl hne
  block := fun {k w blk} hs hk => by
    have hlen : (d.close t).b.blocks.length = d.b.blocks.length := Builder.close_length _ _
    have hways : d.ways ⊆ (d.close t).ways := by
      unfold Draft.close
      dsimp only
      split
      · exact List.subset_append_right _ _
      · exact List.Subset.refl _
    obtain ⟨-, hk⟩ | ⟨rfl, c, hc, rfl⟩ := Builder.modify_blocks hk
    · exact (h.block hs hk).mono (.refl _) (Nat.le_of_eq hlen.symm) id hways
    · have hw : afterCode w (c.close t).code = d.written := (h.here hs hc).symm
      refine ⟨(h.block hs hc).code, fun _ => by rw [hw]; exact ht,
        fun k hk => hlen ▸ (htargets k hk).1, fun hlive k hk => ?_⟩
      rw [hw]
      simp only [Draft.close, if_pos (show d.b.current ∈ d.live from hlive)]
      exact List.mem_append_left _ (List.mem_map_of_mem hk)
  here := fun {w blk} hs hk => by
    obtain ⟨hne, -⟩ | ⟨-, c, hc, rfl⟩ := Builder.modify_blocks hk
    · exact absurd rfl hne
    · exact (h.here hs hc : d.written = afterCode w c.code)
  arrive := fun {k w u} hs hu => by
    unfold Draft.close at hu
    dsimp only at hu
    split at hu
    · obtain hu | hu := List.mem_append.mp hu
      · -- ways lead to blocks that are not entered
        obtain ⟨k', hk', he⟩ := List.mem_map.mp hu
        cases he
        exact absurd (mem_entered hs) (htargets k hk').2
      · exact h.arrive hs hu
    · exact h.arrive hs hu
  ways := fun {k u} hu => by
    rw [show (d.close t).b.blocks.length = d.b.blocks.length from Builder.close_length _ _]
    unfold Draft.close at hu
    dsimp only at hu
    split at hu
    · obtain hu | hu := List.mem_append.mp hu
      · obtain ⟨k', hk', he⟩ := List.mem_map.mp hu
        cases he
        exact (htargets k hk').1
      · exact h.ways hu
    · exact h.ways hu
  live := h.live
  entry := h.entry

theorem Sound.newLocal {d : Draft} (h : d.Sound g returns) {ty : Ty} (hn : ty.isNumeric = true) :
    (d.newLocal ty).Sound g returns where
  numbered := h.numbered
  current := h.current
  entered := h.entered
  nodup := h.nodup
  types := h.types
  locals := fun l hl => by
    obtain hl | hl := List.mem_append.mp hl
    · exact h.locals l hl
    · obtain rfl := List.mem_singleton.mp hl; exact hn
  fresh := h.fresh
  closed := h.closed
  block := fun hs hk => (h.block hs hk).mono
    ⟨rfl, rfl, ⟨[ty], by simp [scheme, Draft.newLocal, Builder.newLocal]⟩,
      ⟨[], by simp [scheme, Draft.newLocal]⟩⟩ (Nat.le_refl _) id (List.Subset.refl _)
  here := h.here
  arrive := h.arrive
  ways := h.ways
  live := h.live
  entry := h.entry

theorem Sound.newBlock {d : Draft} (h : d.Sound g returns) (label : String) :
    (d.newBlock label).Sound g returns where
  numbered := fun {k blk} hk => by
    obtain hk | ⟨-, rfl⟩ := Builder.newBlock_blocks hk
    · exact h.numbered hk
    · rfl
  current := h.current
  entered := fun k hk => by
    rw [show (d.newBlock label).b.blocks.length = _ from Builder.newBlock_length _ _]
    exact Nat.lt_succ_of_lt (h.entered k hk)
  nodup := h.nodup
  types := h.types
  locals := h.locals
  fresh := fun {k blk} hk hfresh => by
    obtain hk | ⟨-, rfl⟩ := Builder.newBlock_blocks hk
    · exact h.fresh hk hfresh
    · exact ⟨rfl, rfl⟩
  closed := fun {k blk} he hne hk => by
    obtain hk | ⟨hlen, -⟩ := Builder.newBlock_blocks hk
    · exact h.closed he hne hk
    · exact absurd (h.entered k he) (by rw [hlen]; exact Nat.lt_irrefl _)
  block := fun {k w blk} hs hk => by
    obtain hk | ⟨hlen, -⟩ := Builder.newBlock_blocks hk
    · exact (h.block hs hk).mono (.refl _)
        (by rw [show (d.newBlock label).b.blocks.length = _ from Builder.newBlock_length _ _]
            exact Nat.le_succ _) id (List.Subset.refl _)
    · exact absurd (h.entered k (mem_entered hs)) (by rw [hlen]; exact Nat.lt_irrefl _)
  here := fun {w blk} hs hk => by
    obtain hk | ⟨hlen, -⟩ := Builder.newBlock_blocks hk
    · exact h.here hs hk
    · exact absurd (h.entered _ h.current) (Nat.not_lt_of_le (Nat.le_of_eq hlen.symm))
  arrive := h.arrive
  ways := fun hu => by
    rw [show (d.newBlock label).b.blocks.length = _ from Builder.newBlock_length _ _]
    exact Nat.lt_succ_of_lt (h.ways hu)
  live := h.live
  entry := h.entry

theorem Sound.goto {d : Draft} (h : d.Sound g returns) {k : Nat} {w : List Nat}
    (hclosed : d.b.isClosed = true) (hk : k < d.b.blocks.length) (hfresh : k ∉ d.entered)
    (hways : ∀ u, (k, u) ∈ d.ways → w ⊆ u) : (d.goto k w).Sound g returns where
  numbered := h.numbered
  current := List.mem_cons_self
  entered := fun k' hk' => by
    obtain rfl | hk' := List.mem_cons.mp hk'
    · exact hk
    · exact h.entered k' hk'
  nodup := List.nodup_cons.mpr ⟨hfresh, h.nodup⟩
  types := h.types
  locals := h.locals
  fresh := fun hb hne => h.fresh hb fun he => hne (List.mem_cons_of_mem _ he)
  closed := fun {k' blk} he hne hb => by
    obtain rfl | he := List.mem_cons.mp he
    · exact absurd rfl hne
    · by_cases hc : k' = d.b.current
      · have hb : d.b.blocks[d.b.current]? = some blk := hc ▸ hb
        rw [← Builder.isClosed_eq hb]; exact hclosed
      · exact h.closed he hc hb
  block := fun {k' w' blk} hs hb => by
    obtain heq | hs := List.mem_cons.mp hs
    · cases heq
      obtain ⟨hcode, hterm⟩ := h.fresh hb hfresh
      refine ⟨hcode ▸ trivial, fun hcl => ?_, fun t ht => ?_, fun _ t ht => ?_⟩
      · unfold Block.isClosed at hcl; rw [hterm] at hcl; cases hcl
      · rw [hterm] at ht; cases ht
      · rw [hterm] at ht; cases ht
    · refine (h.block hs hb).mono (.refl _) (Nat.le_refl _) (fun hlive => ?_)
        (List.Subset.refl _)
      unfold Draft.goto at hlive
      dsimp only at hlive
      split at hlive
      · obtain heq | hlive := List.mem_cons.mp hlive
        · exact absurd (heq ▸ mem_entered hs : k ∈ d.entered) hfresh
        · exact hlive
      · exact hlive
  here := fun {w' blk} hs hb => by
    obtain ⟨hcode, -⟩ := h.fresh hb hfresh
    obtain heq | hs := List.mem_cons.mp hs
    · cases heq; rw [hcode]; rfl
    · exact absurd (mem_entered hs) hfresh
  arrive := fun {k' w' u} hs hu => by
    obtain heq | hs := List.mem_cons.mp hs
    · cases heq
      refine ⟨hways u hu, ?_⟩
      simp only [Draft.goto, if_pos (show k ∈ d.ways.map Prod.fst from List.mem_map_of_mem hu)]
      exact List.mem_cons_self
    · obtain ⟨hsub, hlive⟩ := h.arrive hs hu
      refine ⟨hsub, ?_⟩
      unfold Draft.goto
      dsimp only
      split
      · exact List.mem_cons_of_mem _ hlive
      · exact hlive
  ways := h.ways
  live := fun k' hk' => by
    unfold Draft.goto at hk'
    dsimp only at hk'
    split at hk'
    · obtain rfl | hk' := List.mem_cons.mp hk'
      · exact List.mem_cons_self
      · exact List.mem_cons_of_mem _ (h.live k' hk')
    · exact List.mem_cons_of_mem _ (h.live k' hk')
  entry := by
    refine ⟨List.mem_cons_of_mem _ h.entry.1, ?_⟩
    unfold Draft.goto
    dsimp only
    split
    · exact List.mem_cons_of_mem _ h.entry.2
    · exact h.entry.2

end Draft

theorem Op.sound {d d' : Draft} (hop : Op g returns d d') (h : d.Sound g returns) :
    d'.Sound g returns := by
  cases hop with
  | emit ho hdest hi =>
    have he := h.extend ho ⟨[], by simp⟩ hi
    simp only [Instr.after, hdest, h.types] at he
    exact he
  | @write ty i ho hdest hi =>
    have he := h.extend ho ⟨[ty], rfl⟩ hi
    simp only [Instr.after, hdest, List.length_append, List.length_singleton, h.types] at he
    exact he
  | newLocal hn => exact h.newLocal hn
  | newBlock => exact h.newBlock _
  | close _ ht htargets => exact h.close ht htargets
  | goto hclosed hk hfresh hways => exact h.goto hclosed hk hfresh hways

theorem Makes.sound {d d' : Draft} (hm : Makes g returns d d') (h : d.Sound g returns) :
    d'.Sound g returns := by
  induction hm with
  | refl => exact h
  | step _ hop ih => exact hop.sound ih

/-! ## What stays -/

/-- A later builder has everything of an earlier one: local variables, blocks that have ended, and
the code of those that have not. -/
structure Builder.Extends (b b' : Builder) : Prop where
  locals : ∃ more, b'.locals = b.locals ++ more
  registers : b.registers ≤ b'.registers
  length : b.blocks.length ≤ b'.blocks.length
  closed : ∀ {k : Nat} {blk : Block}, b.blocks[k]? = some blk → blk.isClosed = true →
    b'.blocks[k]? = some blk
  code : ∀ {k : Nat} {blk : Block}, b.blocks[k]? = some blk →
    ∃ blk' more, b'.blocks[k]? = some blk' ∧ blk'.code = blk.code ++ more

namespace Builder

theorem Extends.refl (b : Builder) : b.Extends b :=
  ⟨⟨[], by simp⟩, Nat.le_refl _, Nat.le_refl _, fun h _ => h, fun h => ⟨_, [], h, by simp⟩⟩

theorem Extends.trans {b b' b'' : Builder} (h : b.Extends b') (h' : b'.Extends b'') :
    b.Extends b'' where
  locals := by
    obtain ⟨more, he⟩ := h.locals
    obtain ⟨more', he'⟩ := h'.locals
    exact ⟨more ++ more', by rw [he', he, List.append_assoc]⟩
  registers := Nat.le_trans h.registers h'.registers
  length := Nat.le_trans h.length h'.length
  closed := fun hk hc => h'.closed (h.closed hk hc) hc
  code := fun hk => by
    obtain ⟨blk', more, hk', he⟩ := h.code hk
    obtain ⟨blk'', more', hk'', he'⟩ := h'.code hk'
    exact ⟨blk'', more ++ more', hk'', by rw [he', he, List.append_assoc]⟩

theorem modify_extends {b : Builder} (hopen : b.isClosed = false) {change : Block → Block}
    (hchange : ∀ blk, ∃ more, (change blk).code = blk.code ++ more) {registers : Nat}
    (hr : b.registers ≤ registers) :
    b.Extends ⟨b.locals, b.blocks.modify b.current change, b.current, registers⟩ where
  locals := ⟨[], by simp⟩
  registers := hr
  length := by simp
  closed := fun {k blk} hk hc => by
    by_cases he : b.current = k
    · subst he
      rw [isClosed_eq hk, hc] at hopen
      cases hopen
    · simp [he, hk]
  code := fun {k blk} hk => by
    by_cases he : b.current = k
    · obtain ⟨more, hmore⟩ := hchange blk
      exact ⟨change blk, more, by simp [he, hk], hmore⟩
    · exact ⟨blk, [], by simp [he, hk], by simp⟩

theorem emit_extends {b : Builder} (hopen : b.isClosed = false) (i : Instr) :
    b.Extends (b.emit i) :=
  modify_extends hopen (fun _ => ⟨[i], rfl⟩) (Nat.le_refl _)

theorem write_extends {b : Builder} (hopen : b.isClosed = false) (ty : Ty) (i : Instr) :
    b.Extends ((b.newRegister ty).2.emit i) :=
  modify_extends hopen (fun _ => ⟨[i], rfl⟩) (Nat.le_succ _)

theorem close_extends {b : Builder} (hopen : b.isClosed = false) (t : Terminator) :
    b.Extends (b.close t) :=
  modify_extends hopen (fun _ => ⟨[], by simp [Block.close]⟩) (Nat.le_refl _)

theorem goto_extends (b : Builder) (k : Nat) : b.Extends (b.goto k) :=
  ⟨⟨[], by simp [goto]⟩, Nat.le_refl _, Nat.le_refl _, fun h _ => h, fun h => ⟨_, [], h, by simp⟩⟩

theorem newLocal_extends (b : Builder) (ty : Ty) : b.Extends (b.newLocal ty).2 :=
  ⟨⟨_, rfl⟩, Nat.le_refl _, Nat.le_refl _, fun h _ => h, fun h => ⟨_, [], h, by simp⟩⟩

theorem newBlock_keeps {b : Builder} {k : Nat} {blk : Block} (h : b.blocks[k]? = some blk)
    (label : String) : (b.newBlock label).2.blocks[k]? = some blk := by
  obtain ⟨hlt, -⟩ := List.getElem?_eq_some_iff.mp h
  exact (List.getElem?_append_left hlt).trans h

theorem newBlock_extends (b : Builder) (label : String) : b.Extends (b.newBlock label).2 :=
  ⟨⟨[], by simp [newBlock]⟩, Nat.le_refl _, by simp, fun h _ => newBlock_keeps h label,
    fun h => ⟨_, [], newBlock_keeps h label, by simp⟩⟩

end Builder

theorem Op.extends {d d' : Draft} (hop : Op g returns d d') : d.b.Extends d'.b := by
  cases hop with
  | emit ho => exact Builder.emit_extends ho.2 _
  | write ho => exact Builder.write_extends ho.2 _ _
  | newLocal => exact Builder.newLocal_extends _ _
  | newBlock => exact Builder.newBlock_extends _ _
  | close ho => exact Builder.close_extends ho.2 _
  | goto => exact Builder.goto_extends _ _

theorem Makes.extends {d d' : Draft} (h : Makes g returns d d') : d.b.Extends d'.b := by
  induction h with
  | refl => exact .refl _
  | step _ hop ih => exact ih.trans hop.extends

theorem Makes.scheme {d d' : Draft} (h : Makes g returns d d') :
    (d.scheme g returns).Le (d'.scheme g returns) := by
  induction h with
  | refl => exact .refl _
  | @step d' d'' _ hop ih =>
    obtain ⟨more, he⟩ := hop.extends.locals
    refine ih.trans ⟨rfl, rfl, ⟨more.map Code.Local.ty, by simp [Draft.scheme, he]⟩, ?_⟩
    cases hop with
    | write => exact ⟨_, rfl⟩
    | _ => exact ⟨[], by simp [Draft.scheme, Draft.emit, Draft.newLocal, Draft.newBlock,
        Draft.close, Draft.goto]⟩

theorem Makes.entered {d d' : Draft} (h : Makes g returns d d') : d.entered ⊆ d'.entered := by
  induction h with
  | refl => exact List.Subset.refl _
  | step _ hop ih =>
    cases hop with
    | goto => exact fun k hk => List.mem_cons_of_mem _ (ih hk)
    | _ => exact ih

end Cascade.Codegen
