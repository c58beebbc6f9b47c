import Cascade.Proofs.Code.Certified

/-!
# Cascade.Proofs.Code.SingleAssignment

Single-assignment form: every register of a function is written by one instruction, and that one
comes before whatever reads the register, on every way that control can take.

* `Function.Path`: the ways of control through a function, from one instruction to the next.
* `Function.SingleAssignment`: the form.
* `Fits.passed`, `Fits.before`: what a certificate takes to be written somewhere is written on every
  way to there.
* `Fits.singleAssignment`: so a certified function has the form if no register is written twice.
-/

namespace Cascade.Code

def Block.dests (b : Block) : List Register := b.code.filterMap Instr.dest?

def Block.reads (b : Block) : List Register := b.code.flatMap Instr.reads ++ b.term.reads

/-- A point in the code of a function: an instruction of a block or, behind all of them, its
terminator. -/
structure Point where
  block : BlockId
  next : Nat
  deriving DecidableEq, Repr

namespace Function

def dests (f : Function) : List Register := f.blocks.flatMap Block.dests

def at? (f : Function) (p : Point) : Option (Instr ⊕ Terminator) :=
  match f.block? p.block with
  | none => none
  | some b =>
    match b.code[p.next]? with
    | some i => some (.inl i)
    | none => some (.inr b.term)

def readsAt (f : Function) (p : Point) : List Register :=
  match f.at? p with
  | some (.inl i) => i.reads
  | some (.inr t) => t.reads
  | none => []

def writesAt (f : Function) (p : Point) : Option Register :=
  match f.at? p with
  | some (.inl i) => i.dest?
  | _ => none

inductive Flows (f : Function) : Point → Point → Prop where
  | next {k : BlockId} {n : Nat} {i : Instr} : f.at? ⟨k, n⟩ = some (.inl i) →
      Flows f ⟨k, n⟩ ⟨k, n + 1⟩
  | jump {k l : BlockId} {n : Nat} {t : Terminator} : f.at? ⟨k, n⟩ = some (.inr t) →
      l ∈ t.targets → Flows f ⟨k, n⟩ ⟨l, 0⟩

/-- A way of control from the entry to a point, with the points that it passes before, the latest
first. -/
inductive Path (f : Function) : List Point → Point → Prop where
  | entry : Path f [] ⟨f.entry, 0⟩
  | step {past : List Point} {p q : Point} : Path f past p → f.Flows p q → Path f (p :: past) q

def writtenOn (f : Function) (past : List Point) : List Register := past.filterMap f.writesAt

/-- Single-assignment form with definitions before uses. A register is taken with its type. -/
structure SingleAssignment (f : Function) : Prop where
  /-- No two instructions write one register. -/
  once : (f.dests.map Register.id).Nodup
  /-- A register is read with the type that it is written with. -/
  typed : ∀ b ∈ f.blocks, ∀ r ∈ b.reads, r ∈ f.dests
  /-- On every way to a point, whatever is read there was written. -/
  before : ∀ {past : List Point} {p : Point}, f.Path past p → ∀ r ∈ f.readsAt p,
    r ∈ f.writtenOn past
  /-- There is a way to every instruction and every terminator. -/
  reached : ∀ b ∈ f.blocks, f.block? b.id = some b ∧
    ∀ n ≤ b.code.length, ∃ past, f.Path past ⟨b.id, n⟩

variable {f : Function} {g : Signature} {c : Certificate}

/-! ## Points -/

theorem at?_eq {p : Point} {b : Block} (hb : f.block? p.block = some b) :
    f.at? p = match b.code[p.next]? with
      | some i => some (.inl i)
      | none => some (.inr b.term) := by
  rw [at?, hb]

theorem at?_instr {k n : Nat} {b : Block} {i : Instr} (hb : f.block? k = some b) :
    f.at? ⟨k, n⟩ = some (.inl i) ↔ b.code[n]? = some i := by
  rw [at?_eq hb]
  cases hn : b.code[n]? with
  | none => simp
  | some j => simp

theorem at?_term {k n : Nat} {b : Block} {t : Terminator} (hb : f.block? k = some b) :
    f.at? ⟨k, n⟩ = some (.inr t) ↔ b.code.length ≤ n ∧ b.term = t := by
  rw [at?_eq hb, ← List.getElem?_eq_none_iff]
  cases hn : b.code[n]? with
  | none => simp
  | some j => simp

theorem mem_writtenOn {past : List Point} {r : Register} :
    r ∈ f.writtenOn past ↔ ∃ p ∈ past, f.writesAt p = some r :=
  List.mem_filterMap

theorem writtenOn_cons (p : Point) (past : List Point) :
    f.writtenOn (p :: past) = (f.writesAt p).toList ++ f.writtenOn past := by
  unfold writtenOn
  cases hp : f.writesAt p with
  | none => rw [List.filterMap_cons_none hp]; rfl
  | some r => rw [List.filterMap_cons_some hp]; rfl

theorem mem_dests_of_writesAt {p : Point} {r : Register} (h : f.writesAt p = some r) :
    r ∈ f.dests := by
  unfold writesAt at? at h
  cases hb : f.block? p.block with
  | none => rw [hb] at h; cases h
  | some b =>
    cases hi : b.code[p.next]? with
    | none => simp only [hb, hi, reduceCtorEq] at h
    | some i =>
      simp only [hb, hi] at h
      exact List.mem_flatMap.mpr ⟨b, block?_mem hb,
        List.mem_filterMap.mpr ⟨i, List.mem_of_getElem? hi, h⟩⟩

/-! ## Ways through a function -/

theorem Path.through {k : BlockId} {b : Block} (hb : f.block? k = some b) {past : List Point}
    (h : f.Path past ⟨k, 0⟩) : ∀ n ≤ b.code.length, ∃ past', f.Path past' ⟨k, n⟩ := by
  intro n
  induction n with
  | zero => exact fun _ => ⟨past, h⟩
  | succ n ih =>
    intro hn
    obtain ⟨past', hpast⟩ := ih (Nat.le_of_succ_le hn)
    exact ⟨_, hpast.step (.next ((at?_instr hb).mpr (List.getElem?_eq_getElem hn)))⟩

/-- Where control gets to, there is a way to. -/
theorem Leads.path {k : BlockId} (h : f.Leads f.entry k) : ∃ past, f.Path past ⟨k, 0⟩ := by
  induction h with
  | refl => exact ⟨[], .entry⟩
  | @step j l _ hl ih =>
    obtain ⟨past, hpast⟩ := ih
    unfold successors at hl
    split at hl
    · rename_i b hb
      obtain ⟨past', hpast'⟩ := hpast.through hb b.code.length (Nat.le_refl _)
      exact ⟨_, hpast'.step (.jump ((at?_term hb).mpr ⟨Nat.le_refl _, rfl⟩) hl)⟩
    · cases hl

end Function

/-! ## Certified code -/

namespace Function

variable {f : Function} {g : Signature} {c : Certificate}

/-- Behind some points, control is at a block that it gets to from the entry, and they have written
what the certificate takes to be written there, each register with its type. -/
structure Passed (f : Function) (g : Signature) (c : Certificate) (past : List Point)
    (p : Point) (b : Block) : Prop where
  leads : f.Leads f.entry p.block
  found : f.block? p.block = some b
  declared : ∀ r ∈ f.writtenOn past, (f.scheme g c).Declares r
  written : afterCode (c.starts p.block) (b.code.take p.next) ⊆
    (f.writtenOn past).map Register.id

theorem Passed.flows (hf : f.Fits g c) {past : List Point} {p q : Point} {b : Block}
    (h : f.Passed g c past p b) (hq : f.Flows p q) : ∃ b', f.Passed g c (p :: past) q b' := by
  obtain ⟨hleads, hfound, hdeclared, hwritten⟩ := h
  have hfits := hf.blockFits hleads hfound
  cases hq with
  | @next k n i hi =>
    have hcode := (at?_instr hfound).mp hi
    have hdest : f.writesAt ⟨k, n⟩ = i.dest? := by rw [writesAt, hi]
    refine ⟨b, hleads, hfound, fun r hr => ?_, ?_⟩
    · rw [writtenOn_cons, hdest] at hr
      obtain hr | hr := List.mem_append.mp hr
      · exact (hfits.code.get hcode).dest r (Option.mem_toList.mp hr)
      · exact hdeclared r hr
    · dsimp only
      rw [List.take_add_one, hcode, Option.toList_some, afterCode_append, writtenOn_cons, hdest,
        Instr.after]
      cases i.dest? with
      | none => exact hwritten
      | some d => exact List.cons_subset_cons d.id hwritten
  | @jump k l n t ht hl =>
    obtain ⟨hlen, rfl⟩ := (at?_term hfound).mp ht
    have hnone : f.writesAt ⟨k, n⟩ = none := by rw [writesAt, ht]
    have hleads' : f.Leads f.entry l := hleads.step (by rwa [successors, hfound])
    obtain ⟨b', hb', -⟩ := hf.block l hleads'
    refine ⟨b', hleads', hb', ?_, ?_⟩
    · rwa [writtenOn_cons, hnone]
    · rw [writtenOn_cons, hnone]
      dsimp only at hwritten ⊢
      rw [List.take_of_length_le hlen] at hwritten
      rw [List.take_zero]
      exact List.Subset.trans (hfits.targets l hl) hwritten

theorem Fits.passed (hf : f.Fits g c) {past : List Point} {p : Point} (h : f.Path past p) :
    ∃ b, f.Passed g c past p b := by
  induction h with
  | entry =>
    obtain ⟨b, hb, -⟩ := hf.block f.entry .refl
    refine ⟨b, .refl, hb, by simp [writtenOn], ?_⟩
    dsimp only
    rw [hf.entry, List.take_zero]
    exact List.nil_subset _
  | step _ hflows ih =>
    obtain ⟨b, hb⟩ := ih
    exact hb.flows hf hflows

/-- What is read at a point is written there, as the certificate has it. -/
theorem BlockFits.reads {p : Point} {b : Block} (hfits : f.BlockFits g c p.block b)
    (hfound : f.block? p.block = some b) : ∀ r ∈ f.readsAt p,
      (f.scheme g c).Has (afterCode (c.starts p.block) (b.code.take p.next)) r := by
  intro r hr
  rw [readsAt, at?_eq hfound] at hr
  cases hi : b.code[p.next]? with
  | some i =>
    rw [hi] at hr
    exact (hfits.code.get hi).reads r hr
  | none =>
    rw [hi] at hr
    rw [List.take_of_length_le (List.getElem?_eq_none_iff.mp hi)]
    exact hfits.term.reads r hr

/-- What is read at a point was written on every way to it, with the same type. -/
theorem Fits.before (hf : f.Fits g c) {past : List Point} {p : Point} (h : f.Path past p) :
    ∀ r ∈ f.readsAt p, r ∈ f.writtenOn past := by
  obtain ⟨b, hleads, hfound, hdeclared, hwritten⟩ := hf.passed h
  intro r hr
  obtain ⟨hr, hmem⟩ := (hf.blockFits hleads hfound).reads hfound r hr
  obtain ⟨d, hd, hid⟩ := List.mem_map.mp (hwritten hmem)
  -- both have the type that the certificate gives to the register
  have hty : d.ty = r.ty := by
    have hdecl := hdeclared d hd
    rw [Scheme.Declares, hid, hr] at hdecl
    exact (Option.some.inj hdecl).symm
  obtain rfl : d = r := by
    cases d
    cases r
    cases hid
    cases hty
    rfl
  exact hd

/-- A certified function that is trim has the form if no register is written twice. -/
theorem Fits.singleAssignment (hf : f.Fits g c) (htrim : f.Trim)
    (honce : (f.dests.map Register.id).Nodup) : f.SingleAssignment := by
  have hreached : ∀ b ∈ f.blocks, f.block? b.id = some b ∧
      ∀ n ≤ b.code.length, ∃ past, f.Path past ⟨b.id, n⟩ := by
    intro b hb
    obtain ⟨hleads, hfound⟩ := htrim b hb
    obtain ⟨past, hpast⟩ := hleads.path
    exact ⟨hfound, hpast.through hfound⟩
  refine ⟨honce, fun b hb r hr => ?_, hf.before, hreached⟩
  obtain ⟨hfound, hpaths⟩ := hreached b hb
  obtain ⟨n, hn, hread⟩ : ∃ n ≤ b.code.length, r ∈ f.readsAt ⟨b.id, n⟩ := by
    obtain hr | hr := List.mem_append.mp hr
    · obtain ⟨i, hi, hr⟩ := List.mem_flatMap.mp hr
      obtain ⟨n, hn⟩ := List.mem_iff_getElem?.mp hi
      refine ⟨n, Nat.le_of_lt (List.getElem?_eq_some_iff.mp hn).1, ?_⟩
      rwa [readsAt, (at?_instr hfound).mpr hn]
    · refine ⟨b.code.length, Nat.le_refl _, ?_⟩
      rwa [readsAt, (at?_term hfound).mpr ⟨Nat.le_refl _, rfl⟩]
  obtain ⟨past, hpast⟩ := hpaths n hn
  obtain ⟨p, -, hp⟩ := mem_writtenOn.mp (hf.before hpast r hread)
  exact mem_dests_of_writesAt hp

end Function

end Cascade.Code
