import Cascade.Proofs.Code.Twins
import Cascade.Proofs.Codegen.Protected
import Cascade.Proofs.Codegen.Lowering
import Cascade.Proofs.Typed.WellTyped

/-!
# Cascade.Proofs.Codegen.Twins

The same tree put into the code of two functions. What is added to blocks that correspond is the
same under a renaming that also pairs what was made for it.

* `Builder.Twin`: functions under construction whose paired blocks are twins.
* `TwinFrom`: twins went on to be twins, and no old block got a new partner; `Alongside`: they also
  stand in blocks that correspond.
* `genExpr_twin`: the code of a well-typed expression.
-/

namespace Cascade.Codegen

open Code

/-- Functions under construction whose paired blocks are twins. The left one has no fewer local
variables and registers. -/
structure Builder.Twin (ρ : Renaming) (b c : Builder) : Prop where
  registers : Pairs b.registers c.registers ρ.registers
  locals : Pairs b.locals.length c.locals.length ρ.locals
  blocks : Pairs b.blocks.length c.blocks.length ρ.blocks
  types : ∀ {i j l l'}, ρ.locals i j → b.locals[i]? = some l → c.locals[j]? = some l' →
    l.ty = l'.ty
  size : c.locals.length ≤ b.locals.length ∧ c.registers ≤ b.registers
  block : ∀ {i j}, ρ.blocks i j →
    ∃ blk blk', b.blocks[i]? = some blk ∧ c.blocks[j]? = some blk' ∧ blk.Twin ρ blk'

/-- Two builders went on from `b` and `c` and are twins. Pairs that were added are of new blocks. -/
structure TwinFrom (ρ : Renaming) (b c : Builder) (ρ' : Renaming) (b' c' : Builder) : Prop
    extends Builder.Twin ρ' b' c' where
  le : ρ.Le ρ'
  fresh : ∀ {i j}, ρ'.blocks i j → ρ.blocks i j ∨ b.blocks.length ≤ i ∧ c.blocks.length ≤ j
  left : b.blocks.length ≤ b'.blocks.length
  right : c.blocks.length ≤ c'.blocks.length

/-- Moreover, they stand in blocks that correspond. -/
structure Alongside (ρ : Renaming) (b c : Builder) (ρ' : Renaming) (b' c' : Builder) : Prop
    extends TwinFrom ρ b c ρ' b' c' where
  current : ρ'.blocks b'.current c'.current

variable {ρ ρ' : Renaming} {b c b' c' : Builder}

namespace TwinFrom

theorem refl (h : Builder.Twin ρ b c) : TwinFrom ρ b c ρ b c :=
  ⟨h, .refl ρ, fun h => .inl h, Nat.le_refl _, Nat.le_refl _⟩

theorem trans {ρ'' : Renaming} {b'' c'' : Builder} (h : TwinFrom ρ b c ρ' b' c')
    (h' : TwinFrom ρ' b' c' ρ'' b'' c'') : TwinFrom ρ b c ρ'' b'' c'' where
  toTwin := h'.toTwin
  le := h.le.trans h'.le
  fresh := fun hij => by
    obtain hij | ⟨hi, hj⟩ := h'.fresh hij
    · exact h.fresh hij
    · exact .inr ⟨Nat.le_trans h.left hi, Nat.le_trans h.right hj⟩
  left := Nat.le_trans h.left h'.left
  right := Nat.le_trans h.right h'.right

theorem goto (h : TwinFrom ρ b c ρ' b' c') (k k' : BlockId) :
    TwinFrom ρ b c ρ' (b'.goto k) (c'.goto k') :=
  ⟨⟨h.registers, h.locals, h.blocks, h.types, h.size, h.block⟩, h.le, h.fresh, h.left, h.right⟩

theorem block_append (h : TwinFrom ρ b c ρ' b' c') (more more' : List Block) {i j : Nat}
    (hij : ρ'.blocks i j) : ∃ blk blk', (b'.blocks ++ more)[i]? = some blk ∧
      (c'.blocks ++ more')[j]? = some blk' ∧ blk.Twin ρ' blk' := by
  obtain ⟨blk, blk', hb, hc, ht⟩ := h.block hij
  exact ⟨blk, blk', (List.getElem?_append_left (h.blocks.left hij)).trans hb,
    (List.getElem?_append_left (h.blocks.right hij)).trans hc, ht⟩

theorem newBlock (h : TwinFrom ρ b c ρ' b' c') (label : String) : ∃ ρ'', ρ'.Le ρ'' ∧
    TwinFrom ρ b c ρ'' (b'.newBlock label).2 (c'.newBlock label).2 ∧
      ρ''.blocks b'.blocks.length c'.blocks.length := by
  have hle : ρ'.Le
      ⟨ρ'.registers, ρ'.locals, paired ρ'.blocks b'.blocks.length c'.blocks.length⟩ :=
    ⟨id, id, .inl⟩
  refine ⟨_, hle, ⟨⟨h.registers, h.locals, ?_, h.types, h.size, fun hij => ?_⟩, h.le.trans hle,
    fun hij => ?_, ?_, ?_⟩, .inr ⟨rfl, rfl⟩⟩
  · rw [Builder.newBlock_length, Builder.newBlock_length]
    exact h.blocks.add
  · obtain hij | ⟨rfl, rfl⟩ := hij
    · obtain ⟨blk, blk', hb, hc, ht⟩ := h.block_append _ _ hij
      exact ⟨blk, blk', hb, hc, ht.mono hle⟩
    · exact ⟨_, _, Builder.newBlock_self b' label, Builder.newBlock_self c' label, .nil,
        .unreachable⟩
  · obtain hij | ⟨rfl, rfl⟩ := hij
    · exact h.fresh hij
    · exact .inr ⟨h.left, h.right⟩
  · exact Builder.newBlock_length b' label ▸ Nat.le_succ_of_le h.left
  · exact Builder.newBlock_length c' label ▸ Nat.le_succ_of_le h.right

theorem newBlock_apart (h : TwinFrom ρ b c ρ' b' c') (label : String) :
    TwinFrom ρ b c ρ' (b'.newBlock label).2 (c'.newBlock label).2 := by
  have hb := Builder.newBlock_length b' label
  have hc := Builder.newBlock_length c' label
  refine ⟨⟨h.registers, h.locals, ?_, h.types, h.size, h.block_append _ _⟩, h.le, h.fresh, ?_, ?_⟩
  · exact h.blocks.mono (hb ▸ Nat.le_succ _) (hc ▸ Nat.le_succ _)
  · exact hb ▸ Nat.le_succ_of_le h.left
  · exact hc ▸ Nat.le_succ_of_le h.right

theorem aside (h : TwinFrom ρ b c ρ' b' c') {b'' : Builder}
    (ha : b'.Protects (fun i => ∃ j, ρ'.blocks i j) b'') : TwinFrom ρ b c ρ' b'' c' where
  registers := h.registers.mono ha.registers (Nat.le_refl _)
  locals := h.locals.mono ha.locals.length_le (Nat.le_refl _)
  blocks := h.blocks.mono ha.blocks (Nat.le_refl _)
  types := fun hij hl hl' => by
    obtain ⟨more, he⟩ := ha.locals
    rw [← he, List.getElem?_append_left (h.locals.left hij)] at hl
    exact h.types hij hl hl'
  size := ⟨Nat.le_trans h.size.1 ha.locals.length_le, Nat.le_trans h.size.2 ha.registers⟩
  block := fun {i j} hij => by
    obtain ⟨blk, blk', hb, hc, ht⟩ := h.block hij
    exact ⟨blk, blk', (ha.spared ⟨j, hij⟩).trans hb, hc, ht⟩
  le := h.le
  fresh := h.fresh
  left := Nat.le_trans h.left ha.blocks
  right := h.right

/-- A block on the right side without a partner ends. -/
theorem close_right (h : TwinFrom ρ b c ρ' b' c') (hc : ∀ i, ¬ ρ'.blocks i c'.current)
    (t : Terminator) : TwinFrom ρ b c ρ' b' (c'.close t) where
  registers := h.registers
  locals := h.locals
  blocks := by
    rw [Builder.close_length]
    exact h.blocks
  types := h.types
  size := h.size
  block := fun {i j} hij => by
    obtain ⟨blk, blk', hb, hj, ht⟩ := h.block hij
    have hne : c'.current ≠ j := fun he => hc i (he ▸ hij)
    exact ⟨blk, blk', hb, (List.getElem?_modify_ne _ _ hne).trans hj, ht⟩
  le := h.le
  fresh := h.fresh
  left := h.left
  right := (Builder.close_length c' t).symm ▸ h.right

end TwinFrom

/-- Local variables with a name have the same number on both sides. -/
def FixesSlots (slots : List Ty) (ρ : Renaming) : Prop := ∀ {i}, i < slots.length → ρ.locals i i

theorem FixesSlots.mono {slots : List Ty} (h : FixesSlots slots ρ) (hle : ρ.Le ρ') :
    FixesSlots slots ρ' :=
  fun hi => hle.locals (h hi)

/-- A place that stands for the same storage on both sides. -/
def Named (ρ : Renaming) : Typed.Place → Prop
  | .slot n => ρ.locals n n
  | .field _ => True

theorem FixesSlots.named {g : Signature} {slots : List Ty} (h : FixesSlots slots ρ)
    {place : Typed.Place}
    {t : Ty} (hp : Typed.placeTy? g slots place = some t) : Named ρ place := by
  cases place with
  | slot n => exact h (List.getElem?_eq_some_iff.mp hp).1
  | field f => trivial

theorem Named.mono {place : Typed.Place} (h : Named ρ place) (hle : ρ.Le ρ') : Named ρ' place := by
  cases place with
  | slot n => exact hle.locals h
  | field f => trivial

/-- Both sides went on alike from where they were under `ρ'`, and gave registers that
correspond. -/
def GivesTwins (ρ : Renaming) (b c : Builder) (ρ' : Renaming) (rb rc : Register × Builder) :
    Prop :=
  ∃ ρ'', ρ'.Le ρ'' ∧ Alongside ρ b c ρ'' rb.2 rc.2 ∧ rb.1.Twin ρ'' rc.1

namespace Alongside

theorem refl (h : Builder.Twin ρ b c) (hc : ρ.blocks b.current c.current) :
    Alongside ρ b c ρ b c := ⟨.refl h, hc⟩

theorem isClosed (h : Alongside ρ b c ρ' b' c') : b'.isClosed = c'.isClosed := by
  obtain ⟨blk, blk', hb, hc, ht⟩ := h.block h.current
  rw [Builder.isClosed_eq hb, Builder.isClosed_eq hc, ht.isClosed]

theorem modify (h : Alongside ρ b c ρ' b' c') {registers : Nat → Nat → Prop}
    (hle : ∀ {i j}, ρ'.registers i j → registers i j) {n n' : Nat} (hr : Pairs n n' registers)
    (hn : n' ≤ n) {change change' : Block → Block}
    (hchange : ∀ {blk blk' : Block}, blk.Twin ⟨registers, ρ'.locals, ρ'.blocks⟩ blk' →
      (change blk).Twin ⟨registers, ρ'.locals, ρ'.blocks⟩ (change' blk')) :
    Alongside ρ b c ⟨registers, ρ'.locals, ρ'.blocks⟩
      ⟨b'.locals, b'.blocks.modify b'.current change, b'.current, n⟩
      ⟨c'.locals, c'.blocks.modify c'.current change', c'.current, n'⟩ := by
  have hle : ρ'.Le ⟨registers, ρ'.locals, ρ'.blocks⟩ := ⟨hle, id, id⟩
  refine ⟨⟨⟨hr, h.locals, ?_, h.types, ⟨h.size.1, hn⟩, fun {i j} hij => ?_⟩, h.le.trans hle,
    h.fresh, ?_, ?_⟩, h.current⟩
  · simp only [List.length_modify]
    exact h.blocks
  · obtain ⟨blk, blk', hb, hc, ht⟩ := h.block hij
    by_cases hi : b'.current = i
    · have hj : c'.current = j := (h.blocks.iff h.current hij).mp hi
      subst hi hj
      exact ⟨_, _, by rw [List.getElem?_modify_eq, hb]; rfl,
        by rw [List.getElem?_modify_eq, hc]; rfl, hchange (ht.mono hle)⟩
    · have hj : c'.current ≠ j := fun he => hi ((h.blocks.iff h.current hij).mpr he)
      exact ⟨blk, blk', (List.getElem?_modify_ne _ _ hi).trans hb,
        (List.getElem?_modify_ne _ _ hj).trans hc, ht.mono hle⟩
  · simp only [List.length_modify]
    exact h.left
  · simp only [List.length_modify]
    exact h.right

theorem emit (h : Alongside ρ b c ρ' b' c') {i i' : Instr} (hi : i.Twin ρ' i') :
    Alongside ρ b c ρ' (b'.emit i) (c'.emit i') :=
  h.modify id h.registers h.size.2 fun ht => ⟨List.rel_append ht.code (.cons hi .nil), ht.term⟩

theorem close (h : Alongside ρ b c ρ' b' c') {t t' : Terminator} (ht : t.Twin ρ' t') :
    Alongside ρ b c ρ' (b'.close t) (c'.close t') :=
  h.modify id h.registers h.size.2 fun hb => ⟨hb.code, ht⟩

theorem write (h : Alongside ρ b c ρ' b' c') (ty : Ty) {i i' : Instr}
    (hi : ∀ {ρ''}, ρ'.Le ρ'' → (b'.newRegister ty).1.Twin ρ'' (c'.newRegister ty).1 →
      i.Twin ρ'' i') :
    GivesTwins ρ b c ρ' ((b'.newRegister ty).1, (b'.newRegister ty).2.emit i)
      ((c'.newRegister ty).1, (c'.newRegister ty).2.emit i') := by
  have hle : ρ'.Le
      ⟨paired ρ'.registers b'.registers c'.registers, ρ'.locals, ρ'.blocks⟩ := ⟨.inl, id, id⟩
  have hd : (b'.newRegister ty).1.Twin
      ⟨paired ρ'.registers b'.registers c'.registers, ρ'.locals, ρ'.blocks⟩
      (c'.newRegister ty).1 := ⟨rfl, .inr ⟨rfl, rfl⟩⟩
  exact ⟨_, hle, h.modify .inl h.registers.add (Nat.succ_le_succ h.size.2)
    fun ht => ⟨List.rel_append ht.code (.cons (hi hle hd) .nil), ht.term⟩, hd⟩

theorem newLocal (h : Alongside ρ b c ρ' b' c') (ty : Ty) : ∃ ρ'', ρ'.Le ρ'' ∧
    Alongside ρ b c ρ'' (b'.newLocal ty).2 (c'.newLocal ty).2 ∧
      ρ''.locals b'.locals.length c'.locals.length := by
  have hle : ρ'.Le
      ⟨ρ'.registers, paired ρ'.locals b'.locals.length c'.locals.length, ρ'.blocks⟩ :=
    ⟨id, .inl, id⟩
  refine ⟨_, hle, ⟨⟨⟨h.registers, ?_, h.blocks, fun hij hl hl' => ?_, ?_, fun hij => ?_⟩,
    h.le.trans hle, h.fresh, h.left, h.right⟩, h.current⟩, .inr ⟨rfl, rfl⟩⟩
  · simp only [Builder.newLocal, List.length_append, List.length_singleton]
    exact h.locals.add
  · simp only [Builder.newLocal] at hl hl'
    obtain hij | ⟨rfl, rfl⟩ := hij
    · rw [List.getElem?_append_left (h.locals.left hij)] at hl
      rw [List.getElem?_append_left (h.locals.right hij)] at hl'
      exact h.types hij hl hl'
    · simp only [List.getElem?_concat_length, Option.some.injEq] at hl hl'
      rw [← hl, ← hl']
  · simp only [Builder.newLocal, List.length_append, List.length_singleton]
    exact ⟨Nat.succ_le_succ h.size.1, h.size.2⟩
  · obtain ⟨blk, blk', hb, hc, ht⟩ := h.block hij
    exact ⟨blk, blk', hb, hc, ht.mono hle⟩

theorem newBlock (h : Alongside ρ b c ρ' b' c') (label : String) : ∃ ρ'', ρ'.Le ρ'' ∧
    Alongside ρ b c ρ'' (b'.newBlock label).2 (c'.newBlock label).2 ∧
      ρ''.blocks b'.blocks.length c'.blocks.length := by
  obtain ⟨ρ'', hle, ho, hnew⟩ := h.toTwinFrom.newBlock label
  exact ⟨ρ'', hle, ⟨ho, hle.blocks h.current⟩, hnew⟩

theorem goto (h : Alongside ρ b c ρ' b' c') {k k' : BlockId} (hk : ρ'.blocks k k') :
    Alongside ρ b c ρ' (b'.goto k) (c'.goto k') := ⟨h.toTwinFrom.goto k k', hk⟩

theorem constant (h : Alongside ρ b c ρ' b' c') (v : Scalar) :
    GivesTwins ρ b c ρ' (b'.constant v) (c'.constant v) :=
  h.write v.ty fun _ hd => .const hd

theorem load (h : Alongside ρ b c ρ' b' c') {place : Typed.Place} (hp : Named ρ' place)
    (ty : Ty) : GivesTwins ρ b c ρ' (Codegen.load b' place ty) (Codegen.load c' place ty) := by
  cases place with
  | slot n => exact h.write ty fun hle hd => .loadLocal hd (hle.locals hp)
  | field f => exact h.write ty fun _ hd => .loadField hd

theorem store (h : Alongside ρ b c ρ' b' c') {place : Typed.Place} (hp : Named ρ' place)
    {r r' : Register} (hr : r.Twin ρ' r') :
    Alongside ρ b c ρ' (Codegen.store b' place r) (Codegen.store c' place r') := by
  cases place with
  | slot n => exact h.emit (.storeLocal hp hr)
  | field f => exact h.emit (.storeField hr)

theorem step (h : Alongside ρ b c ρ' b' c') {place : Typed.Place} (hp : Named ρ' place)
    {delta : Int} {before : Bool} {ty : Ty} {span : Span} {rb : Register × Builder}
    (hrun : Codegen.step b' place delta before ty span = .ok rb) :
    ∃ rc, Codegen.step c' place delta before ty span = .ok rc ∧ GivesTwins ρ b c ρ' rb rc := by
  unfold Codegen.step at hrun ⊢
  dsimp only at hrun ⊢
  cases hd : Scalar.ofInt? ty delta with
  | none =>
    rw [hd] at hrun
    cases hrun
  | some d =>
    rw [hd] at hrun
    cases hrun
    obtain ⟨ρ1, hle1, h1, hold⟩ := h.load hp ty
    obtain ⟨ρ2, hle2, h2, hamount⟩ := h1.constant d
    obtain ⟨ρ3, hle3, h3, hnew⟩ := h2.write ty
      fun hle hd => .binary .add hd ((hold.mono hle2).mono hle) (hamount.mono hle)
    have hle := (hle1.trans hle2).trans hle3
    refine ⟨_, rfl, ρ3, hle, h3.store (hp.mono hle) hnew, ?_⟩
    cases before with
    | true => exact hnew
    | false => exact hold.mono (hle2.trans hle3)

theorem zero (h : Alongside ρ b c ρ' b' c') {ty : Ty} {span : Span} {rb : Register × Builder}
    (hrun : Codegen.zero b' ty span = .ok rb) :
    ∃ rc, Codegen.zero c' ty span = .ok rc ∧ GivesTwins ρ b c ρ' rb rc := by
  unfold Codegen.zero at hrun ⊢
  cases hz : Scalar.zero? ty with
  | none =>
    rw [hz] at hrun
    cases hrun
  | some v =>
    rw [hz] at hrun
    cases hrun
    exact ⟨_, rfl, h.constant v⟩

theorem convert (h : Alongside ρ b c ρ' b' c') {r r' : Register} (hr : r.Twin ρ' r') (ty : Ty) :
    GivesTwins ρ b c ρ' (Codegen.convert b' r ty) (Codegen.convert c' r' ty) := by
  unfold Codegen.convert
  rw [hr.1]
  by_cases hty : r'.ty = ty
  · rw [if_pos hty, if_pos hty]
    exact ⟨ρ', .refl ρ', h, hr⟩
  · rw [if_neg hty, if_neg hty]
    exact h.write ty fun hle hd => .convert hd (hr.mono hle)

theorem openLogical (h : Alongside ρ b c ρ' b' c') (op : LogicalOp) {result result' : LocalIndex}
    (hresult : ρ'.locals result result') {left left' : Register} (hleft : left.Twin ρ' left') :
    ∃ ρ'', ρ'.Le ρ'' ∧
      Alongside ρ b c ρ'' (Codegen.openLogical b' op result left).2
        (Codegen.openLogical c' op result' left').2 ∧
      ρ''.blocks (Codegen.openLogical b' op result left).1
        (Codegen.openLogical c' op result' left').1 := by
  obtain ⟨ρ1, hle1, h1, hright⟩ := h.newBlock "logical.rhs"
  obtain ⟨ρ2, hle2, h2, hdecided⟩ := h1.newBlock "logical.short"
  obtain ⟨ρ3, hle3, h3, hmerge⟩ := h2.newBlock "logical.merge"
  have hright := hle3.blocks (hle2.blocks hright)
  have hdecided := hle3.blocks hdecided
  have hle := (hle1.trans hle2).trans hle3
  cases op with
  | and =>
    obtain ⟨ρ4, hle4, h4, hvalue⟩ :=
      ((h3.close (.branch (hleft.mono hle) hright hdecided)).goto hdecided).constant
        (Scalar.ofBool false)
    refine ⟨ρ4, hle.trans hle4, ?_, hle4.blocks hmerge⟩
    exact ((h4.emit (.storeLocal (hle4.locals (hle.locals hresult)) hvalue)).close
      (.jump (hle4.blocks hmerge))).goto (hle4.blocks hright)
  | or =>
    obtain ⟨ρ4, hle4, h4, hvalue⟩ :=
      ((h3.close (.branch (hleft.mono hle) hdecided hright)).goto hdecided).constant
        (Scalar.ofBool true)
    refine ⟨ρ4, hle.trans hle4, ?_, hle4.blocks hmerge⟩
    exact ((h4.emit (.storeLocal (hle4.locals (hle.locals hresult)) hvalue)).close
      (.jump (hle4.blocks hmerge))).goto (hle4.blocks hright)

theorem closeLogical (h : Alongside ρ b c ρ' b' c') {merge merge' : BlockId}
    (hmerge : ρ'.blocks merge merge') {result result' : LocalIndex}
    (hresult : ρ'.locals result result') {right right' : Register} (hright : right.Twin ρ' right')
    {span : Span} {rb : Register × Builder}
    (hrun : Codegen.closeLogical b' merge result right span = .ok rb) :
    ∃ rc, Codegen.closeLogical c' merge' result' right' span = .ok rc ∧
      GivesTwins ρ b c ρ' rb rc := by
  unfold Codegen.closeLogical at hrun
  split at hrun
  · cases hrun
  rename_i z b1 hz
  cases hrun
  obtain ⟨⟨z', c1⟩, hz', ρ1, hle1, h1, hzero⟩ := h.zero hz
  obtain ⟨ρ2, hle2, h2, htruth⟩ := h1.write .truth
    fun hle hd => .binary .ne hd ((hright.mono hle1).mono hle) (hzero.mono hle)
  have hle := hle1.trans hle2
  obtain ⟨ρ3, hle3, h3, hr⟩ :=
    (((h2.emit (.storeLocal (hle.locals hresult) htruth)).close (.jump (hle.blocks hmerge))).goto
      (hle.blocks hmerge)).write .truth
        fun hle' hd => .loadLocal hd (hle'.locals (hle.locals hresult))
  refine ⟨_, ?_, ρ3, hle.trans hle3, h3, hr⟩
  rw [Codegen.closeLogical, ← hright.1, hz']

theorem reopen (h : Alongside ρ b c ρ' b' c') : ∃ ρ'', ρ'.Le ρ'' ∧
    Alongside ρ b c ρ'' (Codegen.reopen b') (Codegen.reopen c') := by
  unfold Codegen.reopen
  rw [h.isClosed]
  cases c'.isClosed with
  | true =>
    obtain ⟨ρ'', hle, h', hnew⟩ := h.newBlock "dead"
    exact ⟨ρ'', hle, h'.goto hnew⟩
  | false => exact ⟨ρ', .refl ρ', h⟩

end Alongside

/-! ## Switches -/

/-- Two blocks of which neither has a partner. -/
def Apart (ρ : Renaming) (k k' : BlockId) : Prop := (∀ j, ¬ ρ.blocks k j) ∧ ∀ i, ¬ ρ.blocks i k'

theorem TwinFrom.apart (h : TwinFrom ρ b c ρ' b' c') {k k' : BlockId} (hk : k < b.blocks.length)
    (hk' : k' < c.blocks.length) (ha : Apart ρ k k') : Apart ρ' k k' where
  left := fun j hj => (h.fresh hj).elim (ha.1 j) fun hle => Nat.not_le_of_lt hk hle.1
  right := fun i hi => (h.fresh hi).elim (ha.2 i) fun hle => Nat.not_le_of_lt hk' hle.2

/-- The blocks of two switches with `n` cases correspond, the ones behind them if control gets
there. -/
structure OpenSwitch.Twin (ρ : Renaming) (completes : Bool) (n : Nat) (s s' : OpenSwitch) :
    Prop where
  case : ∀ {i}, i < n → ρ.blocks (s.caseBlock i) (s'.caseBlock i)
  last : s.caseBlock n = s.behind ∧ s'.caseBlock n = s'.behind
  behind : completes = true → ρ.blocks s.behind s'.behind

theorem OpenSwitch.Twin.mono {completes : Bool} {n : Nat} {s s' : OpenSwitch}
    (h : OpenSwitch.Twin ρ completes n s s') (hle : ρ.Le ρ') :
    OpenSwitch.Twin ρ' completes n s s' :=
  ⟨fun hi => hle.blocks (h.case hi), h.last, fun hc => hle.blocks (h.behind hc)⟩

/-- The blocks that two cases run on in correspond if control gets out of the last one only where
it gets behind the switch. -/
theorem OpenSwitch.Twin.fallThrough {completes : Bool} {n i : Nat} {s s' : OpenSwitch}
    (h : OpenSwitch.Twin ρ completes n s s') (hi : i < n) (hlast : i + 1 = n → completes = true) :
    ρ.blocks (s.fallThrough i) (s'.fallThrough i) := by
  rw [OpenSwitch.fallThrough_eq, OpenSwitch.fallThrough_eq]
  obtain hlt | rfl := Nat.lt_or_eq_of_le (Nat.succ_le_of_lt hi)
  · exact h.case hlt
  · rw [h.last.1, h.last.2]
    exact h.behind (hlast rfl)

theorem Alongside.newCaseBlocks (h : Alongside ρ b c ρ' b' c') (i n : Nat) : ∃ ρ'', ρ'.Le ρ'' ∧
    Alongside ρ b c ρ'' (Codegen.newCaseBlocks b' i n).2 (Codegen.newCaseBlocks c' i n).2 ∧
      ∀ {k}, k < n → ρ''.blocks (b'.blocks.length + k) (c'.blocks.length + k) := by
  induction n generalizing i ρ' b' c' with
  | zero => exact ⟨ρ', .refl ρ', h, fun hk => absurd hk (Nat.not_lt_zero _)⟩
  | succ n ih =>
    obtain ⟨ρ1, hle1, h1, hnew⟩ := h.newBlock ("switch.case" ++ toString i)
    obtain ⟨ρ2, hle2, h2, hrest⟩ := ih h1 (i + 1)
    refine ⟨ρ2, hle1.trans hle2, h2, fun {k} hk => ?_⟩
    cases k with
    | zero => exact hle2.blocks hnew
    | succ k =>
      have hk := hrest (Nat.lt_of_succ_lt_succ hk)
      rw [Builder.newBlock_length, Builder.newBlock_length] at hk
      rw [Nat.add_comm k 1, ← Nat.add_assoc, ← Nat.add_assoc]
      exact hk

theorem forall₂_range' {R : Nat → Nat → Prop} : ∀ {n first first' : Nat},
    (∀ {k}, k < n → R (first + k) (first' + k)) →
    List.Forall₂ R (List.range' first n) (List.range' first' n)
  | 0, _, _, _ => .nil
  | n + 1, first, first', h => .cons (h (Nat.succ_pos n)) (forall₂_range' fun {k} hk => by
      rw [Nat.add_assoc, Nat.add_assoc, Nat.add_comm 1]
      exact h (Nat.succ_lt_succ hk))

theorem labelled_twin : ∀ (cases : List Typed.Case) {bs bs' : List BlockId},
    List.Forall₂ ρ.blocks bs bs' →
    List.Forall₂ (caseTwin ρ) (labelled cases bs) (labelled cases bs')
  | [], _, _, _ => .nil
  | .mk none _ :: _, _, _, .nil => .nil
  | .mk (some _) _ :: _, _, _, .nil => .nil
  | .mk none _ :: cs, _, _, .cons _ hbs => labelled_twin cs hbs
  | .mk (some _) _ :: cs, _, _, .cons hb hbs => .cons ⟨rfl, hb⟩ (labelled_twin cs hbs)

theorem defaultBlock_twin {cases : List Typed.Case} {completes : Bool} {s s' : OpenSwitch}
    (h : OpenSwitch.Twin ρ completes cases.length s s')
    (hdefault : cases.any Typed.Case.isDefault = false → completes = true) :
    ρ.blocks (defaultBlock cases s) (defaultBlock cases s') := by
  unfold defaultBlock
  cases hi : cases.findIdx? Typed.Case.isDefault with
  | some i =>
    obtain ⟨hlt, -⟩ := List.findIdx?_eq_some_iff_getElem.mp hi
    exact h.case hlt
  | none =>
    refine h.behind (hdefault ?_)
    simpa [List.any_eq_false, List.findIdx?_eq_none_iff] using hi

/-- A switch is opened on both sides. The blocks behind it are made to correspond only if control
is to get there. -/
theorem Alongside.openSwitch (h : Alongside ρ b c ρ' b' c') {r r' : Register}
    (hr : r.Twin ρ' r') {cases : List Typed.Case} {completes : Bool}
    (hdefault : cases.any Typed.Case.isDefault = false → completes = true) :
    ∃ ρ'', ρ'.Le ρ'' ∧
      TwinFrom ρ b c ρ'' (Codegen.openSwitch b' r cases).2 (Codegen.openSwitch c' r' cases).2 ∧
      OpenSwitch.Twin ρ'' completes cases.length (Codegen.openSwitch b' r cases).1
        (Codegen.openSwitch c' r' cases).1 ∧
      (completes = false → Apart ρ'' (Codegen.openSwitch b' r cases).1.behind
        (Codegen.openSwitch c' r' cases).1.behind) := by
  obtain ⟨hids, hlength⟩ := newCaseBlocks_numbers b' 0 cases.length
  obtain ⟨hids', hlength'⟩ := newCaseBlocks_numbers c' 0 cases.length
  obtain ⟨ρ1, hle1, h1, hcases⟩ := h.newCaseBlocks 0 cases.length
  -- the block behind the switch is all that depends on whether control gets there
  obtain ⟨ρ2, hle2, h2, hbehind, hapart⟩ : ∃ ρ2, ρ1.Le ρ2 ∧
      Alongside ρ b c ρ2
        ((Codegen.newCaseBlocks b' 0 cases.length).2.newBlock "switch.exit").2
        ((Codegen.newCaseBlocks c' 0 cases.length).2.newBlock "switch.exit").2 ∧
      (completes = true → ρ2.blocks (b'.blocks.length + cases.length)
        (c'.blocks.length + cases.length)) ∧
      (completes = false → Apart ρ2 (b'.blocks.length + cases.length)
        (c'.blocks.length + cases.length)) := by
    rw [← hlength, ← hlength']
    cases completes with
    | true =>
      obtain ⟨ρ2, hle2, h2, hnew⟩ := h1.newBlock "switch.exit"
      exact ⟨ρ2, hle2, h2, fun _ => hnew, fun hc => (by cases hc)⟩
    | false =>
      exact ⟨ρ1, .refl ρ1, ⟨h1.toTwinFrom.newBlock_apart "switch.exit", h1.current⟩,
        fun hc => (by cases hc), fun _ => ⟨fun j hj => Nat.lt_irrefl _ (h1.blocks.left hj),
          fun i hi => Nat.lt_irrefl _ (h1.blocks.right hi)⟩⟩
  have hs := openSwitch_consecutive b' r cases
  have hs' := openSwitch_consecutive c' r' cases
  have hswitch : OpenSwitch.Twin ρ2 completes cases.length (Codegen.openSwitch b' r cases).1
      (Codegen.openSwitch c' r' cases).1 := by
    rw [hs, hs']
    refine ⟨fun hi => ?_, ⟨OpenSwitch.caseBlock_consecutive (Nat.le_refl _),
      OpenSwitch.caseBlock_consecutive (Nat.le_refl _)⟩, hbehind⟩
    rw [OpenSwitch.caseBlock_consecutive (Nat.le_of_lt hi),
      OpenSwitch.caseBlock_consecutive (Nat.le_of_lt hi)]
    exact hle2.blocks (hcases hi)
  have hblocks : List.Forall₂ ρ2.blocks (Codegen.newCaseBlocks b' 0 cases.length).1
      (Codegen.newCaseBlocks c' 0 cases.length).1 := by
    rw [hids, hids']
    exact forall₂_range' fun hk => hle2.blocks (hcases hk)
  refine ⟨ρ2, hle1.trans hle2, (h2.close (.switch (hr.mono (hle1.trans hle2))
    (labelled_twin cases hblocks) (defaultBlock_twin hswitch hdefault))).toTwinFrom, hswitch, ?_⟩
  rw [hs, hs']
  exact hapart

/-! ## Expressions -/

def SameResults (p p' : Typed.Program) : Prop :=
  p'.methods.map Typed.Method.returns = p.methods.map Typed.Method.returns

section

variable {p p' : Typed.Program} (hp : SameResults p p')
include hp

/-- Only the result types of methods matter to a call. -/
theorem Alongside.call (h : Alongside ρ b c ρ' b' c') {m : MethodId}
    {rb : Option Register × Builder} (hrun : Codegen.call p b' m = .ok rb) :
    ∃ ρ'' r c'', Codegen.call p' c' m = .ok (r, c'') ∧ ρ'.Le ρ'' ∧
      Alongside ρ b c ρ'' rb.2 c'' ∧ Option.Rel (Register.Twin ρ'') rb.1 r := by
  unfold Codegen.call at hrun ⊢
  split at hrun
  · cases hrun
  rename_i callee hm
  obtain ⟨callee', hm', hreturns⟩ : ∃ callee', p'.methods[m]? = some callee' ∧
      callee'.returns = callee.returns := by
    have hm' := congrArg (·[m]?) hp
    simp only [List.getElem?_map, hm, Option.map_some] at hm'
    exact Option.map_eq_some_iff.mp hm'
  rw [hm']
  dsimp only
  rw [hreturns]
  split at hrun
  · rename_i hv
    cases hrun
    rw [if_pos hv]
    exact ⟨ρ', _, _, rfl, .refl ρ', h.emit (.call .none), .none⟩
  · rename_i hv
    cases hrun
    rw [if_neg hv]
    obtain ⟨ρ1, hle, h1, hd⟩ := h.write callee.returns fun _ hd => .call (.some hd)
    exact ⟨ρ1, _, _, rfl, hle, h1, .some hd⟩

omit hp in
/-- Wherever the code of an expression can be made on the left, so can it on the right, and both
sides go on alike. -/
def ExprTwins (p p' : Typed.Program) (slots : List Ty) (e : Typed.Expr) : Prop :=
  ∀ {ρ ρ' : Renaming} {b c b' c' : Builder} {rb : Option Register × Builder},
    Alongside ρ b c ρ' b' c' → FixesSlots slots ρ' → genExpr p b' e = .ok rb →
    ∃ ρ'' r c'', genExpr p' c' e = .ok (r, c'') ∧ ρ'.Le ρ'' ∧ Alongside ρ b c ρ'' rb.2 c'' ∧
      Option.Rel (Register.Twin ρ'') rb.1 r

omit hp in
theorem ExprTwins.value {slots : List Ty} {e : Typed.Expr} (he : ExprTwins p p' slots e)
    (h : Alongside ρ b c ρ' b' c') (hk : FixesSlots slots ρ') {r : Register} {b1 : Builder}
    (hrun : genValue p b' e = .ok (r, b1)) :
    ∃ ρ'' r' c1, genValue p' c' e = .ok (r', c1) ∧ ρ'.Le ρ'' ∧ Alongside ρ b c ρ'' b1 c1 ∧
      r.Twin ρ'' r' := by
  obtain ⟨ρ1, r', c1, hrun', hle, h1, hr⟩ := he h hk (genValue_some hrun)
  cases hr with
  | some hr => exact ⟨ρ1, _, c1, by simp only [genValue, hrun', needValue], hle, h1, hr⟩

omit hp in
theorem ExprTwins.binary {slots : List Ty} {l r : Typed.Expr} (hl : ExprTwins p p' slots l)
    (hr : ExprTwins p p' slots r) (op : BinaryOp) (ty : Ty) (span : Span) :
    ExprTwins p p' slots (.binary op l r ty span) := by
  intro ρ ρ' b c b' c' rb h hk hrun
  simp only [genExpr] at hrun
  split at hrun
  · cases hrun
  rename_i hleftrun
  split at hrun
  · cases hrun
  rename_i hrightrun
  cases hrun
  obtain ⟨ρ1, l', c1, hl', hle1, h1, hleft⟩ := hl.value h hk hleftrun
  obtain ⟨ρ2, r', c2, hr', hle2, h2, hright⟩ := hr.value h1 (hk.mono hle1) hrightrun
  obtain ⟨ρ3, hle3, h3, hd⟩ := h2.write ty
    fun hle hd => .binary op hd ((hleft.mono hle2).mono hle) (hright.mono hle)
  refine ⟨ρ3, _, _, ?_, (hle1.trans hle2).trans hle3, h3, .some hd⟩
  rw [genExpr, ← genValue, hl']
  dsimp only
  rw [← genValue, hr']

omit hp in
/-- The result of a logical operator gets a new local variable, and the right operand is made in a
block of its own. -/
theorem ExprTwins.logical {slots : List Ty} {l r : Typed.Expr} (hl : ExprTwins p p' slots l)
    (hr : ExprTwins p p' slots r) (op : LogicalOp) (ty : Ty) (span : Span) :
    ExprTwins p p' slots (.logical op l r ty span) := by
  intro ρ ρ' b c b' c' rb h hk hrun
  simp only [genExpr] at hrun
  split at hrun
  · cases hrun
  rename_i hleftrun
  split at hrun
  · cases hrun
  rename_i hrightrun
  split at hrun
  · cases hrun
  rename_i hclose
  cases hrun
  obtain ⟨ρ1, hle1, h1, hresult⟩ := h.newLocal .truth
  obtain ⟨ρ2, l', c2, hl', hle2, h2, hleft⟩ := hl.value h1 (hk.mono hle1) hleftrun
  have hresult := hle2.locals hresult
  obtain ⟨ρ3, hle3, h3, hmerge⟩ := h2.openLogical op hresult hleft
  obtain ⟨ρ4, r', c4, hr', hle4, h4, hright⟩ :=
    hr.value h3 (hk.mono ((hle1.trans hle2).trans hle3)) hrightrun
  obtain ⟨rc, hclose', ρ5, hle5, h5, hd⟩ := h4.closeLogical (hle4.blocks hmerge)
    (hle4.locals (hle3.locals hresult)) hright hclose
  refine ⟨ρ5, _, _, ?_, (((hle1.trans hle2).trans hle3).trans hle4).trans hle5, h5, .some hd⟩
  rw [genExpr]
  dsimp only
  rw [← genValue, show genValue p' (c'.newLocal .truth).2 l = _ from hl']
  dsimp only
  rw [← genValue, show genValue p' (Codegen.openLogical c2 op (c'.newLocal .truth).1 l').2 r = _
    from hr']
  dsimp only
  rw [show Codegen.closeLogical c4 (Codegen.openLogical c2 op (c'.newLocal .truth).1 l').1
    (c'.newLocal .truth).1 r' r.span = _ from hclose']
  rfl

/-- The code of a well-typed expression, made twice. -/
theorem genExpr_twin {g : Signature} {slots : List Ty} {e : Typed.Expr}
    (hw : e.WellTyped g slots) : ExprTwins p p' slots e := by
  induction hw with
  | @const v =>
    intro ρ ρ' b c b' c' rb h hk hrun
    cases hrun
    obtain ⟨ρ1, hle, h1, hr⟩ := h.constant v
    exact ⟨ρ1, _, _, rfl, hle, h1, .some hr⟩
  | @load place ty span hplace =>
    intro ρ ρ' b c b' c' rb h hk hrun
    cases hrun
    obtain ⟨ρ1, hle, h1, hr⟩ := h.load (hk.named hplace) ty
    exact ⟨ρ1, _, _, rfl, hle, h1, .some hr⟩
  | @convert e ty span _ _ ih =>
    intro ρ ρ' b c b' c' rb h hk hrun
    simp only [genExpr] at hrun
    split at hrun
    · cases hrun
    rename_i he
    cases hrun
    obtain ⟨ρ1, r', c1, he', hle1, h1, hr⟩ := ih.value h hk he
    obtain ⟨ρ2, hle2, h2, hd⟩ := h1.convert hr ty
    refine ⟨ρ2, _, _, ?_, hle1.trans hle2, h2, .some hd⟩
    rw [genExpr, ← genValue, he']
    rfl
  | @unary op e span _ _ ih =>
    intro ρ ρ' b c b' c' rb h hk hrun
    simp only [genExpr] at hrun
    split at hrun
    · cases hrun
    rename_i he
    cases hrun
    obtain ⟨ρ1, r', c1, he', hle1, h1, hr⟩ := ih.value h hk he
    obtain ⟨ρ2, hle2, h2, hd⟩ := h1.write (Scalar.unaryTy op e.ty)
      fun hle hd => .unary op hd (hr.mono hle)
    refine ⟨ρ2, _, _, ?_, hle1.trans hle2, h2, .some hd⟩
    rw [genExpr, ← genValue, he']
  | @binary op l r span _ _ _ _ ihl ihr => exact ihl.binary ihr op _ span
  | @logical op l r span _ _ _ _ ihl ihr => exact ihl.logical ihr op _ span
  | @update place delta before ty span hplace _ =>
    intro ρ ρ' b c b' c' rb h hk hrun
    simp only [genExpr] at hrun
    split at hrun
    · cases hrun
    rename_i hstep
    cases hrun
    obtain ⟨rc, hstep', ρ1, hle, h1, hr⟩ := h.step (hk.named hplace) hstep
    exact ⟨ρ1, _, _, by rw [genExpr, hstep']; rfl, hle, h1, .some hr⟩
  | @assign place e span hplace _ _ ih =>
    intro ρ ρ' b c b' c' rb h hk hrun
    simp only [genExpr] at hrun
    split at hrun
    · cases hrun
    rename_i he
    cases hrun
    obtain ⟨ρ1, r', c1, he', hle1, h1, hr⟩ := ih.value h hk he
    refine ⟨ρ1, _, _, ?_, hle1, h1.store ((hk.named hplace).mono hle1) hr, .some hr⟩
    rw [genExpr, ← genValue, he']
  | call _ =>
    intro ρ ρ' b c b' c' rb h hk hrun
    exact h.call hp hrun
  | @print e span _ _ ih =>
    intro ρ ρ' b c b' c' rb h hk hrun
    simp only [genExpr] at hrun
    split at hrun
    · cases hrun
    rename_i he
    cases hrun
    obtain ⟨ρ1, r', c1, he', hle1, h1, hr⟩ := ih.value h hk he
    refine ⟨ρ1, _, _, ?_, hle1, h1.emit (.print (.some hr)), .none⟩
    rw [genExpr, ← genValue, he']
  | printBlank =>
    intro ρ ρ' b c b' c' rb h hk hrun
    cases hrun
    exact ⟨ρ', _, _, rfl, .refl ρ', h.emit (.print .none), .none⟩

theorem genValue_twin {g : Signature} {slots : List Ty} {e : Typed.Expr}
    (hw : e.WellTyped g slots) (h : Alongside ρ b c ρ' b' c') (hk : FixesSlots slots ρ')
    {r : Register} {b1 : Builder} (hrun : genValue p b' e = .ok (r, b1)) :
    ∃ ρ'' r' c1, genValue p' c' e = .ok (r', c1) ∧ ρ'.Le ρ'' ∧ Alongside ρ b c ρ'' b1 c1 ∧
      r.Twin ρ'' r' :=
  ExprTwins.value (genExpr_twin hp hw) h hk hrun

end

end Cascade.Codegen
