import Cascade.Proofs.Codegen.Switch
import Cascade.Proofs.Codegen.CallFree

/-!
# Cascade.Proofs.Codegen.Protected

Code that is put aside. Some blocks of a function under construction are protected, and the current
block is not one of them. Whatever code is generated then leaves all protected blocks as they are.

* `Builder.Protects`: from one builder to a later one, no protected block was touched.
* `genExpr_protects`, `genStmt_protects`: code for a tree, well typed or not.
* `genList_behind`: code behind a block that has ended, or aside.
-/

namespace Cascade.Codegen

open Code

/-- No protected block was touched between two builders, and the later one does not stand in any. -/
structure Builder.Protects (P : BlockId → Prop) (b b' : Builder) : Prop where
  spared : ∀ {k}, P k → b'.blocks[k]? = b.blocks[k]?
  within : ∀ {k}, P k → k < b.blocks.length
  blocks : b.blocks.length ≤ b'.blocks.length
  registers : b.registers ≤ b'.registers
  locals : b.locals <+: b'.locals
  outside : ¬ P b'.current

variable {P : BlockId → Prop}

namespace Builder.Protects

variable {b b' : Builder}

theorem refl (hP : ∀ {k}, P k → k < b.blocks.length) (hb : ¬ P b.current) : b.Protects P b :=
  ⟨fun _ => rfl, hP, Nat.le_refl _, Nat.le_refl _, List.prefix_refl _, hb⟩

theorem fresh (h : b.Protects P b') {k : BlockId} (hk : b'.blocks.length ≤ k) : ¬ P k := fun hp =>
  Nat.not_lt_of_le (Nat.le_trans h.blocks hk) (h.within hp)

theorem modify (h : b.Protects P b') (change : Block → Block) {registers : Nat}
    (hr : b'.registers ≤ registers) :
    b.Protects P ⟨b'.locals, b'.blocks.modify b'.current change, b'.current, registers⟩ where
  spared := fun {k} hk => by
    have hne : b'.current ≠ k := fun he => h.outside (he.symm ▸ hk)
    exact (List.getElem?_modify_ne _ _ hne).trans (h.spared hk)
  within := h.within
  blocks := by
    rw [List.length_modify]
    exact h.blocks
  registers := Nat.le_trans h.registers hr
  locals := h.locals
  outside := h.outside

theorem emit (h : b.Protects P b') (i : Instr) : b.Protects P (b'.emit i) :=
  h.modify (·.emit i) (Nat.le_refl _)

theorem write (h : b.Protects P b') (ty : Ty) (i : Instr) :
    b.Protects P ((b'.newRegister ty).2.emit i) :=
  h.modify (·.emit i) (Nat.le_succ _)

theorem close (h : b.Protects P b') (t : Terminator) : b.Protects P (b'.close t) :=
  h.modify (·.close t) (Nat.le_refl _)

theorem newLocal (h : b.Protects P b') (ty : Ty) : b.Protects P (b'.newLocal ty).2 :=
  ⟨h.spared, h.within, h.blocks, h.registers, h.locals.trans (List.prefix_append _ _), h.outside⟩

theorem newBlock (h : b.Protects P b') (label : String) : b.Protects P (b'.newBlock label).2 where
  spared := fun hk =>
    (List.getElem?_append_left (Nat.lt_of_lt_of_le (h.within hk) h.blocks)).trans (h.spared hk)
  within := h.within
  blocks := by
    rw [newBlock_length]
    exact Nat.le_succ_of_le h.blocks
  registers := h.registers
  locals := h.locals
  outside := h.outside

theorem goto (h : b.Protects P b') {k : BlockId} (hk : ¬ P k) : b.Protects P (b'.goto k) :=
  ⟨h.spared, h.within, h.blocks, h.registers, h.locals, hk⟩

theorem constant (h : b.Protects P b') (v : Scalar) : b.Protects P (b'.constant v).2 :=
    h.write v.ty _

theorem load (h : b.Protects P b') (place : Typed.Place) (ty : Ty) :
    b.Protects P (Codegen.load b' place ty).2 := by
  cases place with
  | slot n => exact h.write ty _
  | field f => exact h.write ty _

theorem store (h : b.Protects P b') (place : Typed.Place) (r : Register) :
    b.Protects P (Codegen.store b' place r) := by
  cases place with
  | slot n => exact h.emit _
  | field f => exact h.emit _

theorem step (h : b.Protects P b') {place : Typed.Place} {delta : Int} {before : Bool} {ty : Ty}
    {span : Span} {rb : Register × Builder}
    (hrun : Codegen.step b' place delta before ty span = .ok rb) : b.Protects P rb.2 := by
  unfold Codegen.step at hrun
  dsimp only at hrun
  split at hrun
  · cases hrun
  · cases hrun
    exact (((h.load place ty).constant _).write ty _).store place _

theorem zero (h : b.Protects P b') {ty : Ty} {span : Span} {rb : Register × Builder}
    (hrun : Codegen.zero b' ty span = .ok rb) : b.Protects P rb.2 := by
  unfold Codegen.zero at hrun
  split at hrun
  · cases hrun
    exact h.constant _
  · cases hrun

theorem call (h : b.Protects P b') {p : Typed.Program} {m : MethodId}
    {rb : Option Register × Builder} (hrun : Codegen.call p b' m = .ok rb) : b.Protects P rb.2 := by
  unfold Codegen.call at hrun
  split at hrun
  · cases hrun
  split at hrun
  · cases hrun
    exact h.emit _
  · cases hrun
    exact h.write _ _

theorem convert (h : b.Protects P b') (r : Register) (ty : Ty) :
    b.Protects P (Codegen.convert b' r ty).2 := by
  unfold Codegen.convert
  split
  · exact h
  · exact h.write ty _

theorem openLogical (h : b.Protects P b') (op : LogicalOp) (result : LocalIndex) (left : Register) :
    b.Protects P (Codegen.openLogical b' op result left).2 ∧
      ¬ P (Codegen.openLogical b' op result left).1 := by
  have h1 := h.newBlock "logical.rhs"
  have h2 := h1.newBlock "logical.short"
  have h3 := h2.newBlock "logical.merge"
  have hright := h.fresh (Nat.le_refl _)
  have hdecided := h1.fresh (Nat.le_refl _)
  refine ⟨?_, h2.fresh (Nat.le_refl _)⟩
  cases op with
  | and => exact (((((h3.close _).goto hdecided).constant _).emit _).close _).goto hright
  | or => exact (((((h3.close _).goto hdecided).constant _).emit _).close _).goto hright

theorem closeLogical (h : b.Protects P b') {merge : BlockId} (hmerge : ¬ P merge)
    {result : LocalIndex} {right : Register} {span : Span} {rb : Register × Builder}
    (hrun : Codegen.closeLogical b' merge result right span = .ok rb) : b.Protects P rb.2 := by
  unfold Codegen.closeLogical at hrun
  split at hrun
  · cases hrun
  · rename_i hz
    cases hrun
    exact (((((h.zero hz).write .truth _).emit _).close _).goto hmerge).write .truth _

theorem newCaseBlocks (h : b.Protects P b') (i n : Nat) :
    b.Protects P (Codegen.newCaseBlocks b' i n).2 := by
  induction n generalizing i b' with
  | zero => exact h
  | succ n ih => exact ih (h.newBlock _) (i + 1)

theorem openSwitch (h : b.Protects P b') (r : Register) (cases : List Typed.Case) :
    b.Protects P (Codegen.openSwitch b' r cases).2 :=
  ((h.newCaseBlocks 0 cases.length).newBlock "switch.exit").close _

theorem reopen (h : b.Protects P b') : b.Protects P (Codegen.reopen b') := by
  unfold Codegen.reopen
  split
  · exact (h.newBlock "dead").goto (h.fresh (Nat.le_refl _))
  · exact h

end Builder.Protects

/-! ## Trees -/

variable {p : Typed.Program} {b : Builder}

theorem genExpr_protects (e : Typed.Expr) : ∀ {b' : Builder} {rb : Option Register × Builder},
    b.Protects P b' → genExpr p b' e = .ok rb → b.Protects P rb.2 := by
  induction e with
  | const v ty span =>
    intro b' rb h hrun
    cases hrun
    exact h.constant v
  | load place ty span =>
    intro b' rb h hrun
    cases hrun
    exact h.load place ty
  | convert e ty span ih =>
    intro b' rb h hrun
    simp only [genExpr] at hrun
    split at hrun
    · cases hrun
    rename_i he
    cases hrun
    exact (ih h (genValue_some he)).convert _ ty
  | unary op e ty span ih =>
    intro b' rb h hrun
    simp only [genExpr] at hrun
    split at hrun
    · cases hrun
    rename_i he
    cases hrun
    exact (ih h (genValue_some he)).write ty _
  | binary op l r ty span ihl ihr =>
    intro b' rb h hrun
    simp only [genExpr] at hrun
    split at hrun
    · cases hrun
    rename_i hl
    split at hrun
    · cases hrun
    rename_i hr
    cases hrun
    exact (ihr (ihl h (genValue_some hl)) (genValue_some hr)).write ty _
  | logical op l r ty span ihl ihr =>
    intro b' rb h hrun
    simp only [genExpr] at hrun
    split at hrun
    · cases hrun
    rename_i hl
    split at hrun
    · cases hrun
    rename_i hr
    split at hrun
    · cases hrun
    rename_i hclose
    cases hrun
    obtain ⟨hopen, hmerge⟩ :=
      (ihl (h.newLocal .truth) (genValue_some hl)).openLogical op b'.locals.length _
    exact (ihr hopen (genValue_some hr)).closeLogical hmerge hclose
  | update place delta before ty span =>
    intro b' rb h hrun
    simp only [genExpr] at hrun
    split at hrun
    · cases hrun
    rename_i hstep
    cases hrun
    exact h.step hstep
  | assign place e ty span ih =>
    intro b' rb h hrun
    simp only [genExpr] at hrun
    split at hrun
    · cases hrun
    rename_i he
    cases hrun
    exact (ih h (genValue_some he)).store place _
  | call m ty span =>
    intro b' rb h hrun
    exact h.call hrun
  | print e ty span ih =>
    intro b' rb h hrun
    simp only [genExpr] at hrun
    split at hrun
    · cases hrun
    rename_i he
    cases hrun
    exact (ih h (genValue_some he)).emit _
  | printBlank ty span =>
    intro b' rb h hrun
    cases hrun
    exact h.emit _

theorem declare_protects {b' b'' : Builder} (h : b.Protects P b') {slot : Slot}
    {init : Option Typed.Expr} (hrun : declare p b' slot init = .ok b'') : b.Protects P b'' := by
  unfold declare at hrun
  split at hrun
  · split at hrun
    · cases hrun
    rename_i he
    cases hrun
    exact (genExpr_protects _ h (genValue_some he)).emit _
  · split at hrun
    · cases hrun
    split at hrun
    · cases hrun
    rename_i hz
    cases hrun
    exact (h.zero hz).emit _

theorem leaveFunction_protects {b' b'' : Builder} (h : b.Protects P b') {value : Option Typed.Expr}
    (hrun : leaveFunction p b' value = .ok b'') : b.Protects P b'' := by
  unfold leaveFunction at hrun
  split at hrun
  · cases hrun
    exact h.close _
  · split at hrun
    · cases hrun
    rename_i he
    cases hrun
    exact (genExpr_protects _ h (genValue_some he)).close _

/-- The blocks of a switch have consecutive numbers, from the first new one on. -/
theorem openSwitch_consecutive (b : Builder) (r : Register) (cases : List Typed.Case) :
    (openSwitch b r cases).1 = .consecutive b.blocks.length cases.length := by
  obtain ⟨d, -, hopen⟩ := openSwitch_addsBlocks ⟨[], []⟩ .void ⟨b, [], [], [], [], []⟩ r cases
  rw [hopen]

def Unprotected (P : BlockId → Prop) (s : OpenSwitch) : Prop := ∀ i, ¬ P (s.caseBlock i)

mutual

theorem genStmt_protects : ∀ (s : Typed.Stmt) {switches : Switches} {b' b'' : Builder},
    b.Protects P b' → genStmt p switches b' s = .ok b'' → b.Protects P b''
  | .block body, switches, b', b'', h, hrun => by
    simp only [genStmt] at hrun
    exact genList_protects body h.reopen hrun
  | .declare slot init, switches, b', b'', h, hrun => by
    simp only [genStmt] at hrun
    exact declare_protects h.reopen hrun
  | .expr e, switches, b', b'', h, hrun => by
    simp only [genStmt] at hrun
    split at hrun
    · cases hrun
    rename_i he
    cases hrun
    exact genExpr_protects e h.reopen he
  | .switch scrutinee compare cases, switches, b', b'', h, hrun => by
    simp only [genStmt] at hrun
    split at hrun
    · cases hrun
    rename_i r b1 he
    split at hrun
    · cases hrun
    rename_i hcases
    cases hrun
    have h1 := genExpr_protects _ h.reopen (genValue_some he)
    have hall : Unprotected P (openSwitch b1 r cases).1 := by
      intro i
      rw [openSwitch_consecutive]
      exact h1.fresh (OpenSwitch.caseBlock_le _ _ i)
    have hbehind : ¬ P (openSwitch b1 r cases).1.behind := by
      rw [openSwitch_consecutive]
      exact h1.fresh (Nat.le_add_right _ _)
    exact (genCases_protects cases hall (h1.openSwitch r cases) hcases).goto hbehind
  | .leave, switches, b', b'', h, hrun => by
    simp only [genStmt] at hrun
    split at hrun
    · cases hrun
    · cases hrun
      exact h.reopen.close _
  | .ret value, switches, b', b'', h, hrun => by
    simp only [genStmt] at hrun
    exact leaveFunction_protects h.reopen hrun

theorem genList_protects : ∀ (ss : List Typed.Stmt) {switches : Switches} {b' b'' : Builder},
    b.Protects P b' → genList p switches b' ss = .ok b'' → b.Protects P b''
  | [], switches, b', b'', h, hrun => by
    simp only [genList] at hrun
    cases hrun
    exact h
  | s :: ss, switches, b', b'', h, hrun => by
    simp only [genList] at hrun
    split at hrun
    · cases hrun
    rename_i hs
    exact genList_protects ss (genStmt_protects s h hs) hrun

theorem genCases_protects : ∀ (cs : List Typed.Case) {switches : Switches} {s : OpenSwitch}
    {i : Nat} {b' b'' : Builder}, Unprotected P s → b.Protects P b' →
    genCases p switches s i b' cs = .ok b'' → b.Protects P b''
  | [], switches, s, i, b', b'', _, h, hrun => by
    simp only [genCases] at hrun
    cases hrun
    exact h
  | .mk label body :: cs, switches, s, i, b', b'', hall, h, hrun => by
    simp only [genCases] at hrun
    split at hrun
    · cases hrun
    rename_i b1 hbody
    have h1 := genList_protects body (h.goto (hall i)) hbody
    refine genCases_protects cs hall ?_ hrun
    split
    · exact h1
    · exact h1.close _

end

/-! ## Behind -/

theorem reopen_isOpen (b : Builder) : (reopen b).isClosed = false := by
  unfold reopen
  split
  · exact Builder.isClosed_eq (b := (b.newBlock "dead").2.goto b.blocks.length)
      (Builder.newBlock_self b "dead")
  · rename_i h
    exact Bool.eq_false_iff.mpr h

theorem reopen_reopen (b : Builder) : reopen (reopen b) = reopen b := by
  rw [reopen, reopen_isOpen b]
  rfl

theorem genStmt_reopen (switches : Switches) (b : Builder) (s : Typed.Stmt) :
    genStmt p switches (reopen b) s = genStmt p switches b s := by
  cases s <;> simp only [genStmt, reopen_reopen]

/-- Either the current block has ended or it is not protected. -/
theorem reopen_protects (hP : ∀ {k}, P k → k < b.blocks.length)
    (hb : b.isClosed = true ∨ ¬ P b.current) : b.Protects P (reopen b) := by
  unfold reopen
  split
  · refine ⟨fun hk => List.getElem?_append_left (hP hk), hP, ?_, Nat.le_refl _,
      List.prefix_refl _, fun hk => Nat.lt_irrefl _ (hP hk)⟩
    exact (Builder.newBlock_length b "dead").symm ▸ Nat.le_succ _
  · rename_i hopen
    exact .refl hP (hb.resolve_left hopen)

/-- What stands behind a block that has ended, or aside, touches no protected block. -/
theorem genList_behind (hP : ∀ {k}, P k → k < b.blocks.length)
    (hb : b.isClosed = true ∨ ¬ P b.current) {ss : List Typed.Stmt} {switches : Switches}
    {b' : Builder} (hrun : genList p switches b ss = .ok b') : b' = b ∨ b.Protects P b' := by
  cases ss with
  | nil =>
    simp only [genList] at hrun
    cases hrun
    exact .inl rfl
  | cons s ss =>
    have hrun' : genList p switches (reopen b) (s :: ss) = .ok b' := by
      rw [genList, genStmt_reopen]
      exact hrun
    exact .inr (genList_protects (s :: ss) (reopen_protects hP hb) hrun')

end Cascade.Codegen
