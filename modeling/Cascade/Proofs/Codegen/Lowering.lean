import Cascade.Proofs.Codegen.Functional
import Mathlib.Data.List.Basic

/-!
# Cascade.Proofs.Codegen.Lowering

Code generation never works on a block that there is not, so it comes to the same as the functions
of builders that do not look.

* `Builder.Before`: from a builder on, no block is lost, and the current one is there.
* `Builder.Does`: a step of code generation from a builder has a given result, and what it leaves
  comes after that builder; `Does.bind`: one step after another.
* `lowerExpr_does`, `lowerList_does`: expressions and statements.
* `lowerProgram_eq`: whole programs.
-/

namespace Cascade.Codegen

open Code

theorem Lower.bind_ok {α β : Type} {act : Lower α} {next : α → Lower β} {b : Builder}
    {r : β × Builder} (h : (act >>= next) b = .ok r) :
    ∃ a b', act b = .ok (a, b') ∧ next a b' = .ok r := by
  simp only [Bind.bind, StateT.bind, Except.bind] at h
  split at h
  · cases h
  · exact ⟨_, _, ‹_›, h⟩

theorem Lower.result_ok {α : Type} {act : Lower α} {locals : List Code.Local} {a : α}
    (h : act.result locals = .ok a) : ∃ b, act (.start locals) = .ok (a, b) := by
  unfold Lower.result at h
  cases hrun : act (.start locals) with
  | error e =>
    rw [hrun] at h
    cases h
  | ok r =>
    rw [hrun] at h
    cases h
    exact ⟨r.2, rfl⟩

namespace Builder

/-- No block is lost on the way from one builder to another, in which there is a current block. -/
structure Before (b b' : Builder) : Prop where
  length : b.blocks.length ≤ b'.blocks.length
  current : b'.current < b'.blocks.length

theorem Before.trans {b b' b'' : Builder} (h : b.Before b') (h' : b'.Before b'') : b.Before b'' :=
  ⟨Nat.le_trans h.length h'.length, h'.current⟩

/-- The step ends in the given way. If it succeeds, the builder that it leaves comes after the one
that it starts with. -/
structure Does {α : Type} (b : Builder) (act : Lower α)
    (result : Except (Failure Error) (α × Builder)) : Prop where
  same : act b = result
  before : ∀ {r : α × Builder}, result = .ok r → b.Before r.2

namespace Does

variable {α β : Type} {b : Builder} {act : Lower α} {next : α → Lower β} {r : α × Builder}
  {result : Except (Failure Error) (β × Builder)}

theorem ok (h : act b = .ok r) (hb : b.Before r.2) : b.Does act (.ok r) :=
  ⟨h, by rintro _ ⟨⟩; exact hb⟩

theorem error {e : Failure Error} (h : act b = .error e) : b.Does act (.error e) :=
  ⟨h, nofun⟩

theorem pure (hb : b.current < b.blocks.length) (a : α) : b.Does (pure a) (.ok (a, b)) :=
  .ok rfl ⟨Nat.le_refl _, hb⟩

theorem bind (h : b.Does act (.ok r)) (hnext : b.Before r.2 → r.2.Does (next r.1) result) :
    b.Does (act >>= next) result where
  same := by
    have := (hnext (h.before rfl)).same
    simp only [Bind.bind, StateT.bind, Except.bind, h.same, this]
  before := fun hr => (h.before rfl).trans ((hnext (h.before rfl)).before hr)

theorem stop {e : Failure Error} (h : b.Does act (.error e)) : b.Does (act >>= next) (.error e) :=
  .error (by simp only [Bind.bind, StateT.bind, Except.bind, h.same])

theorem map {r : Except (Failure Error) (α × Builder)} (h : b.Does act r) (f : α → β) :
    b.Does (f <$> act) (r.map fun x => (f x.1, x.2)) := by
  cases r with
  | error e => exact .error (by simp only [Functor.map, StateT.map, Bind.bind, Except.bind, h.same])
  | ok x =>
    refine .ok ?_ (h.before rfl)
    simp only [Functor.map, StateT.map, Bind.bind, Except.bind, h.same]
    rfl

end Does

/-! ## Single operations -/

section

variable {b : Builder} (hb : b.current < b.blocks.length)
include hb

theorem newRegister_does (ty : Ty) :
    b.Does (Lower.newRegister ty) (.ok (b.newRegister ty)) :=
  .ok rfl ⟨Nat.le_refl _, hb⟩

theorem newLocal_does (ty : Ty) : b.Does (Lower.newLocal ty) (.ok (b.newLocal ty)) :=
  .ok rfl ⟨Nat.le_refl _, hb⟩

theorem newBlock_does (label : String) :
    b.Does (Lower.newBlock label) (.ok (b.newBlock label)) := by
  refine .ok rfl ⟨?_, ?_⟩
  · simp
  · rw [newBlock_length]
    exact Nat.lt_succ_of_lt hb

theorem isClosed_does : b.Does Lower.isClosed (.ok (b.isClosed, b)) := .ok rfl ⟨Nat.le_refl _, hb⟩

theorem get_does : b.Does get (.ok (b, b)) := .ok rfl ⟨Nat.le_refl _, hb⟩

theorem change_does (f : Block → Block) : b.Does (Lower.change f)
    (.ok ((), ⟨b.locals, b.blocks.modify b.current f, b.current, b.registers⟩)) := by
  refine .ok ?_ ⟨by simp, by simpa using hb⟩
  simp only [Lower.change, List.getElem?_eq_getElem hb, List.modify_eq_set_get f hb]
  rfl

theorem emit_does (i : Instr) : b.Does (Lower.emit i) (.ok ((), b.emit i)) := change_does hb _

theorem close_does (t : Terminator) : b.Does (Lower.close t) (.ok ((), b.close t)) :=
  change_does hb _

theorem constant_does (v : Scalar) : b.Does (Lower.constant v) (.ok (b.constant v)) :=
  (newRegister_does hb v.ty).bind fun h => (emit_does h.current _).bind fun h => .pure h.current _

theorem zero_does (ty : Ty) (span : Span) : b.Does (Lower.zero ty span) (zero b ty span) := by
  unfold Lower.zero zero
  cases Scalar.zero? ty with
  | none => exact .error rfl
  | some v => exact constant_does hb v

end

theorem goto_does {b : Builder} {k : Nat} (hk : k < b.blocks.length) :
    b.Does (Lower.goto k) (.ok ((), b.goto k)) :=
  .ok rfl ⟨Nat.le_refl _, hk⟩

end Builder

open Builder

section

variable {b : Builder} (hb : b.current < b.blocks.length)
include hb

/-- An instruction that writes a register of its own. -/
theorem write_does (ty : Ty) (i : Register → Instr) :
    b.Does (do let r ← Lower.newRegister ty; Lower.emit (i r); return r)
      (.ok ((b.newRegister ty).1, (b.newRegister ty).2.emit (i (b.newRegister ty).1))) :=
  (newRegister_does hb ty).bind fun h => (emit_does h.current _).bind fun h => .pure h.current _

theorem load_does (place : Typed.Place) (ty : Ty) :
    b.Does (Lower.load place ty) (.ok (load b place ty)) := by
  cases place with
  | slot n => exact write_does hb ty (.loadLocal · n)
  | field f => exact write_does hb ty (.loadField · f)

theorem store_does (place : Typed.Place) (value : Register) :
    b.Does (Lower.store place value) (.ok ((), store b place value)) := by
  cases place with
  | slot n => exact emit_does hb _
  | field f => exact emit_does hb _

theorem convert_does (value : Register) (ty : Ty) :
    b.Does (Lower.convert value ty) (.ok (convert b value ty)) := by
  unfold Lower.convert convert
  split
  · exact .pure hb value
  · exact write_does hb ty (.convert · value)

theorem step_does (place : Typed.Place) (delta : Int) (before : Bool) (ty : Ty) (span : Span) :
    b.Does (Lower.step place delta before ty span) (step b place delta before ty span) := by
  unfold Lower.step step
  refine (load_does hb place ty).bind fun h => ?_
  cases Scalar.ofInt? ty delta with
  | none => exact .error rfl
  | some d =>
    exact (constant_does h.current d).bind fun h => (newRegister_does h.current ty).bind fun h =>
      (emit_does h.current _).bind fun h => (store_does h.current place _).bind fun h =>
        .pure h.current _

theorem openLogical_does (op : LogicalOp) (result : LocalIndex) (left : Register) :
    b.Does (Lower.openLogical op result left) (.ok (openLogical b op result left)) := by
  unfold Lower.openLogical
  refine (newBlock_does hb _).bind fun h => (newBlock_does h.current _).bind fun h =>
    (newBlock_does h.current _).bind fun h => ?_
  -- work goes on in two of the blocks that have just been made
  cases op with
  | and | or =>
    exact (close_does h.current _).bind fun _ => (goto_does (by simp)).bind fun h =>
      (constant_does h.current _).bind fun h => (emit_does h.current _).bind fun h =>
        (close_does h.current _).bind fun _ => (goto_does (by simp; omega)).bind fun h =>
          .pure h.current _

theorem closeLogical_does {merge : BlockId} (hm : merge < b.blocks.length) (result : LocalIndex)
    (right : Register) (span : Span) : b.Does (Lower.closeLogical merge result right span)
      (closeLogical b merge result right span) := by
  unfold Lower.closeLogical closeLogical
  have hz := zero_does hb right.ty span
  revert hz
  cases zero b right.ty span with
  | error e => exact Does.stop
  | ok r =>
    intro hz
    refine hz.bind fun hr => (newRegister_does hr.current .truth).bind fun h =>
      (emit_does h.current _).bind fun h => (emit_does h.current _).bind fun h =>
        (close_does h.current _).bind fun _ => (goto_does ?_).bind fun h =>
          write_does h.current .truth (.loadLocal · result)
    simp only [close_length, emit_length]
    exact Nat.lt_of_lt_of_le hm hr.length

theorem call_does (p : Typed.Program) (m : MethodId) :
    b.Does (Lower.call p m) (call p b m) := by
  unfold Lower.call call
  cases p.methods[m]? with
  | none => exact .error rfl
  | some callee =>
    dsimp only
    split
    · exact (emit_does hb _).bind fun h => .pure h.current _
    · exact (newRegister_does hb _).bind fun h => (emit_does h.current _).bind fun h =>
        .pure h.current _

end

theorem needValue_does {b : Builder} {act : Lower (Option Register)}
    {result : Except (Failure Error) (Option Register × Builder)} (h : b.Does act result)
    (span : Span) : b.Does (Lower.needValue span act) (needValue span result) := by
  unfold Lower.needValue
  match result with
  | .error e => exact h.stop
  | .ok (none, b') => exact h.bind fun _ => .error rfl
  | .ok (some r, b') => exact h.bind fun hb => .pure hb.current r

theorem valued_does {b : Builder} {act : Lower Register} {r : Register × Builder}
    (h : b.Does act (.ok r)) : b.Does (some <$> act) (.ok (valued r)) :=
  h.map some

theorem openLogical_merge (b : Builder) (op : LogicalOp) (result : LocalIndex) (left : Register) :
    (openLogical b op result left).1 < (openLogical b op result left).2.blocks.length := by
  cases op with
  | and | or => simp [openLogical]

theorem lowerExpr_does (p : Typed.Program) : ∀ (e : Typed.Expr) {b : Builder},
    b.current < b.blocks.length → b.Does (lowerExpr p e) (genExpr p b e)
  | .const v ty span, b, hb => by
    rw [lowerExpr, genExpr]
    exact valued_does (constant_does hb v)
  | .load place ty span, b, hb => by
    rw [lowerExpr, genExpr]
    exact valued_does (load_does hb place ty)
  | .convert e ty span, b, hb => by
    rw [lowerExpr, genExpr]
    have he := needValue_does (lowerExpr_does p e hb) e.span
    revert he
    cases needValue e.span (genExpr p b e) with
    | error err => exact Does.stop
    | ok r => exact fun he => he.bind fun h => valued_does (convert_does h.current r.1 ty)
  | .unary op e ty span, b, hb => by
    rw [lowerExpr, genExpr]
    have he := needValue_does (lowerExpr_does p e hb) e.span
    revert he
    cases needValue e.span (genExpr p b e) with
    | error err => exact Does.stop
    | ok r =>
      exact fun he => he.bind fun h => (newRegister_does h.current ty).bind fun h =>
        (emit_does h.current _).bind fun h => .pure h.current _
  | .binary op left right ty span, b, hb => by
    rw [lowerExpr, genExpr]
    have hl := needValue_does (lowerExpr_does p left hb) left.span
    revert hl
    cases needValue left.span (genExpr p b left) with
    | error err => exact Does.stop
    | ok l =>
      refine fun hl => hl.bind fun h => ?_
      have hr := needValue_does (lowerExpr_does p right h.current) right.span
      dsimp only
      revert hr
      cases needValue right.span (genExpr p l.2 right) with
      | error err => exact Does.stop
      | ok r =>
        exact fun hr => hr.bind fun h => (newRegister_does h.current ty).bind fun h =>
          (emit_does h.current _).bind fun h => .pure h.current _
  | .logical op left right ty span, b, hb => by
    rw [lowerExpr, genExpr]
    refine (newLocal_does hb .truth).bind fun h => ?_
    have hl := needValue_does (lowerExpr_does p left h.current) left.span
    dsimp only
    revert hl
    cases needValue left.span (genExpr p (b.newLocal .truth).2 left) with
    | error err => exact Does.stop
    | ok l =>
      refine fun hl => hl.bind fun h => (openLogical_does h.current op _ l.1).bind fun h => ?_
      have hmerge := openLogical_merge l.2 op (b.newLocal .truth).1 l.1
      have hr := needValue_does (lowerExpr_does p right h.current) right.span
      dsimp only at hmerge ⊢
      revert hr
      cases needValue right.span (genExpr p (openLogical l.2 op (b.newLocal .truth).1 l.1).2
        right) with
      | error err => exact Does.stop
      | ok r =>
        refine fun hr => hr.bind fun h => ?_
        have hc := closeLogical_does h.current (Nat.lt_of_lt_of_le hmerge h.length)
          (b.newLocal .truth).1 r.1 right.span
        dsimp only
        revert hc
        cases closeLogical r.2 (openLogical l.2 op (b.newLocal .truth).1 l.1).1
          (b.newLocal .truth).1 r.1 right.span with
        | error err => exact fun hc => hc.map some
        | ok r => exact valued_does
  | .update place delta before ty span, b, hb => by
    rw [lowerExpr, genExpr]
    have hs := step_does hb place delta before ty span
    revert hs
    cases step b place delta before ty span with
    | error err => exact fun hs => hs.map some
    | ok r => exact valued_does
  | .assign place e ty span, b, hb => by
    rw [lowerExpr, genExpr]
    have he := needValue_does (lowerExpr_does p e hb) e.span
    revert he
    cases needValue e.span (genExpr p b e) with
    | error err => exact Does.stop
    | ok r =>
      exact fun he => he.bind fun h => (store_does h.current place r.1).bind fun h =>
        .pure h.current _
  | .call m ty span, b, hb => by
    rw [lowerExpr, genExpr]
    exact call_does hb p m
  | .print e ty span, b, hb => by
    rw [lowerExpr, genExpr]
    have he := needValue_does (lowerExpr_does p e hb) e.span
    revert he
    cases needValue e.span (genExpr p b e) with
    | error err => exact Does.stop
    | ok r =>
      exact fun he => he.bind fun h => (emit_does h.current _).bind fun h => .pure h.current _
  | .printBlank ty span, b, hb => by
    rw [lowerExpr, genExpr]
    exact (emit_does hb _).bind fun h => .pure h.current _

theorem lowerValue_does (p : Typed.Program) (e : Typed.Expr) {b : Builder}
    (hb : b.current < b.blocks.length) : b.Does (lowerValue p e) (genValue p b e) :=
  needValue_does (lowerExpr_does p e hb) e.span

/-! ## Statements -/

/-- The result of a step that gives nothing but the builder. -/
def done (r : Except (Failure Error) Builder) : Except (Failure Error) (Unit × Builder) :=
  r.map fun b => ((), b)

section

variable {b : Builder} (hb : b.current < b.blocks.length)
include hb

theorem reopen_does : b.Does Lower.reopen (.ok ((), reopen b)) := by
  unfold Lower.reopen reopen
  refine (isClosed_does hb).bind fun h => ?_
  dsimp only
  split
  · exact (newBlock_does hb _).bind fun _ => goto_does (by simp)
  · exact .pure hb ()

theorem declare_does (p : Typed.Program) (slot : Slot) (init : Option Typed.Expr) :
    b.Does (Lower.declare p slot init) (done (declare p b slot init)) := by
  unfold Lower.declare declare
  cases init with
  | some e =>
    have he := lowerValue_does p e hb
    dsimp only
    revert he
    cases genValue p b e with
    | error err => exact Does.stop
    | ok r => exact fun he => he.bind fun h => emit_does h.current _
  | none =>
    refine (get_does hb).bind fun h => ?_
    dsimp only
    cases b.locals[slot]? with
    | none => exact .stop (.error rfl)
    | some l =>
      have hz := zero_does hb l.ty .zero
      dsimp only
      revert hz
      cases zero b l.ty .zero with
      | error err => exact Does.stop
      | ok r => exact fun hz => hz.bind fun h => emit_does h.current _

theorem leaveFunction_does (p : Typed.Program) (value : Option Typed.Expr) :
    b.Does (Lower.leaveFunction p value) (done (leaveFunction p b value)) := by
  cases value with
  | none => exact close_does hb _
  | some e =>
    unfold Lower.leaveFunction leaveFunction
    have he := lowerValue_does p e hb
    dsimp only
    revert he
    cases genValue p b e with
    | error err => exact Does.stop
    | ok r => exact fun he => he.bind fun h => close_does h.current _

end

/-! ## Switches -/

theorem newCaseBlocks_does (n : Nat) : ∀ (i : Nat) {b : Builder}, b.current < b.blocks.length →
    b.Does (Lower.newCaseBlocks i n) (.ok (newCaseBlocks b i n)) := by
  induction n with
  | zero => exact fun _ _ hb => .pure hb []
  | succ n ih =>
    exact fun i b hb => (newBlock_does hb _).bind fun h => (ih (i + 1) h.current).bind fun h =>
      .pure h.current _

theorem newCaseBlocks_numbers (b : Builder) (i n : Nat) :
    (newCaseBlocks b i n).1 = List.range' b.blocks.length n ∧
      (newCaseBlocks b i n).2.blocks.length = b.blocks.length + n := by
  induction n generalizing b i with
  | zero => exact ⟨rfl, rfl⟩
  | succ n ih =>
    obtain ⟨hids, hlen⟩ := ih (b.newBlock ("switch.case" ++ toString i)).2 (i + 1)
    rw [newBlock_length] at hids hlen
    refine ⟨congrArg (b.blocks.length :: ·) hids, hlen.trans ?_⟩
    omega

/-- A switch with blocks for some cases, all of which are there. -/
structure OpenSwitch.Made (s : OpenSwitch) (cases : Nat) (b : Builder) : Prop where
  length : s.cases.length = cases
  case : ∀ k ∈ s.cases, k < b.blocks.length
  behind : s.behind < b.blocks.length

namespace OpenSwitch

variable {s : OpenSwitch} {n i : Nat} {b b' : Builder}

theorem Made.before (h : s.Made n b) (hb : b.Before b') : s.Made n b' :=
  ⟨h.length, fun k hk => Nat.lt_of_lt_of_le (h.case k hk) hb.length,
    Nat.lt_of_lt_of_le h.behind hb.length⟩

theorem caseBlock_eq (hi : i < s.cases.length) : s.cases[i]? = some (s.caseBlock i) := by
  rw [caseBlock, List.getD_eq_getElem?_getD, List.getElem?_eq_getElem hi]
  rfl

theorem Made.caseBlock_lt (h : s.Made n b) (hi : i < n) :
    s.caseBlock i < b.blocks.length :=
  h.case _ (List.mem_of_getElem? (caseBlock_eq (h.length.symm ▸ hi)))

theorem case_does (hb : b.current < b.blocks.length) (hi : i < s.cases.length) :
    b.Does (s.case i) (.ok (s.caseBlock i, b)) := by
  unfold OpenSwitch.case
  rw [caseBlock_eq hi]
  exact .pure hb _

theorem default_does (hb : b.current < b.blocks.length) {cases : List Typed.Case}
    (hs : s.cases.length = cases.length) :
    b.Does (s.default cases) (.ok (defaultBlock cases s, b)) := by
  unfold OpenSwitch.default defaultBlock
  cases hi : cases.findIdx? Typed.Case.isDefault with
  | some i =>
    obtain ⟨hlt, -⟩ := List.findIdx?_eq_some_iff_getElem.mp hi
    exact case_does hb (hs ▸ hlt)
  | none => exact .pure hb _

end OpenSwitch

theorem openSwitch_made (b : Builder) (r : Register) (cases : List Typed.Case) :
    (openSwitch b r cases).1.Made cases.length (openSwitch b r cases).2 := by
  obtain ⟨hids, hlen⟩ := newCaseBlocks_numbers b 0 cases.length
  refine ⟨by simp [openSwitch, hids], fun k hk => ?_, by simp [openSwitch]⟩
  simp only [openSwitch, hids, List.mem_range'_1] at hk
  simp only [openSwitch, close_length, newBlock_length, hlen]
  exact Nat.lt_succ_of_lt hk.2

theorem openSwitch_does {b : Builder} (hb : b.current < b.blocks.length) (r : Register)
    (cases : List Typed.Case) :
    b.Does (Lower.openSwitch r cases) (.ok (openSwitch b r cases)) := by
  refine (newCaseBlocks_does cases.length 0 hb).bind fun h => (newBlock_does h.current _).bind
    fun h => (OpenSwitch.default_does h.current ?_).bind fun h => (close_does h.current _).bind
      fun h => .pure h.current _
  exact (openSwitch_made b r cases).length

mutual

theorem lowerStmt_does (p : Typed.Program) : ∀ (s : Typed.Stmt) (switches : Switches)
    {b : Builder}, b.current < b.blocks.length →
    b.Does (lowerStmt p switches s) (done (genStmt p switches b s))
  | .block body, switches, b, hb => by
    rw [lowerStmt, genStmt]
    exact (reopen_does hb).bind fun h => lowerList_does p body switches h.current
  | .declare slot init, switches, b, hb => by
    rw [lowerStmt, genStmt]
    exact (reopen_does hb).bind fun h => declare_does h.current p slot init
  | .expr e, switches, b, hb => by
    rw [lowerStmt, genStmt]
    refine (reopen_does hb).bind fun h => ?_
    have he := lowerExpr_does p e h.current
    dsimp only
    revert he
    cases genExpr p (reopen b) e with
    | error err => exact Does.stop
    | ok r => exact fun he => he.bind fun h => .pure h.current ()
  | .switch scrutinee ty cases, switches, b, hb => by
    rw [lowerStmt, genStmt]
    refine (reopen_does hb).bind fun h => ?_
    have he := lowerValue_does p scrutinee h.current
    dsimp only
    revert he
    cases genValue p (reopen b) scrutinee with
    | error err => exact Does.stop
    | ok r =>
      refine fun he => he.bind fun h => (openSwitch_does h.current r.1 cases).bind fun h => ?_
      have hs := openSwitch_made r.2 r.1 cases
      have hcases := lowerCases_does p cases 0 (switches.push (openSwitch r.2 r.1 cases).1)
        h.current hs (Nat.zero_add _)
      dsimp only
      revert hcases
      cases genCases p (switches.push (openSwitch r.2 r.1 cases).1)
        (openSwitch r.2 r.1 cases).1 0 (openSwitch r.2 r.1 cases).2 cases with
      | error err => exact Does.stop
      | ok b' => exact fun hcases => hcases.bind fun h => goto_does (hs.before h).behind
  | .leave, switches, b, hb => by
    rw [lowerStmt, genStmt]
    refine (reopen_does hb).bind fun h => ?_
    cases switches.exit? with
    | none => exact .error rfl
    | some target => exact close_does h.current _
  | .ret value, switches, b, hb => by
    rw [lowerStmt, genStmt]
    exact (reopen_does hb).bind fun h => leaveFunction_does h.current p value

theorem lowerList_does (p : Typed.Program) : ∀ (ss : List Typed.Stmt) (switches : Switches)
    {b : Builder}, b.current < b.blocks.length →
    b.Does (lowerList p switches ss) (done (genList p switches b ss))
  | [], switches, b, hb => by
    rw [lowerList, genList]
    exact .pure hb ()
  | s :: ss, switches, b, hb => by
    rw [lowerList, genList]
    have hs := lowerStmt_does p s switches hb
    revert hs
    cases genStmt p switches b s with
    | error err => exact Does.stop
    | ok b' => exact fun hs => hs.bind fun h => lowerList_does p ss switches h.current

theorem lowerCases_does (p : Typed.Program) : ∀ (cs : List Typed.Case) (i : Nat)
    (switches : Switches) {s : OpenSwitch} {n : Nat} {b : Builder},
    b.current < b.blocks.length → s.Made n b → i + cs.length = n →
    b.Does (lowerCases p switches s i cs) (done (genCases p switches s i b cs))
  | [], i, switches, s, n, b, hb, hs, hn => by
    rw [lowerCases, genCases]
    exact .pure hb ()
  | .mk label body :: cs, i, switches, s, n, b, hb, hs, hn => by
    rw [lowerCases, genCases]
    rw [List.length_cons] at hn
    have hi : i < n := by omega
    refine (OpenSwitch.case_does hb (hs.length.symm ▸ hi)).bind fun h =>
      (goto_does (hs.caseBlock_lt hi)).bind fun h => ?_
    have hbody := lowerList_does p body switches h.current
    have hgo := hs.before h
    dsimp only at hbody hgo ⊢
    revert hbody
    cases genList p switches (b.goto (s.caseBlock i)) body with
    | error err => exact Does.stop
    | ok b' =>
      refine fun hbody => hbody.bind fun h => (isClosed_does h.current).bind fun _ => ?_
      have hs' := hgo.before h
      dsimp only at h hs' ⊢
      cases hclosed : b'.isClosed with
      | true => exact lowerCases_does p cs (i + 1) switches h.current hs' (by omega)
      | false =>
        exact (close_does h.current _).bind fun h =>
          lowerCases_does p cs (i + 1) switches h.current (hs'.before h) (by omega)

end

/-! ## Programs -/

theorem lowerInits_does (p : Typed.Program) : ∀ (fs : List Typed.Field) {b : Builder},
    b.current < b.blocks.length → b.Does (lowerInits p fs) (done (genInits p b fs))
  | [], b, hb => by
    rw [lowerInits, genInits]
    exact .pure hb ()
  | f :: fs, b, hb => by
    rw [lowerInits, genInits]
    cases f.init with
    | none => exact lowerInits_does p fs hb
    | some e =>
      have he := lowerValue_does p e hb
      dsimp only
      revert he
      cases genValue p b e with
      | error err => exact Does.stop
      | ok r => exact fun he => he.bind fun h => (emit_does h.current _).bind fun h =>
          lowerInits_does p fs h.current

theorem finish_does {b : Builder} (hb : b.current < b.blocks.length) (id : FunctionId)
    (name : String) (returns : Ty) (span : Span) :
    ∃ b', b.Does (Lower.finish id name returns span)
      (.ok (finish b id name returns span, b')) := by
  have hget : ∀ {b : Builder}, b.current < b.blocks.length → b.Does (do
      let b ← get
      let f : Function := ⟨id, name, returns, b.locals, b.registers, [], 0, [], span⟩
      return (b.blocks.foldl Function.addBlock f).prune)
      (.ok ((b.function id name returns span).prune, b)) := by
    intro b hb
    rw [Builder.function, ← Function.foldl_addBlock]
    exact (get_does hb).bind fun h => .pure h.current _
  unfold Lower.finish finish
  refine ⟨if !b.isClosed && returns.isVoid then b.close (.ret none) else b,
    (isClosed_does hb).bind fun _ => ?_⟩
  dsimp only
  split
  · exact (close_does hb _).bind fun h => hget h.current
  · exact hget hb

theorem start_current (locals : List Code.Local) :
    (Builder.start locals).current < (Builder.start locals).blocks.length :=
  Nat.zero_lt_one

theorem lowerBody_eq (p : Typed.Program) (body : List Typed.Stmt) (locals : List Code.Local) :
    lowerList p [] body (.start locals) = done (genList p [] (.start locals) body) :=
  (lowerList_does p body [] (start_current locals)).same

/-- A body and the end of the function behind it. -/
theorem function_result {body : Lower Unit} {locals : List Code.Local}
    {r : Except (Failure Error) Builder} (h : (Builder.start locals).Does body (done r))
    (id : FunctionId) (name : String) (returns : Ty) (span : Span) :
    Lower.result (do body; Lower.finish id name returns span) locals =
      r.map fun b => finish b id name returns span := by
  cases r with
  | error e =>
    have hstop : (Builder.start locals).Does
      (do body; Lower.finish id name returns span) (.error e) := h.stop
    exact congrArg (Except.map Prod.fst) hstop.same
  | ok b =>
    obtain ⟨b', hfinish⟩ := finish_does (h.before rfl).current id name returns span
    have hall : (Builder.start locals).Does (do body; Lower.finish id name returns span)
      (.ok (finish b id name returns span, b')) := h.bind fun _ => hfinish
    exact congrArg (Except.map Prod.fst) hall.same

theorem lowerMethod_eq (p : Typed.Program) (m : Typed.Method) :
    lowerMethod p m = genMethod p m := by
  rw [lowerMethod, function_result (lowerList_does p m.body [] (start_current _)), genMethod]
  cases genList p [] (.start (m.locals.map namedLocal)) m.body <;> rfl

theorem lowerMethods_eq (p : Typed.Program) (ms : List Typed.Method) :
    lowerMethods p ms = genMethods p ms := by
  induction ms with
  | nil => rfl
  | cons m ms ih =>
    rw [lowerMethods, lowerMethod_eq, ih]
    rfl

theorem lowerInitializer_eq (p : Typed.Program) (id : FunctionId) :
    lowerInitializer p id = genInitializer p id := by
  rw [lowerInitializer, function_result (lowerInits_does p p.fields (start_current _)),
    genInitializer]
  cases genInits p (.start []) p.fields <;> rfl

/-- Code generation that looks for each block it works on, and that which does not, make the same
module of a program, or fail alike. -/
theorem lowerProgram_eq (p : Typed.Program) : lowerProgram p = genProgram p := by
  rw [lowerProgram, lowerMethods_eq, lowerInitializer_eq]
  rfl

end Cascade.Codegen
