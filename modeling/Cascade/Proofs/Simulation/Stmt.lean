import Cascade.Proofs.Codegen.Stmt
import Cascade.Proofs.Simulation.Expr

/-!
# Cascade.Proofs.Simulation.Stmt

The machine does on the code of statements what evaluating the statements tells.

* `Ended`: where the call is when a statement has ended, for each way of ending.
* `openSwitch_enters`: a switch gets to the block of the case that it should enter.
* `genList_follows`: by recursion on the statements.
-/

namespace Cascade.Simulation

open Code Machine Codegen
open Typed (Memory World Calls ListWellTyped CasesWellTyped Flow StmtPost evalExpr evalExpr_safe
  evalStmt evalList evalCases evalDeclare evalReturn evalSwitch chosen? evalList_safe)

variable {A : Activation} {m : Module} {limits : Limits}
variable {g : Signature} {returns : Ty} {slots : List Ty}
variable {p : Typed.Program} {calls : Calls} {room : Nat}

/-- Where a statement has led: to the end of its code, to the block behind the switch around it, or
to the end of the call. -/
def Ended (A : Activation) (m : Module) (limits : Limits) (exit : Option Nat) (b : Builder)
    (r : Flow × Memory) (s : State Lines) : Prop :=
  match r.1 with
  | .normal => Stands A b s r.2 ∧ b.isClosed = false
  | .leave => ∃ k, exit = some k ∧ At A k 0 s r.2
  | .ret v => Returns m limits A.below A.rest A.dest (v, r.2.world) s

/-- Where cases have led: to the block behind their switch, or to the end of the call. -/
def CasesEnded (A : Activation) (m : Module) (limits : Limits) (behind : Nat)
    (r : Flow × Memory) (s : State Lines) : Prop :=
  match r.1 with
  | .normal => At A behind 0 s r.2
  | .leave => At A behind 0 s r.2
  | .ret v => Returns m limits A.below A.rest A.dest (v, r.2.world) s

/-! ## Selecting a case -/

theorem map_succ_add (o : Option Nat) (first : Nat) :
    (o.map (· + 1)).map (first + ·) = o.map (first + 1 + ·) := by
  cases o with
  | none => rfl
  | some i => simp only [Option.map_some, Nat.add_assoc, Nat.add_comm 1]

theorem lookup_labelled (n : Int) (cases : List Typed.Case) (first : Nat) :
    (labelled cases (List.range' first cases.length)).lookup n =
      (cases.findIdx? fun c => c.label == some n).map (first + ·) := by
  induction cases generalizing first with
  | nil => rfl
  | cons c cs ih =>
    obtain ⟨_ | l, body⟩ := c
    · have hne : ((Typed.Case.mk none body).label == some n) = false := rfl
      simp only [List.length_cons, List.range'_succ, labelled, ih (first + 1),
        List.findIdx?_cons, hne, Bool.false_eq_true, if_false, map_succ_add]
    · simp only [List.length_cons, List.range'_succ, labelled, List.lookup_cons,
        ih (first + 1), List.findIdx?_cons]
      by_cases hl : n = l
      · subst hl
        have heq : ((Typed.Case.mk (some n) body).label == some n) = true :=
          beq_self_eq_true (some n)
        simp only [beq_self_eq_true, heq, if_true, Option.map_some, Nat.add_zero]
      · have h1 : (n == l) = false := by simpa using hl
        have h2 : ((Typed.Case.mk (some l) body).label == some n) = false := by
          simpa [Typed.Case.label] using fun h => hl h.symm
        simp only [h1, h2, Bool.false_eq_true, if_false, map_succ_add]

/-- The block that a switch goes to is that of the case to enter, or else the one behind it. -/
theorem selectCase_chosen (n : Int) (cases : List Typed.Case) (first : Nat) :
    selectCase n (labelled cases (List.range' first cases.length))
        (defaultBlock cases (.consecutive first cases.length)) =
      first + (chosen? n cases).getD cases.length := by
  rw [selectCase, lookup_labelled, chosen?, defaultBlock]
  cases cases.findIdx? fun c => c.label == some n with
  | some i => rfl
  | none =>
    cases hd : cases.findIdx? Typed.Case.isDefault with
    | none => rfl
    | some i =>
      have hlt := (List.findIdx?_eq_some_iff_getElem.mp hd).1
      exact OpenSwitch.caseBlock_consecutive (Nat.le_of_lt hlt)

theorem Stands.newCaseBlocks {s : State Lines} {μ : Memory} : ∀ (n i : Nat) {b : Builder},
    Stands A b s μ → Stands A (newCaseBlocks b i n).2 s μ
  | 0, _, _, h => h
  | n + 1, i, _, h => Stands.newCaseBlocks n (i + 1) (h.newBlock ("switch.case" ++ toString i))

/-- A switch goes to the block of the case to enter. -/
theorem openSwitch_enters (limits : Limits) (hA : A.Of m) {d : Draft} {s : State Lines} {μ : Memory}
    (h : Stands A d.b s μ) {r : Register} {v : Scalar} (hr : Holds A s r.id v) {n : Int}
    (hn : v.toInt? = some n) {cases : List Typed.Case}
    (hb : (openSwitch d.b r cases).2.Extends A.builder) :
    ∃ s', Steps m limits s s' ∧
      At A (d.b.blocks.length + (chosen? n cases).getD cases.length) 0 s' μ := by
  obtain ⟨d1, hblocks, hlaid⟩ := newCaseBlocks_addsBlocks ⟨[], []⟩ .void cases.length 0 d
  have hst := (h.newCaseBlocks cases.length 0).newBlock "switch.exit"
  simp only [openSwitch, hblocks] at hb hst
  rw [← selectCase_chosen]
  obtain ⟨s', hs', hat, -⟩ := hst.goes limits hA rfl hb
    (selectCase_mem n _ _) fun k i => by
      simp only [execTerm, Activation.state, hr.read, hn]
  refine ⟨s', .single hs', ?_⟩
  have hid : (d1.b.newBlock "switch.exit").1 = d.b.blocks.length + cases.length := hlaid.length
  rw [hid] at hat
  exact hat

/-! ## Statements -/

theorem Ready.fills (hc : Callable A m limits p calls room) {d : Draft} {s : State Lines}
    {μ : Memory} (h : Ready A p.signature returns slots d s μ) {e : Typed.Expr} {t : Ty}
    (he : e.Fills p.signature slots t) :
    ∃ r d', genValue p d.b e = .ok (r, d'.b) ∧ Grows p.signature returns d d' ∧
      d'.Has p.signature returns r ∧ r.ty = t ∧
      (d'.b.Extends A.builder → Follows m limits s (evalExpr calls e μ).value
        (Valued A p.signature returns slots d d' r t s)) := by
  obtain ⟨hw, rfl, hn⟩ := he
  obtain ⟨r, d', hr, hg, hhas, hrty, hf⟩ :=
    operand_follows hc hw hn (genExpr_follows hc hw) h.sound h.isOpen h.knows
  exact ⟨r, d', hr, hg, hhas, hrty, hf h⟩

theorem declare_follows (hc : Callable A m limits p calls room) {d : Draft} {s : State Lines}
    {μ : Memory} (h : Ready A p.signature returns slots d s μ) (exit : Option Nat) {slot : Slot}
    {init : Option Typed.Expr} {inSwitch : Bool}
    (hw : (Typed.Stmt.declare slot init).WellTyped p.signature slots returns inSwitch)
    {b' : Builder} (hrun : declare p d.b slot init = .ok b') (hb : b'.Extends A.builder) :
    Follows m limits s (evalDeclare calls slots slot init μ) (Ended A m limits exit b') := by
  obtain ⟨t, hslot, hn, hinit⟩ := hw
  have hplace : Typed.placeTy? p.signature slots (.slot slot) = some t := hslot
  cases init with
  | some e =>
    obtain ⟨r, d1, hr, hg, -, -, hf⟩ := h.fills hc (hinit e rfl)
    simp only [declare, hr, Except.ok.injEq] at hrun
    subst hrun
    refine (hf ((Builder.emit_extends hg.isOpen.2 _).trans hb)).andThen ?_
    rintro ⟨v, μ1⟩ s1 hv
    obtain ⟨old, hold, -⟩ := hv.ready.place hplace
    obtain ⟨s2, hs2, hst2, -⟩ :=
      store_stands limits hc.code hv.ready.stands hold hv.holds hb 0
    exact .done hs2 ⟨hst2, (Builder.isClosed_emit _ _).trans hg.isOpen.2⟩
  | none =>
    obtain ⟨l, hl, rfl⟩ : ∃ l, d.b.locals[slot]? = some l ∧ l.ty = t := by
      simpa using h.knows.local hslot
    obtain ⟨z, hz⟩ := Scalar.zero?_isSome hn
    have hzero : slots[slot]?.bind Scalar.zero? = some z := by rw [hslot]; exact hz
    obtain ⟨old, hold, -⟩ := h.place hplace
    simp only [declare, hl, zero, hz, Except.ok.injEq] at hrun
    subst hrun
    have hopen : (d.b.constant z).2.isClosed = false :=
      (Builder.isClosed_emit _ _).trans h.isOpen.2
    obtain ⟨s1, hs1, hg1⟩ := constant_given limits hc.code h.stands
      ((Builder.emit_extends hopen _).trans hb)
    obtain ⟨s2, hs2, hst2, -⟩ := store_stands limits hc.code hg1.stands hold hg1.holds hb 0
    rw [evalDeclare, hzero]
    exact .done (hs1.trans hs2) ⟨hst2, (Builder.isClosed_emit _ _).trans hopen⟩

theorem return_follows (hc : Callable A m limits p calls room) {d : Draft} {s : State Lines}
    {μ : Memory} (h : Ready A p.signature returns slots d s μ) (exit : Option Nat)
    {value : Option Typed.Expr} {inSwitch : Bool}
    (hw : (Typed.Stmt.ret value).WellTyped p.signature slots returns inSwitch)
    {b' : Builder} (hrun : leaveFunction p d.b value = .ok b') (hb : b'.Extends A.builder) :
    Follows m limits s (evalReturn calls value μ) (Ended A m limits exit b') := by
  cases value with
  | none =>
    cases hrun
    exact .done .refl (h.stands.returns hc.code hb fun _ _ => rfl)
  | some e =>
    obtain ⟨r, d1, hr, hg, -, -, hf⟩ :=
      h.fills hc (show e.Fills p.signature slots returns from hw)
    simp only [leaveFunction, hr, Except.ok.injEq] at hrun
    subst hrun
    refine (hf ((Builder.close_extends hg.isOpen.2 _).trans hb)).andThen ?_
    rintro ⟨v, μ1⟩ s1 hv
    exact .done .refl (hv.ready.stands.returns hc.code hb hv.holds.read?)

theorem evalSwitch_follows {cases : List Typed.Case} {run : Nat → Memory →
    Typed.Answer (Flow × Memory)} {s : State Lines} {μ : Memory} {v : Scalar} {n : Int}
    (hn : v.toInt? = some n) {behind : Nat} {Q : Flow × Memory → State Lines → Prop}
    (hrun : ∀ i, i ≤ cases.length → (chosen? n cases).getD cases.length = i →
      Follows m limits s (run i μ) (CasesEnded A m limits behind))
    (hskip : run cases.length μ = .done (.normal, μ))
    (hq : ∀ r s', CasesEnded A m limits behind r s' → Q (r.1.behindSwitch, r.2) s') :
    Follows m limits s (evalSwitch cases run v μ) Q := by
  rw [evalSwitch, hn]
  dsimp only
  cases hchosen : chosen? n cases with
  | none =>
    have hf := hrun _ (Nat.le_refl _) (by rw [hchosen]; rfl)
    rw [hskip] at hf
    refine hf.andThen (f := fun r => .done (r.1.behindSwitch, r.2)) ?_
    intro r s' hr
    exact .done .refl (hq r s' hr)
  | some i =>
    have hf := hrun i (Nat.le_of_lt (Typed.chosen?_lt hchosen)) (by rw [hchosen]; rfl)
    refine hf.andThen ?_
    rintro ⟨flow, μ'⟩ s' hr
    exact .done .refl (hq (flow, μ') s' hr)

theorem evalCases_skip (cases : List Typed.Case) (μ : Memory) :
    evalCases calls slots cases cases.length μ = .done (.normal, μ) := by
  induction cases with
  | nil => rfl
  | cons c cs ih =>
    obtain ⟨l, body⟩ := c
    exact ih

mutual

theorem genStmt_follows (hc : Callable A m limits p calls room) : ∀ (st : Typed.Stmt)
    {switches : Switches} {inSwitch : Bool} {d : Draft} {s : State Lines} {μ : Memory}
    {b' : Builder},
    st.WellTyped p.signature slots returns inSwitch → Exits switches inSwitch d →
    Ready A p.signature returns slots d s μ → genStmt p switches d.b st = .ok b' →
    b'.Extends A.builder →
    Follows m limits s (evalStmt calls slots st μ) (Ended A m limits switches.exit? b')
  | .block body, switches, inSwitch, d, s, μ, b', hw, hx, h, hrun, hb => by
    rw [genStmt, reopen_open h.isOpen.2] at hrun
    exact genList_follows hc body hw hx h hrun hb
  | .declare slot init, switches, inSwitch, d, s, μ, b', hw, _, h, hrun, hb => by
    rw [genStmt, reopen_open h.isOpen.2] at hrun
    exact declare_follows hc h switches.exit? hw hrun hb
  | .expr e, switches, inSwitch, d, s, μ, b', hw, _, h, hrun, hb => by
    have hw : e.WellTyped p.signature slots := hw
    obtain ⟨r, d1, hr, hg, -⟩ := genExpr_grows rfl hw h.sound h.isOpen h.knows
    rw [genStmt, reopen_open h.isOpen.2, hr] at hrun
    cases hrun
    refine (genExpr_follows hc hw h hr hb).andThen ?_
    intro x s' hx
    exact .done .refl ⟨hx.stands, hg.isOpen.2⟩
  | .switch scrutinee compare cases, switches, inSwitch, d, s, μ, b', hw, _, h, hrun, hb => by
    obtain ⟨hscr, hi, hlabels, hcases⟩ := hw
    obtain ⟨r, d1, hval, hg, hhas, hrty, hf⟩ := h.fills hc hscr
    have hs1 := hg.makes.sound h.sound
    have hk1 := h.knows.mono hg.makes
    -- the blocks of the switch, and its cases in them
    obtain ⟨d2, hopen, h2⟩ :=
      openSwitch_switched hs1 hg.isOpen hhas (by rw [hrty]; exact hi) hlabels.distinct
    have hs2 := h2.makes.sound hs1
    have hk2 := hk1.mono h2.makes
    have hwait := h2.awaits hs1
    obtain ⟨d3, hfill, h3⟩ := genCases_filled rfl cases switches d1.b.blocks.length 0
      cases.length True (Nat.zero_add _) hcases hs2 hk2 hwait fun _ _ _ _ _ => trivial
    obtain ⟨hlt, hfresh⟩ := h3.behind hwait (Nat.zero_le _)
    rw [genStmt, reopen_open h.isOpen.2, hval] at hrun
    simp only [hopen, hfill, Except.ok.injEq] at hrun
    subst hrun
    have hb3 : d3.b.Extends A.builder := (Builder.goto_extends _ _).trans hb
    have hb2 := h3.makes.extends.trans hb3
    refine (hf (h2.makes.extends.trans hb2)).andThen ?_
    rintro ⟨v, μ1⟩ s1 hv
    obtain ⟨n, hn⟩ :=
      Scalar.toInt?_isSome (x := v) (by rw [show v.ty = compare from hv.ty]; exact hi)
    obtain ⟨s2, hs2', hat⟩ := openSwitch_enters limits hc.code hv.ready.stands hv.holds hn
      (by rw [hopen]; exact hb2)
    refine .of_steps hs2' ?_
    have hrun : ∀ i, i ≤ cases.length → (chosen? n cases).getD cases.length = i →
        Follows m limits s2 (evalCases calls slots cases i μ1)
          (CasesEnded A m limits (d1.b.blocks.length + cases.length)) := by
      intro i hi he
      rw [he] at hat
      exact genCases_follows hc cases switches _ 0 _ i (Nat.zero_add _) hi hcases hs2 hk2 hwait
        hv.ready.typed hat hfill hb3
    refine evalSwitch_follows hn hrun (evalCases_skip cases μ1) ?_
    rintro ⟨flow, μ'⟩ s' hr
    have hs3 := h3.makes.sound hs2
    have hbehind : At A (d1.b.blocks.length + cases.length) 0 s' μ' →
        Ended A m limits switches.exit? (d3.b.goto (d1.b.blocks.length + cases.length))
          (.normal, μ') s' := fun hat =>
      ⟨At.goto hs3 hlt hfresh hat, (hs3.goto_open hlt hfresh []).2⟩
    cases flow with
    | normal => exact hbehind hr
    | leave => exact hbehind hr
    | ret v => exact hr
  | .leave, switches, inSwitch, d, s, μ, b', hw, hx, h, hrun, hb => by
    obtain ⟨k, hexit⟩ := hx.known hw
    rw [genStmt, hexit, reopen_open h.isOpen.2] at hrun
    cases hrun
    obtain ⟨s1, hs1, hat, -⟩ := h.stands.goes limits hc.code rfl hb
      (List.mem_singleton.mpr rfl) fun _ _ => rfl
    exact .done (.single hs1) ⟨k, hexit, hat⟩
  | .ret value, switches, inSwitch, d, s, μ, b', hw, _, h, hrun, hb => by
    rw [genStmt, reopen_open h.isOpen.2] at hrun
    exact return_follows hc h switches.exit? hw hrun hb

theorem genList_follows (hc : Callable A m limits p calls room) : ∀ (ss : List Typed.Stmt)
    {switches : Switches} {inSwitch : Bool} {d : Draft} {s : State Lines} {μ : Memory}
    {b' : Builder},
    ListWellTyped p.signature slots returns inSwitch ss → Exits switches inSwitch d →
    Ready A p.signature returns slots d s μ → genList p switches d.b ss = .ok b' →
    b'.Extends A.builder →
    Follows m limits s (evalList calls slots ss μ) (Ended A m limits switches.exit? b')
  | [], switches, inSwitch, d, s, μ, b', _, _, h, hrun, _ => by
    cases hrun
    exact .done .refl ⟨h.stands, h.isOpen.2⟩
  | st :: ss, switches, inSwitch, d, s, μ, b', hw, hx, h, hrun, hb => by
    obtain ⟨d1, hrun1, h1⟩ := genStmt_passes rfl st hw.1 h.sound h.knows hx
    have hs1 := h1.makes.sound h.sound
    have hk1 := h.knows.mono h1.makes
    obtain ⟨d2, hrun2, h2⟩ := genList_passes rfl ss hw.2 hs1 hk1 (hx.mono h1.toAdds)
    simp only [genList, hrun1, hrun2, Except.ok.injEq] at hrun
    subst hrun
    have hf := genStmt_follows hc st hw.1 hx h hrun1 (h2.makes.extends.trans hb)
    refine (hf.safe (Typed.evalStmt_safe hc.safe st hw.1 h.typed)).andThen ?_
    rintro ⟨flow, μ1⟩ s1 ⟨⟨-, hμ1⟩, hend⟩
    cases flow with
    | normal =>
      obtain ⟨hst1, hopen1⟩ := hend
      exact genList_follows hc ss hw.2 (hx.mono h1.toAdds)
        ⟨hs1, ⟨hs1.entered _ hs1.current, hopen1⟩, hk1, hst1, hμ1⟩ hrun2 hb
    | leave => exact .done .refl hend
    | ret v => exact .done .refl hend

theorem genCases_follows (hc : Callable A m limits p calls room) : ∀ (cases : List Typed.Case)
    (switches : Switches) (first i n skip : Nat) {d : Draft} {s : State Lines} {μ : Memory}
    {b' : Builder}, i + cases.length = n → skip ≤ cases.length →
    CasesWellTyped p.signature slots returns cases → d.Sound p.signature returns →
    d.Knows slots → Awaits first i n d → μ.Fits p.signature slots →
    At A (first + i + skip) 0 s μ →
    genCases p (switches.push (.consecutive first n)) (.consecutive first n) i d.b cases =
      .ok b' → b'.Extends A.builder →
    Follows m limits s (evalCases calls slots cases skip μ)
      (CasesEnded A m limits (first + n))
  | [], switches, first, i, n, skip, d, s, μ, b', hn, hskip, _, _, _, _, _, hat, _, _ => by
    obtain rfl : skip = 0 := Nat.le_zero.mp hskip
    obtain rfl : i = n := hn
    exact .done .refl hat
  | .mk l body :: cs, switches, first, i, n, skip, d, s, μ, b', hn, hskip, hw, hs, hk, hwait, hμ,
      hat, hrun, hb => by
    simp only [List.length_cons] at hn hskip
    have hi : i < n := by omega
    have hroom := hwait.room
    -- the code of the case and that of the cases behind it
    have hop : Op p.signature returns d (d.goto (first + i) []) := hwait.enter hi
    have hs0 := hop.sound hs
    have hx0 := hwait.exits hi switches
    obtain ⟨d1, hbody, h1⟩ := genList_passes rfl body hw.1 hs0 (hk.mono hop.makes) hx0
    have hs1 := h1.makes.sound hs0
    have h2 := hwait.fallThrough h1.toAdds hi hs1
    have hs2 := h2.makes.sound hs1
    have hk2 := ((hk.mono hop.makes).mono h1.makes).mono h2.makes
    have hwait2 := hwait.next h1.toAdds hs1
    rw [genCases, OpenSwitch.caseBlock_consecutive (by omega),
      show d.b.goto (first + i) = (d.goto (first + i) []).b from rfl, hbody] at hrun
    simp only [OpenSwitch.fallThrough_eq, OpenSwitch.caseBlock_consecutive
      (show i + 1 ≤ n by omega), ← fallThrough_b] at hrun
    cases skip with
    | succ skip =>
      exact genCases_follows hc cs switches first (i + 1) n skip (by omega) (by omega) hw.2 hs2 hk2
        hwait2 hμ (by rwa [show first + (i + 1) + skip = first + i + (skip + 1) by omega]) hrun hb
    | zero =>
      obtain ⟨d3, hrest, h3⟩ := genCases_filled rfl cs switches first (i + 1) n True (by omega)
        hw.2 hs2 hk2 hwait2 fun _ _ _ _ _ => trivial
      obtain rfl : d3.b = b' := by
        rw [hrest] at hrun
        exact Except.ok.inj hrun
      have hb2 := h3.makes.extends.trans hb
      have hst0 : Stands A (d.goto (first + i) []).b s μ :=
        At.goto hs (by omega) (hwait.fresh _ (Nat.le_refl _) (by omega)) hat
      have hready : Ready A p.signature returns slots (d.goto (first + i) []) s μ :=
        ⟨hs0, hs.goto_open (by omega) (hwait.fresh _ (Nat.le_refl _) (by omega)) [],
          hk.mono hop.makes, hst0, hμ⟩
      have hf := genList_follows hc body hw.1 hx0 hready hbody (h2.makes.extends.trans hb2)
      refine (hf.safe (Typed.evalList_safe hc.safe body hw.1 hμ)).andThen ?_
      rintro ⟨flow, μ1⟩ s1 ⟨⟨-, hμ1⟩, hend⟩
      cases flow with
      | normal =>
        obtain ⟨hst1, hopen1⟩ := hend
        rw [fallThrough_b, hopen1] at hb2
        obtain ⟨s2, hs2', hat2, -⟩ := hst1.goes limits hc.code rfl hb2
          (List.mem_singleton.mpr rfl) fun _ _ => rfl
        exact (genCases_follows hc cs switches first (i + 1) n 0 (by omega) (Nat.zero_le _) hw.2 hs2
          hk2 hwait2 hμ1 hat2 hrest hb).of_steps (.single hs2')
      | leave =>
        obtain ⟨k, hexit, hat1⟩ := hend
        obtain rfl : first + n = k := by simpa [Switches.exit?, Switches.push,
          Switches.innermost?, OpenSwitch.consecutive] using hexit
        exact .done .refl hat1
      | ret v => exact .done .refl hend

end

end Cascade.Simulation
