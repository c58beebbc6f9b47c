import Cascade.Proofs.Codegen.Order
import Cascade.Proofs.Codegen.Plain
import Cascade.Proofs.Codegen.Sealed
import Cascade.Proofs.Simulation.Constant
import Cascade.Proofs.Simulation.Expr

/-!
# Cascade.Proofs.Simulation.Narrowing

Conversions between integral types in the code of a program. Each of them widens, or it stands
right behind the code of a constant that fits.

* `Stretch`: the code of a constant, which control gets into only at its start; `Careful`: what is
  shown of all conversions in a builder.
* `genExpr_keeps`, `genStmt_keeps`: code for a tree is careful if what stands before it is.
* `lowerProgram_madeWith`: the functions of a program.
-/

namespace Cascade.Simulation

open Code Machine Codegen
open Typed (ListWellTyped CasesWellTyped)

/-- The code of a constant in a function that is finished with the last builder. -/
structure Stretch (b₁ b₂ last : Builder) (r : Register) (v : Scalar) : Prop where
  computes : Computes b₁ b₂ r v
  isOpen : b₁.Open
  inRange : ∀ {k : BlockId} {blk : Block}, b₁.blocks[k]? = some blk →
    ∀ l ∈ blk.term.targets, l < b₁.blocks.length
  seals : b₂.Seals last

/-- A conversion at a place of the last builder widens, or its operand is a constant that fits and
that was computed right before it. -/
def Justified (last : Builder) (k n : Nat) (d r : Register) : Prop :=
  r.ty.widensTo d.ty = true ∨ ∃ b₁ b₂ v blk, Stretch b₁ b₂ last r v ∧ v.fits d.ty = true ∧
    k = b₂.current ∧ b₂.blocks[b₂.current]? = some blk ∧ n = blk.code.length

/-- All conversions between integral types in a builder are justified, as seen from the last one. -/
def Careful (last b : Builder) : Prop :=
  ∀ {k n : Nat} {blk : Block} {d r : Register}, b.blocks[k]? = some blk →
    blk.code[n]? = some (.convert d r) → r.ty.isIntegral = true → d.ty.isIntegral = true →
    Justified last k n d r

structure KeepsCareful (b b' : Builder) : Prop where
  careful : ∀ {last : Builder}, b'.Seals last → Careful last b → Careful last b'

namespace KeepsCareful

variable {b b' b'' : Builder}

theorem plain (h : b.Plain b') : KeepsCareful b b' where
  careful := fun _ hc _ _ _ _ _ hk hn =>
    have ⟨_, hk', hn'⟩ := h.old hk hn
    hc hk' hn'

theorem trans (h : KeepsCareful b b') (hs : b'.Seals b'') (h' : KeepsCareful b' b'') :
    KeepsCareful b b'' where
  careful := fun hl hc => h'.careful hl (h.careful (hs.trans hl) hc)

theorem thenPlain (h : KeepsCareful b b') (hs : b'.Seals b'') (h' : b'.Plain b'') :
    KeepsCareful b b'' :=
  h.trans hs (plain h')

theorem convert (hopen : b.isClosed = false) {ty : Ty} {r : Register}
    (h : ∀ {last : Builder}, b.Seals last → ∀ {blk : Block}, b.blocks[b.current]? = some blk →
      r.ty.isIntegral = true → ty.isIntegral = true →
      Justified last b.current blk.code.length ⟨b.registers, ty⟩ r) :
    KeepsCareful b (Codegen.convert b r ty).2 := by
  unfold Codegen.convert
  split
  · exact plain (.refl b)
  · refine ⟨fun {last} hl hc k n blk d r' hk hn hr hd => ?_⟩
    obtain ⟨-, hk⟩ | ⟨rfl, c, hcur, rfl⟩ := Builder.modify_blocks hk
    · exact hc hk hn hr hd
    · obtain hlt | hge := Nat.lt_or_ge n c.code.length
      · rw [show (c.emit _).code[n]? = c.code[n]? from List.getElem?_append_left hlt] at hn
        exact hc hcur hn hr hd
      · rw [show (c.emit _).code[n]? = _ from List.getElem?_append_right hge] at hn
        obtain ⟨hlt, he⟩ := List.getElem?_eq_some_iff.mp hn
        rw [List.length_singleton] at hlt
        obtain rfl : n = c.code.length := by omega
        simp only [Nat.sub_self, List.getElem_cons_zero, Builder.newRegister, Instr.convert.injEq]
          at he
        obtain ⟨rfl, rfl⟩ := he
        exact h ((Builder.write_seals hopen _ _).trans hl) hcur hr hd

end KeepsCareful

/-! ## Expressions -/

variable {g : Signature} {returns : Ty} {slots : List Ty} {d d' : Draft} {p : Typed.Program}

/-- The code of an expression whose value may be converted to a type justifies the conversion. -/
theorem converts_justified {e : Typed.Expr} (he : e.WellTyped g slots) {ty : Ty}
    (hc : e.Converts ty) (hs : d.Sound g returns) (ho : d.Open) {r : Register} {b' : Builder}
    (hrun : genValue p d.b e = .ok (r, b')) (hty : r.ty = e.ty) {last : Builder}
    (hl : b'.Seals last) {blk : Block} (hblk : b'.blocks[b'.current]? = some blk) (k : Nat) :
    Justified last b'.current blk.code.length ⟨k, ty⟩ r := by
  obtain ⟨-, hwide | ⟨-, -, v, hv, hfits⟩⟩ := hc
  · exact .inl (hty ▸ hwide)
  · obtain ⟨r', b'', hrun', hcomp⟩ := genExpr_computes p he hv (b := d.b) ho
    simp only [genValue, needValue, hrun', Except.ok.injEq, Prod.mk.injEq] at hrun
    obtain ⟨rfl, rfl⟩ := hrun
    exact .inr ⟨d.b, _, v, blk, ⟨hcomp, ho, fun hb => hs.targets_lt hb, hl⟩, hfits, rfl, hblk, rfl⟩

theorem genExpr_keeps (hp : p.signature = g) {e : Typed.Expr} (he : e.WellTyped g slots) :
    ∀ {d : Draft}, d.Sound g returns → d.Open → d.Knows slots →
      ∀ {rb : Option Register × Builder}, genExpr p d.b e = .ok rb → KeepsCareful d.b rb.2 := by
  induction he with
  | const =>
    intro d _ _ _ rb hrun
    cases hrun
    exact .plain ((Builder.Plain.refl _).constant _)
  | load =>
    intro d _ _ _ rb hrun
    cases hrun
    exact .plain ((Builder.Plain.refl _).load _ _)
  | @convert e ty span he hc ih =>
    intro d hs ho hk rb hrun
    obtain ⟨r, d1, hr, hg, -, hty⟩ := genValue_gives hc.isNumeric.1 (genExpr_grows hp he hs ho hk)
    have h1 := ih hs ho hk (genValue_some hr)
    simp only [genExpr, show needValue e.span (genExpr p d.b e) = _ from hr] at hrun
    cases hrun
    refine h1.trans ?_ (.convert hg.isOpen.2 fun hl _ hblk _ _ =>
      converts_justified he hc hs ho hr hty hl hblk _)
    unfold convert
    split
    · exact .refl _
    · exact Builder.write_seals hg.isOpen.2 _ _
  | @unary op e span he hn ih =>
    intro d hs ho hk rb hrun
    obtain ⟨r, d1, hr, hg, -, -⟩ := genValue_gives hn (genExpr_grows hp he hs ho hk)
    have h1 := ih hs ho hk (genValue_some hr)
    simp only [genExpr, show needValue e.span (genExpr p d.b e) = _ from hr] at hrun
    cases hrun
    exact h1.thenPlain (Builder.write_seals hg.isOpen.2 _ _) ((Builder.Plain.refl _).write _ rfl)
  | @binary op l r span hl hr hlr hn ihl ihr =>
    intro d hs ho hk rb hrun
    obtain ⟨rl, d1, hrl, hg1, -, -⟩ := genValue_gives hn (genExpr_grows hp hl hs ho hk)
    have hs1 := hg1.makes.sound hs
    have hk1 := hk.mono hg1.makes
    obtain ⟨rr, d2, hrr, hg2, -, -⟩ :=
      genValue_gives (hlr ▸ hn) (genExpr_grows hp hr hs1 hg1.isOpen hk1)
    have h12 := (ihl hs ho hk (genValue_some hrl)).trans (hg2.makes.seals hs1)
      (ihr hs1 hg1.isOpen hk1 (genValue_some hrr))
    simp only [genExpr, show needValue l.span (genExpr p d.b l) = _ from hrl,
      show needValue r.span (genExpr p d1.b r) = _ from hrr] at hrun
    cases hrun
    exact h12.thenPlain (Builder.write_seals hg2.isOpen.2 _ _) ((Builder.Plain.refl _).write _ rfl)
  | @logical op l r span hl hr hnl hnr ihl ihr =>
    intro d hs ho hk rb hrun
    have hg0 : Grows g returns d (d.newLocal .truth) := grows_newLocal ho rfl
    have hs0 := hg0.makes.sound hs
    have hk0 := hk.mono hg0.makes
    have hresult : ((d.newLocal .truth).scheme g returns).locals[d.b.locals.length]? =
        some .truth := by
      simp [Draft.scheme, Draft.newLocal, Builder.newLocal]
    obtain ⟨rl, d1, hrl, hg1, hhas, -⟩ :=
      genValue_gives hnl (genExpr_grows hp hl hs0 hg0.isOpen hk0)
    have hs1 := hg1.makes.sound hs0
    have hk1 := hk0.mono hg1.makes
    have hresult1 := hg1.makes.scheme.local hresult
    have hb := right_branched op hs1 hg1.isOpen hhas hresult1
    have hs2 := hb.makes.sound hs1
    have hk2 := hk1.mono hb.makes
    obtain ⟨rr, d2, hrr, hg2, hhasr, hty⟩ :=
      genValue_gives hnr (genExpr_grows hp hr hs2 hb.isOpen hk2)
    have hopened : (d1.b.Plain (d1.right op d.b.locals.length rl).b) := by
      have h := (Builder.Plain.refl d1.b).openLogical op d.b.locals.length rl
      rwa [openLogical_eq] at h
    have h12 := (((KeepsCareful.plain ((Builder.Plain.refl d.b).newLocal .truth)).trans
      (hg1.makes.seals hs0) (ihl hs0 hg0.isOpen hk0 (genValue_some hrl))).thenPlain
        (hb.makes.seals hs1) hopened).trans (hg2.makes.seals hs2)
          (ihr hs2 hb.isOpen hk2 (genValue_some hrr))
    obtain ⟨rb', hclose, hseals⟩ := closeLogical_seals hs1 hb hg2 hhasr (hty ▸ hnr) hresult1 r.span
    simp only [genExpr, show needValue l.span (genExpr p (d.b.newLocal .truth).2 l) = _ from hrl,
      show (d.b.newLocal .truth).1 = d.b.locals.length from rfl, openLogical_eq,
      show needValue r.span (genExpr p (d1.right op d.b.locals.length rl).b r) = _ from hrr,
      hclose] at hrun
    cases hrun
    exact h12.thenPlain hseals ((Builder.Plain.refl _).closeLogical hclose)
  | update =>
    intro d _ _ _ rb hrun
    rw [genExpr] at hrun
    split at hrun
    · cases hrun
    · rename_i hstep
      cases hrun
      exact .plain ((Builder.Plain.refl _).step hstep)
  | @assign place e span hplace he hn ih =>
    intro d hs ho hk rb hrun
    obtain ⟨r, d1, hr, hg, hhas, hty⟩ := genValue_gives hn (genExpr_grows hp he hs ho hk)
    obtain ⟨d2, hstore, hg2⟩ := store_grows hg.isOpen (hk.mono hg.makes) hhas (hty.symm ▸ hplace)
    have h1 := ih hs ho hk (genValue_some hr)
    simp only [genExpr, show needValue e.span (genExpr p d.b e) = _ from hr] at hrun
    cases hrun
    exact h1.thenPlain (hstore ▸ hg2.makes.seals (hg.makes.sound hs))
      ((Builder.Plain.refl _).store _ _)
  | call =>
    intro d _ _ _ rb hrun
    exact .plain ((Builder.Plain.refl _).call hrun)
  | @print e span he hn ih =>
    intro d hs ho hk rb hrun
    obtain ⟨r, d1, hr, hg, -, -⟩ := genValue_gives hn (genExpr_grows hp he hs ho hk)
    have h1 := ih hs ho hk (genValue_some hr)
    simp only [genExpr, show needValue e.span (genExpr p d.b e) = _ from hr] at hrun
    cases hrun
    exact h1.thenPlain (Builder.emit_seals hg.isOpen.2 _) ((Builder.Plain.refl _).emit rfl)
  | printBlank =>
    intro d _ _ _ rb hrun
    cases hrun
    exact .plain ((Builder.Plain.refl _).emit rfl)

/-! ## Statements -/

theorem genValue_keeps (hp : p.signature = g) {e : Typed.Expr} {t : Ty} (he : e.Fills g slots t)
    (hs : d.Sound g returns) (ho : d.Open) (hk : d.Knows slots) :
    ∃ r d', genValue p d.b e = .ok (r, d'.b) ∧ Grows g returns d d' ∧ d'.Has g returns r ∧
      r.ty = t ∧ KeepsCareful d.b d'.b := by
  obtain ⟨hw, rfl, hn⟩ := he
  obtain ⟨r, d', hr, hg, hhas, hty⟩ := genValue_gives hn (genExpr_grows hp hw hs ho hk)
  exact ⟨r, d', hr, hg, hhas, hty, genExpr_keeps hp hw hs ho hk (genValue_some hr)⟩

theorem declare_keeps (hp : p.signature = g) (hs : d.Sound g returns) (ho : d.Open)
    (hk : d.Knows slots) {slot : Slot} {init : Option Typed.Expr} {inSwitch : Bool}
    (hw : (Typed.Stmt.declare slot init).WellTyped g slots returns inSwitch) {b' : Builder}
    (hrun : declare p d.b slot init = .ok b') : KeepsCareful d.b b' := by
  obtain ⟨t, -, -, hinit⟩ := hw
  cases init with
  | some e =>
    obtain ⟨r, d1, hr, hg, -, -, h1⟩ := genValue_keeps hp (hinit e rfl) hs ho hk
    simp only [declare, hr] at hrun
    cases hrun
    exact h1.thenPlain (Builder.emit_seals hg.isOpen.2 _) ((Builder.Plain.refl _).emit rfl)
  | none =>
    rw [declare] at hrun
    split at hrun
    · cases hrun
    split at hrun
    · cases hrun
    · rename_i hz
      cases hrun
      exact .plain (((Builder.Plain.refl _).zero hz).emit rfl)

theorem leaveFunction_keeps (hp : p.signature = g) (hs : d.Sound g returns) (ho : d.Open)
    (hk : d.Knows slots) {value : Option Typed.Expr} {inSwitch : Bool}
    (hw : (Typed.Stmt.ret value).WellTyped g slots returns inSwitch) {b' : Builder}
    (hrun : leaveFunction p d.b value = .ok b') : KeepsCareful d.b b' := by
  cases value with
  | none =>
    cases hrun
    exact .plain ((Builder.Plain.refl _).close _)
  | some e =>
    obtain ⟨r, d1, hr, hg, -, -, h1⟩ :=
      genValue_keeps hp (show e.Fills g slots returns from hw) hs ho hk
    simp only [leaveFunction, hr] at hrun
    cases hrun
    exact h1.thenPlain (Draft.close_seals (hg.makes.sound hs) hg.isOpen.2 fun k hk =>
      absurd hk List.not_mem_nil) ((Builder.Plain.refl _).close _)

theorem reopen_keeps (hs : d.Sound g returns) (hk : d.Knows slots) (exit : Option Nat) :
    ∃ d', reopen d.b = d'.b ∧ Passes g returns exit true false d d' ∧ d'.Open ∧
      d'.Sound g returns ∧ d'.Knows slots ∧ KeepsCareful d.b d'.b := by
  obtain ⟨d', hb, h, ho⟩ := reopen_passes hs exit
  exact ⟨d', hb, h, ho, h.makes.sound hs, hk.mono h.makes,
    hb ▸ .plain (Builder.Plain.refl _).reopen⟩

mutual

theorem genStmt_keeps (hp : p.signature = g) : ∀ (s : Typed.Stmt) {switches : Switches}
    {inSwitch : Bool} {d : Draft} {b' : Builder}, s.WellTyped g slots returns inSwitch →
    d.Sound g returns → d.Knows slots → Exits switches inSwitch d →
    genStmt p switches d.b s = .ok b' → KeepsCareful d.b b'
  | .block body, switches, inSwitch, d, b', hw, hs, hk, hx, hrun => by
    obtain ⟨d1, hb1, h1, -, hs1, hk1, hr⟩ := reopen_keeps hs hk switches.exit?
    have hx1 := hx.mono h1.toAdds
    obtain ⟨d2, hrun2, h2⟩ := genList_passes hp body hw hs1 hk1 hx1
    rw [genStmt, hb1, hrun2] at hrun
    cases hrun
    exact hr.trans (h2.makes.seals hs1) (genList_keeps hp body hw hs1 hk1 hx1 hrun2)
  | .declare slot init, switches, inSwitch, d, b', hw, hs, hk, _, hrun => by
    obtain ⟨d1, hb1, h1, ho1, hs1, hk1, hr⟩ := reopen_keeps hs hk switches.exit?
    obtain ⟨d2, hrun2, h2⟩ := declare_grows hp hs1 ho1 hk1 hw
    rw [genStmt, hb1, hrun2] at hrun
    cases hrun
    exact hr.trans (h2.makes.seals hs1) (declare_keeps hp hs1 ho1 hk1 hw hrun2)
  | .expr e, switches, inSwitch, d, b', hw, hs, hk, _, hrun => by
    have hw : e.WellTyped g slots := hw
    obtain ⟨d1, hb1, h1, ho1, hs1, hk1, hr⟩ := reopen_keeps hs hk switches.exit?
    obtain ⟨r, d2, hrun2, h2, -⟩ := genExpr_grows hp hw hs1 ho1 hk1
    rw [genStmt, hb1, hrun2] at hrun
    cases hrun
    exact hr.trans (h2.makes.seals hs1) (genExpr_keeps hp hw hs1 ho1 hk1 hrun2)
  | .switch scrutinee compare cases, switches, inSwitch, d, b', hw, hs, hk, _, hrun => by
    obtain ⟨hscr, hi, hlabels, hcases⟩ := hw
    obtain ⟨d0, hb0, h0, ho0, hs0, hk0, hr⟩ := reopen_keeps hs hk switches.exit?
    obtain ⟨r, d1, hval, hg, hhas, hrty, h1⟩ := genValue_keeps hp hscr hs0 ho0 hk0
    have hs1 := hg.makes.sound hs0
    have hk1 := hk0.mono hg.makes
    obtain ⟨d2, hopen, h2⟩ :=
      openSwitch_switched hs1 hg.isOpen hhas (by rw [hrty]; exact hi) hlabels.distinct
    have hs2 := h2.makes.sound hs1
    have hk2 := hk1.mono h2.makes
    have hwait := h2.awaits hs1
    obtain ⟨d3, hfill, h3⟩ := genCases_filled hp cases switches d1.b.blocks.length 0 cases.length
      True (Nat.zero_add _) hcases hs2 hk2 hwait fun _ _ _ _ _ => trivial
    have hs3 := h3.makes.sound hs2
    obtain ⟨hlt, hfresh⟩ := h3.behind hwait (Nat.zero_le _)
    have hop : Op g returns d3 (d3.goto (d1.b.blocks.length + cases.length) []) :=
      .goto h3.closed hlt hfresh fun u _ => List.nil_subset u
    have hplain : d1.b.Plain d2.b := by
      have h := (Builder.Plain.refl d1.b).openSwitch r cases
      rwa [hopen] at h
    have h12 := (hr.trans (hg.makes.seals hs0) h1).thenPlain (h2.makes.seals hs1) hplain
    have h13 := h12.trans (h3.makes.seals hs2)
      (genCases_keeps hp cases switches _ 0 _ (Nat.zero_add _) hcases hs2 hk2 hwait hfill)
    rw [genStmt, hb0, hval] at hrun
    simp only [hopen, hfill] at hrun
    cases hrun
    exact h13.thenPlain (hop.seals hs3) ((Builder.Plain.refl _).goto _)
  | .leave, switches, inSwitch, d, b', _, _, _, _, hrun => by
    rw [genStmt] at hrun
    split at hrun
    · cases hrun
    · cases hrun
      exact .plain ((Builder.Plain.refl _).reopen.close _)
  | .ret value, switches, inSwitch, d, b', hw, hs, hk, _, hrun => by
    obtain ⟨d1, hb1, h1, ho1, hs1, hk1, hr⟩ := reopen_keeps hs hk switches.exit?
    obtain ⟨d2, hrun2, h2⟩ := leaveFunction_passes hp hs1 ho1 hk1 switches.exit? hw
    rw [genStmt, hb1, hrun2] at hrun
    cases hrun
    exact hr.trans (h2.makes.seals hs1) (leaveFunction_keeps hp hs1 ho1 hk1 hw hrun2)

theorem genList_keeps (hp : p.signature = g) : ∀ (ss : List Typed.Stmt) {switches : Switches}
    {inSwitch : Bool} {d : Draft} {b' : Builder}, ListWellTyped g slots returns inSwitch ss →
    d.Sound g returns → d.Knows slots → Exits switches inSwitch d →
    genList p switches d.b ss = .ok b' → KeepsCareful d.b b'
  | [], switches, inSwitch, d, b', _, _, _, _, hrun => by
    cases hrun
    exact .plain (.refl _)
  | s :: ss, switches, inSwitch, d, b', hw, hs, hk, hx, hrun => by
    obtain ⟨d1, hrun1, h1⟩ := genStmt_passes hp s hw.1 hs hk hx
    have hs1 := h1.makes.sound hs
    have hk1 := hk.mono h1.makes
    have hx1 := hx.mono h1.toAdds
    obtain ⟨d2, hrun2, h2⟩ := genList_passes hp ss hw.2 hs1 hk1 hx1
    simp only [genList, hrun1, hrun2] at hrun
    cases hrun
    exact (genStmt_keeps hp s hw.1 hs hk hx hrun1).trans (h2.makes.seals hs1)
      (genList_keeps hp ss hw.2 hs1 hk1 hx1 hrun2)

theorem genCases_keeps (hp : p.signature = g) : ∀ (cases : List Typed.Case) (switches : Switches)
    (first i n : Nat) {d : Draft} {b' : Builder}, i + cases.length = n →
    CasesWellTyped g slots returns cases → d.Sound g returns → d.Knows slots →
    Awaits first i n d →
    genCases p (switches.push (.consecutive first n)) (.consecutive first n) i d.b cases =
      .ok b' → KeepsCareful d.b b'
  | [], switches, first, i, n, d, b', _, _, _, _, _, hrun => by
    cases hrun
    exact .plain (.refl _)
  | .mk label body :: cs, switches, first, i, n, d, b', hn, hw, hs, hk, hwait, hrun => by
    simp only [List.length_cons] at hn
    have hi : i < n := by omega
    have hop : Op g returns d (d.goto (first + i) []) := hwait.enter hi
    have hs0 := hop.sound hs
    have hk0 := hk.mono hop.makes
    have hx0 := hwait.exits hi switches
    obtain ⟨d1, hbody, h1⟩ := genList_passes hp body hw.1 hs0 hk0 hx0
    have hs1 := h1.makes.sound hs0
    have h2 := hwait.fallThrough h1.toAdds hi hs1
    have hs2 := h2.makes.sound hs1
    have hk2 := (hk0.mono h1.makes).mono h2.makes
    have hwait2 := hwait.next h1.toAdds hs1
    obtain ⟨d3, hrest, h3⟩ := genCases_filled hp cs switches first (i + 1) n True (by omega) hw.2
      hs2 hk2 hwait2 fun _ _ _ _ _ => trivial
    have hplain : d1.b.Plain (d1.fallThrough (first + (i + 1))).b := by
      rw [fallThrough_b]
      split
      · exact .refl _
      · exact (Builder.Plain.refl _).close _
    have hgoto : KeepsCareful d.b (d.goto (first + i) []).b :=
      .plain ((Builder.Plain.refl _).goto _)
    have h12 := (hgoto.trans (h1.makes.seals hs0)
      (genList_keeps hp body hw.1 hs0 hk0 hx0 hbody)).thenPlain (h2.makes.seals hs1) hplain
    rw [genCases, OpenSwitch.caseBlock_consecutive (by omega),
      show d.b.goto (first + i) = (d.goto (first + i) []).b from rfl, hbody] at hrun
    simp only [OpenSwitch.fallThrough_eq, OpenSwitch.caseBlock_consecutive
      (show i + 1 ≤ n by omega), ← fallThrough_b, hrest] at hrun
    cases hrun
    exact h12.trans (h3.makes.seals hs2)
      (genCases_keeps hp cs switches first (i + 1) n (by omega) hw.2 hs2 hk2 hwait2 hrest)

end

/-! ## Programs -/

theorem genInits_keeps {p : Typed.Program} (hp : p.signature = g) : ∀ (fs : List Typed.Field)
    {d : Draft} {b' : Builder}, (∀ f ∈ fs, f.WellTyped g) →
    (∀ f ∈ fs, g.fields[f.id]? = some f.ty) → d.Sound g .void → d.Open →
    genInits p d.b fs = .ok b' → KeepsCareful d.b b'
  | [], d, b', _, _, _, _, hrun => by
    cases hrun
    exact .plain (.refl _)
  | f :: fs, d, b', hw, hi, hs, ho, hrun => by
    obtain ⟨hf, hfs⟩ := List.forall_mem_cons.mp hw
    obtain ⟨hid, hids⟩ := List.forall_mem_cons.mp hi
    cases hinit : f.init with
    | none =>
      simp only [genInits, hinit] at hrun
      exact genInits_keeps hp fs hfs hids hs ho hrun
    | some e =>
      obtain ⟨r, d1, hr, hg1, hhas, hrty, h1⟩ := genValue_keeps hp (hf.2 e hinit) hs ho ⟨_, rfl⟩
      have hg2 : Grows g .void d1 (d1.emit (.storeField f.id r)) := grows_emit hg1.isOpen rfl
        (.storeField hhas (hrty ▸ hid))
      have hs1 := hg1.makes.sound hs
      have hs2 := hg2.makes.sound hs1
      obtain ⟨d3, hrest, hg3⟩ := genInits_grows hp fs hfs hids hs2 hg2.isOpen
      have h12 := h1.thenPlain (hg2.makes.seals hs1) ((Builder.Plain.refl _).emit rfl)
      simp only [genInits, hinit, hr] at hrun
      have hrun : genInits p (d1.emit (.storeField f.id r)).b fs = .ok b' := hrun
      obtain rfl : d3.b = b' := Except.ok.inj (hrest.symm.trans hrun)
      exact h12.trans (hg3.makes.seals hs2) (genInits_keeps hp fs hfs hids hs2 hg2.isOpen hrun)

/-- A function is made of all that a builder made, and all conversions in it are justified. -/
structure MadeWith (last : Builder) (f : Function) : Prop where
  entry : f.entry = 0
  whole : last.goto f.entry = wholeOf f
  numbered : ∀ {k : Nat} {blk : Block}, f.blocks[k]? = some blk → blk.id = k
  coherent : f.Coherent
  careful : Careful last last

theorem careful_start (last : Builder) (locals : List Code.Local) :
    Careful last (.start locals) := by
  intro k n blk d r hk hn
  simp only [Builder.start, List.getElem?_singleton] at hk
  split at hk
  · cases hk
    cases hn
  · cases hk

theorem finish_madeWith {locals : List Code.Local} {d : Draft}
    (hlocals : ∀ l ∈ locals, l.ty.isNumeric = true) (ha : Adds g returns (.start locals) d)
    (hk : KeepsCareful (.start locals) d.b) (id : FunctionId) (name : String) (span : Span) :
    ∃ last f, finish d.b id name returns span = f.prune ∧ MadeWith last f := by
  have hs : (Draft.start locals).Sound g returns := .start hlocals
  have hsd := ha.makes.sound hs
  have hfinish : KeepsCareful (.start locals) (d.finish returns).b ∧
      ∀ {k : Nat} {blk : Block}, (d.finish returns).b.blocks[k]? = some blk → blk.id = k := by
    unfold Draft.finish
    split
    · rename_i h
      simp only [Bool.and_eq_true, Bool.not_eq_true'] at h
      refine ⟨hk.thenPlain (Draft.close_seals hsd h.1 fun k hk => absurd hk List.not_mem_nil)
        ((Builder.Plain.refl _).close _), fun hb => ?_⟩
      obtain ⟨-, hb⟩ | ⟨rfl, c, hc, rfl⟩ := Builder.modify_blocks hb
      · exact hsd.numbered hb
      · exact (hsd.numbered hc : c.id = _)
    · exact ⟨hk, hsd.numbered⟩
  exact ⟨(d.finish returns).b, _, finish_eq d id name returns span, rfl, rfl, hfinish.2,
    Builder.function_coherent, hfinish.1.careful (.refl _) (careful_start _ _)⟩

/-- In the functions of a program, all conversions between integral types are justified. -/
theorem lowerProgram_madeWith {p : Typed.Program} (hw : p.WellTyped) {c : Module}
    (h : lowerProgram p = .ok c) {f : Function} (hf : f ∈ c.functions) :
    ∃ last f', f = f'.prune ∧ MadeWith last f' := by
  obtain ⟨m, hm, hgen⟩ | hgen := mem_lowerProgram h hf
  · have hmw := hw.methods m hm
    obtain ⟨d, hrun, hpass⟩ := genBody_passes (p := p) rfl hmw
    have hlocals := namedLocal_numeric hmw
    have hk := genList_keeps rfl m.body hmw.body (.start hlocals)
      (namedLocal_types m ▸ knows_start _) ⟨nofun, fun k hk => by cases hk⟩ hrun
    rw [genMethod, hrun] at hgen
    cases hgen
    exact finish_madeWith hlocals hpass.toAdds hk _ _ _
  · have hids : ∀ f ∈ p.fields, p.signature.fields[f.id]? = some f.ty :=
      fun f hf => hw.numbered.signature_field hf
    obtain ⟨d, hrun, hg⟩ := genInits_grows (p := p) rfl p.fields (d := .start []) hw.fields hids
      (.start (by simp)) (start_open [])
    have hk := genInits_keeps (d := .start []) rfl p.fields hw.fields hids (.start (by simp))
      (start_open []) hrun
    rw [genInitializer, show genInits p (.start []) p.fields = _ from hrun] at hgen
    cases hgen
    exact finish_madeWith (by simp) hg.toAdds hk _ _ _

end Cascade.Simulation
