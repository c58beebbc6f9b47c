import Cascade.Proofs.Codegen.Reachable
import Cascade.Proofs.Codegen.Stmt
import Cascade.Proofs.Typing.Trimmed

/-!
# Cascade.Proofs.Codegen.Carries

Code for trimmed statements takes control to every place that the tree shows. What `Passes` bounds
from above holds from below as well.

* `Carries`: if control gets to the start of some statements, it gets to their end where they
  complete, and behind the switch around them where they escape from it.
* `genList_carries`: code for a list of statements.
-/

namespace Cascade.Codegen

open Code
open Typed (ListWellTyped CasesWellTyped ListTrimmed CasesTrimmed allComplete anyEscapes
  lastCompletes lastCompletes_cons)

variable {g : Signature} {returns : Ty} {slots : List Ty}

/-- From the builder before some statements to the builder behind them. -/
structure Carries (exit : Option Nat) (completes escapes : Bool) (b b' : Builder) : Prop where
  runs : b.Runs → completes = true → b'.Runs
  leaves : b.Runs → escapes = true → ∃ k, exit = some k ∧ b'.Reaches k

namespace Carries

variable {exit : Option Nat}

theorem refl (b : Builder) : Carries exit true false b b := ⟨fun h _ => h, nofun⟩

/-- Nothing has to be shown where control does not get to the start. -/
theorem of_runs {b b' : Builder} {c e : Bool} (h : b.Runs → Carries exit c e b b') :
    Carries exit c e b b' :=
  ⟨fun hr => (h hr).runs hr, fun hr => (h hr).leaves hr⟩

/-- Statements that only complete are followed by others that escape. -/
theorem trans {b b' b'' : Builder} {c c' e e' : Bool} (h : Carries exit c e b b')
    (h' : Carries exit c' e' b' b'') (hx : b'.Extends b'')
    (htrim : (e || e') = true → e = true ∨ c = true ∧ e' = true) :
    Carries exit (c && c') (e || e') b b'' where
  runs := fun hr hc => by
    obtain ⟨hc, hc'⟩ := Bool.and_eq_true_iff.mp hc
    exact h'.runs (h.runs hr hc) hc'
  leaves := fun hr he => by
    obtain he | ⟨hc, he⟩ := htrim he
    · obtain ⟨k, hk, hreach⟩ := h.leaves hr he
      exact ⟨k, hk, hreach.mono hx⟩
    · exact h'.leaves (h.runs hr hc) he

end Carries

theorem Grows.runs {d d' : Draft} (h : Grows g returns d d') (hs : d.Sound g returns)
    (hd : d.Grounded) (hr : d.b.Runs) : d'.b.Runs := by
  rw [← hs.running_iff hd] at hr
  rw [← (h.makes.sound hs).running_iff (h.makes.grounded hd)]
  exact ⟨h.isOpen.2, h.live.mpr hr.2⟩

theorem Carries.ofGrows {d d' : Draft} {exit : Option Nat} (hs : d.Sound g returns)
    (hd : d.Grounded) (h : Grows g returns d d') : Carries exit true false d.b d'.b :=
  ⟨fun hr _ => h.runs hs hd hr, nofun⟩

/-- Control gets to the block of each case of a switch, and behind a switch without a default. -/
theorem openSwitch_reaches {d : Draft} (ho : d.Open) (hr : d.b.Reaches d.b.current) (r : Register)
    {cases : List Typed.Case} (hone : cases.countP Typed.Case.isDefault ≤ 1) {i : Nat}
    (hi : i ≤ cases.length)
    (hbehind : i = cases.length → cases.any Typed.Case.isDefault = false) :
    (openSwitch d.b r cases).2.Reaches (d.b.blocks.length + i) := by
  obtain ⟨d1, hlaid, hopen⟩ := openSwitch_addsBlocks ⟨[], []⟩ .void d r cases
  have ho1 := hlaid.isOpen ho
  rw [hopen]
  refine .close ho1.1 ho1.2 ?_ (mem_dispatch hone hi hbehind)
  rw [hlaid.current]
  exact hr.mono hlaid.makes.extends

/-- Control gets from the end of a case to the block that it goes on in. -/
theorem fallThrough_reaches {d : Draft} (hs : d.Sound g returns) (hr : d.b.Runs) (k : Nat) :
    (d.fallThrough k).b.Reaches k := by
  rw [fallThrough_b, hr.1]
  exact .close (hs.entered _ hs.current) hr.1 hr.2 (List.mem_singleton.mpr rfl)

/-- Where work is taken up in a block that control gets to, control runs. -/
theorem Draft.Sound.goto_runs {d : Draft} (hs : d.Sound g returns) {k : Nat}
    (hk : k < d.b.blocks.length) (hfresh : k ∉ d.entered) (hr : d.b.Reaches k) :
    (d.b.goto k).Runs :=
  ⟨(hs.goto_open hk hfresh []).2, hr.mono (Builder.goto_extends d.b k)⟩

mutual

theorem genStmt_carries {p : Typed.Program} (hp : p.signature = g) : ∀ (s : Typed.Stmt)
    {switches : Switches} {inSwitch : Bool} {d : Draft} {b' : Builder},
    s.WellTyped g slots returns inSwitch → s.Trimmed → d.Sound g returns → d.Grounded →
    d.Knows slots → Exits switches inSwitch d → genStmt p switches d.b s = .ok b' →
    Carries switches.exit? s.completes s.escapes d.b b'
  | .block body, switches, inSwitch, d, b', hw, ht, hs, hd, hk, hx, hrun => by
    refine .of_runs fun hr => ?_
    rw [genStmt, reopen_open hr.1] at hrun
    exact genList_carries hp body hw ht hs hd hk hx hrun
  | .declare slot init, switches, inSwitch, d, b', hw, _, hs, hd, hk, _, hrun => by
    refine .of_runs fun hr => ?_
    have ho : d.Open := ⟨hs.entered _ hs.current, hr.1⟩
    obtain ⟨d1, hrun1, h1⟩ := declare_grows hp hs ho hk hw
    rw [genStmt, reopen_open hr.1, hrun1] at hrun
    cases hrun
    exact .ofGrows hs hd h1
  | .expr e, switches, inSwitch, d, b', hw, _, hs, hd, hk, _, hrun => by
    refine .of_runs fun hr => ?_
    have ho : d.Open := ⟨hs.entered _ hs.current, hr.1⟩
    obtain ⟨r, d1, hrun1, h1, -⟩ := genExpr_grows hp (show e.WellTyped g slots from hw) hs ho hk
    rw [genStmt, reopen_open hr.1, hrun1] at hrun
    cases hrun
    exact .ofGrows hs hd h1
  | .switch scrutinee compare cases, switches, inSwitch, d, b', hw, ht, hs, hd, hk, _, hrun => by
    refine .of_runs fun hr => ⟨fun _ hc => ?_, nofun⟩
    have ho : d.Open := ⟨hs.entered _ hs.current, hr.1⟩
    obtain ⟨⟨hscr, hty, hn⟩, hi, hlabels, hcases⟩ := hw
    obtain ⟨r, d1, hval, hg, hhas, hrty⟩ :=
      genValue_gives (hty ▸ hn) (genExpr_grows hp hscr hs ho hk)
    have hs1 := hg.makes.sound hs
    have hr1 : d1.b.Runs := hg.runs hs hd hr
    obtain ⟨d2, hopen, h2⟩ :=
      openSwitch_switched hs1 hg.isOpen hhas (by rw [hrty, hty]; exact hi) hlabels.distinct
    have hwait := h2.awaits hs1
    have hlaid : ∀ i, i ≤ cases.length →
        (i = cases.length → cases.any Typed.Case.isDefault = false) →
        d2.b.Reaches (d1.b.blocks.length + i) := fun i hi hb => by
      have := openSwitch_reaches hg.isOpen hr1.2 r hlabels.oneDefault hi hb
      rwa [hopen] at this
    obtain ⟨d3, hfill, h3⟩ := genCases_filled hp cases switches d1.b.blocks.length 0 cases.length
      True (Nat.zero_add _) hcases (h2.makes.sound hs1)
      ((hk.mono hg.makes).mono h2.makes) hwait fun _ _ _ _ _ => trivial
    rw [genStmt, reopen_open hr.1, hval] at hrun
    simp only [hopen, hfill] at hrun
    cases hrun
    obtain ⟨hlt, hfresh⟩ := h3.behind hwait (Nat.zero_le _)
    have hcarry := genCases_carries hp cases switches d1.b.blocks.length 0 cases.length
      (Nat.zero_add _) hcases ht (h2.makes.sound hs1) (h2.makes.grounded (hg.makes.grounded hd))
      ((hk.mono hg.makes).mono h2.makes) hwait
      (fun i _ hi => hlaid i (Nat.le_of_lt hi) fun he => absurd he (Nat.ne_of_lt hi)) hfill
    refine (h3.makes.sound (h2.makes.sound hs1)).goto_runs hlt hfresh ?_
    simp only [Typed.Stmt.completes, Bool.or_eq_true, Bool.not_eq_true'] at hc
    obtain (hc | hc) | hc := hc
    · exact (hlaid _ (Nat.le_refl _) fun _ => hc).mono h3.makes.extends
    · exact hcarry.1 hc
    · by_cases hnil : cases = []
      · subst hnil
        exact (hlaid 0 (Nat.le_refl _) fun _ => rfl).mono h3.makes.extends
      · exact hcarry.2 hnil hc
  | .leave, switches, inSwitch, d, b', hw, _, hs, _, _, hx, hrun => by
    refine .of_runs fun hr => ⟨nofun, fun _ _ => ?_⟩
    obtain ⟨k, hexit⟩ := hx.known hw
    simp only [genStmt, hexit, reopen_open hr.1] at hrun
    cases hrun
    exact ⟨k, hexit, .close (hs.entered _ hs.current) hr.1 hr.2 (List.mem_singleton.mpr rfl)⟩
  | .ret value, switches, inSwitch, d, b', _, _, _, _, _, _, _ => ⟨nofun, nofun⟩

theorem genList_carries {p : Typed.Program} (hp : p.signature = g) : ∀ (ss : List Typed.Stmt)
    {switches : Switches} {inSwitch : Bool} {d : Draft} {b' : Builder},
    ListWellTyped g slots returns inSwitch ss → ListTrimmed ss → d.Sound g returns → d.Grounded →
    d.Knows slots → Exits switches inSwitch d → genList p switches d.b ss = .ok b' →
    Carries switches.exit? (allComplete ss) (anyEscapes ss) d.b b'
  | [], switches, inSwitch, d, b', _, _, _, _, _, _, hrun => by
    cases hrun
    exact .refl d.b
  | s :: ss, switches, inSwitch, d, b', hw, ht, hs, hd, hk, hx, hrun => by
    obtain ⟨d1, hrun1, h1⟩ := genStmt_passes hp s hw.1 hs hk hx
    have hs1 := h1.makes.sound hs
    have hk1 := hk.mono h1.makes
    have hx1 := hx.mono h1.toAdds
    obtain ⟨d2, hrun2, h2⟩ := genList_passes hp ss hw.2 hs1 hk1 hx1
    simp only [genList, hrun1, hrun2] at hrun
    cases hrun
    exact (genStmt_carries hp s hw.1 ht.1 hs hd hk hx hrun1).trans
      (genList_carries hp ss hw.2 ht.2.2 hs1 (h1.makes.grounded hd) hk1 hx1 hrun2)
      h2.makes.extends ht.escapes_cons

/-- Control gets behind a switch if some case escapes from it, or the last of them completes. -/
theorem genCases_carries {p : Typed.Program} (hp : p.signature = g) : ∀ (cases : List Typed.Case)
    (switches : Switches) (first i n : Nat) {d : Draft} {b' : Builder}, i + cases.length = n →
    CasesWellTyped g slots returns cases → CasesTrimmed cases → d.Sound g returns → d.Grounded →
    d.Knows slots → Awaits first i n d → (∀ j, i ≤ j → j < n → d.b.Reaches (first + j)) →
    genCases p (switches.push (.consecutive first n)) (.consecutive first n) i d.b cases =
      .ok b' →
    (cases.any (fun c => anyEscapes c.body) = true → b'.Reaches (first + n)) ∧
      (cases ≠ [] → lastCompletes cases = true → b'.Reaches (first + n))
  | [], switches, first, i, n, d, b', _, _, _, _, _, _, _, _, _ => ⟨nofun, fun h => absurd rfl h⟩
  | .mk label body :: cs, switches, first, i, n, d, b', hn, hw, ht, hs, hd, hk, hwait, hreach,
      hrun => by
    simp only [List.length_cons] at hn
    have hi : i < n := by omega
    -- the body of the case
    have hop : Op g returns d (d.goto (first + i) []) := hwait.enter hi
    have hs0 := hop.sound hs
    have hk0 := hk.mono hop.makes
    have hx0 := hwait.exits hi switches
    obtain ⟨d1, hbody, h1⟩ := genList_passes hp body hw.1 hs0 hk0 hx0
    have hs1 := h1.makes.sound hs0
    have hcarry := genList_carries hp body hw.1 ht.1 hs0 (hop.grounded hd) hk0 hx0 hbody
    have hruns : (d.goto (first + i) []).b.Runs :=
      hs.goto_runs (by have := hwait.room; omega) (hwait.fresh _ (Nat.le_refl _) (by omega))
        (hreach i (Nat.le_refl _) hi)
    -- where control goes from its end
    have h2 := hwait.fallThrough h1.toAdds hi hs1
    have hm2 : Makes g returns d (d1.fallThrough (first + (i + 1))) :=
      (hop.makes.trans h1.makes).trans h2.makes
    have hs2 := hm2.sound hs
    have hwait2 := hwait.next h1.toAdds hs1
    -- the cases behind it
    obtain ⟨d3, hrest, h3⟩ := genCases_filled hp cs switches first (i + 1) n True (by omega) hw.2
      hs2 (hk.mono hm2) hwait2 fun _ _ _ _ _ => trivial
    rw [genCases, OpenSwitch.caseBlock_consecutive (by omega),
      show d.b.goto (first + i) = (d.goto (first + i) []).b from rfl, hbody] at hrun
    simp only [OpenSwitch.fallThrough_eq, OpenSwitch.caseBlock_consecutive
      (show i + 1 ≤ n by omega), ← fallThrough_b, hrest] at hrun
    cases hrun
    obtain ⟨hescape, hlast⟩ := genCases_carries hp cs switches first (i + 1) n (by omega) hw.2 ht.2
      hs2 (hm2.grounded hd) (hk.mono hm2) hwait2
      (fun j hj hj' => (hreach j (by omega) hj').mono hm2.extends) hrest
    refine ⟨fun he => ?_, fun _ hc => ?_⟩
    · simp only [List.any_cons, Bool.or_eq_true] at he
      obtain he | he := he
      · obtain ⟨k, hexit, hk⟩ := hcarry.leaves hruns he
        obtain rfl : first + n = k := by simpa [Switches.exit?, Switches.push,
          Switches.innermost?, OpenSwitch.consecutive] using hexit
        exact (hk.mono h2.makes.extends).mono h3.makes.extends
      · exact hescape he
    · by_cases hnil : cs = []
      · subst hnil
        obtain rfl : i + 1 = n := by simpa using hn
        rw [lastCompletes] at hc
        exact (fallThrough_reaches hs1 (hcarry.runs hruns hc) _).mono h3.makes.extends
      · rw [lastCompletes_cons hnil] at hc
        exact hlast hnil hc

end

end Cascade.Codegen
