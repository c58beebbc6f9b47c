import Cascade.Proofs.Codegen.Twins
import Cascade.Proofs.Typing.Kept

/-!
# Cascade.Proofs.Codegen.Trimming

Code for a statement and for its trimmed form. The blocks of the trimmed one all have a partner
with the same code, except the one behind a switch that does not complete. What trimming drops is
put behind a block that has ended, or into such a block, so no partner changes.

* `Beyond`: where both sides stand behind a statement.
* `genStmt_trim`, `genList_trim`, `genCases_trim`: statements and their trimmed forms.
-/

namespace Cascade.Codegen

open Code
open Typed (trimList trimCases trimCases_label anyEscapes allComplete lastCompletes)

variable {ρ ρ' : Renaming} {b c b' c' : Builder} {completes : Bool}

/-! ## Switches -/

theorem labelled_trim : ∀ (cases : List Typed.Case) (bs : List BlockId),
    labelled (trimCases cases) bs = labelled cases bs
  | [], _ => rfl
  | .mk none _ :: _, [] => rfl
  | .mk (some _) _ :: _, [] => rfl
  | .mk none _ :: cs, _ :: bs => labelled_trim cs bs
  | .mk (some n) _ :: cs, b :: bs => congrArg ((n, b) :: ·) (labelled_trim cs bs)

theorem trimCases_length (cases : List Typed.Case) :
    (trimCases cases).length = cases.length := by
  simpa using congrArg List.length (trimCases_label cases)

theorem trimCases_any (cases : List Typed.Case) :
    (trimCases cases).any Typed.Case.isDefault = cases.any Typed.Case.isDefault := by
  have h : ∀ cs : List Typed.Case,
      cs.any Typed.Case.isDefault = (cs.map Typed.Case.label).any Option.isNone :=
    fun cs => by rw [List.any_map]; rfl
  rw [h, h, trimCases_label]

/-- A switch is opened by the labels of its cases alone. -/
theorem openSwitch_trim (b : Builder) (r : Register) (cases : List Typed.Case) :
    openSwitch b r (trimCases cases) = openSwitch b r cases := by
  have hfind : ∀ cs : List Typed.Case, cs.findIdx? Typed.Case.isDefault =
      (cs.map Typed.Case.label).findIdx? Option.isNone :=
    fun cs => by rw [List.findIdx?_map]; rfl
  simp only [openSwitch, defaultBlock, labelled_trim, trimCases_length, hfind, trimCases_label]

theorem openSwitch_behind_lt (b : Builder) (r : Register) (cases : List Typed.Case) :
    (openSwitch b r cases).1.behind < (openSwitch b r cases).2.blocks.length := by
  obtain ⟨d, hlaid, hopen⟩ := openSwitch_addsBlocks ⟨[], []⟩ .void ⟨b, [], [], [], [], []⟩ r cases
  have hlength : d.b.blocks.length = b.blocks.length + (cases.length + 1) := hlaid.length
  rw [hopen]
  simp only [OpenSwitch.consecutive, Builder.close_length, hlength]
  exact Nat.lt_succ_self _

/-- A `break` has a target on both sides. They correspond if some `break` that is kept goes
there. -/
def ExitTwins (ρ : Renaming) (escapes : Bool) (switches switches' : Switches) : Prop :=
  ∀ {k}, switches.exit? = some k →
    ∃ k', switches'.exit? = some k' ∧ (escapes = true → ρ.blocks k k')

theorem ExitTwins.mono {escapes escapes' : Bool} {switches switches' : Switches}
    (h : ExitTwins ρ escapes switches switches') (hle : ρ.Le ρ')
    (he : escapes' = true → escapes = true) : ExitTwins ρ' escapes' switches switches' :=
  fun hk =>
    have ⟨k', hk', hpair⟩ := h hk
    ⟨k', hk', fun hesc => hle.blocks (hpair (he hesc))⟩

/-! ## Behind statements -/

/-- Where both sides stand behind a statement. Control gets there in blocks that correspond; if it
cannot get there, either side stands in a block that has ended or has no partner. -/
structure Beyond (ρ : Renaming) (b c : Builder) (ρ' : Renaming) (b' c' : Builder)
    (completes : Bool) : Prop extends TwinFrom ρ b c ρ' b' c' where
  together : completes = true → ρ'.blocks b'.current c'.current
  apart : completes = false → (b'.isClosed = true ∨ ∀ j, ¬ ρ'.blocks b'.current j) ∧
    (c'.isClosed = true ∨ ∀ i, ¬ ρ'.blocks i c'.current)

theorem Alongside.beyond (h : Alongside ρ b c ρ' b' c') : Beyond ρ b c ρ' b' c' true :=
  ⟨h.toTwinFrom, fun _ => h.current, fun hc => by cases hc⟩

theorem Beyond.alongside (h : Beyond ρ b c ρ' b' c' true) : Alongside ρ b c ρ' b' c' :=
  ⟨h.toTwinFrom, h.together rfl⟩

/-- Both sides end a block and leave. -/
theorem Alongside.leave (h : Alongside ρ b c ρ' b' c') {t t' : Terminator} (ht : t.Twin ρ' t')
    (hclosed : t.isClosed = true) : Beyond ρ b c ρ' (b'.close t) (c'.close t') false where
  toTwinFrom := (h.close ht).toTwinFrom
  together := fun hc => by cases hc
  apart := fun _ => ⟨.inl (Builder.isClosed_close (h.blocks.left h.current) hclosed),
    .inl (Builder.isClosed_close (h.blocks.right h.current) (ht.isClosed ▸ hclosed))⟩

/-- Either side ends its block unless that has ended. Where control gets, the ends correspond. -/
theorem Beyond.seal (h : Beyond ρ b c ρ' b' c' completes) {t t' : Terminator}
    (ht : completes = true → t.Twin ρ' t') :
    TwinFrom ρ b c ρ' (if b'.isClosed then b' else b'.close t)
      (if c'.isClosed then c' else c'.close t') := by
  cases completes with
  | true =>
    rw [h.alongside.isClosed]
    cases c'.isClosed with
    | true => exact h.toTwinFrom
    | false => exact (h.alongside.close (ht rfl)).toTwinFrom
  | false =>
    obtain ⟨hb, hc⟩ := h.apart rfl
    have h1 : TwinFrom ρ b c ρ' (if b'.isClosed then b' else b'.close t) c' := by
      by_cases hclosed : b'.isClosed = true
      · rw [if_pos hclosed]
        exact h.toTwinFrom
      · rw [if_neg hclosed]
        refine h.aside (.close (.refl (fun ⟨_, hk⟩ => h.blocks.left hk) ?_) t)
        rintro ⟨j, hj⟩
        exact hb.resolve_left hclosed j hj
    by_cases hclosed : c'.isClosed = true
    · rw [if_pos hclosed]
      exact h1
    · rw [if_neg hclosed]
      exact h1.close_right (hc.resolve_left hclosed) t'

/-- Both sides go on behind a switch that they opened, after its cases. -/
theorem TwinFrom.beyondSwitch {n : Nat} {s s' : OpenSwitch} {ρ'' : Renaming} {b'' c'' : Builder}
    (h : TwinFrom ρ b c ρ' b' c') (h' : TwinFrom ρ' b' c' ρ'' b'' c'')
    (hs : OpenSwitch.Twin ρ' completes n s s') (hb : s.behind < b'.blocks.length)
    (hc : s'.behind < c'.blocks.length)
    (hapart : completes = false → Apart ρ' s.behind s'.behind) :
    Beyond ρ b c ρ'' (b''.goto s.behind) (c''.goto s'.behind) completes where
  toTwinFrom := (h.trans h').goto _ _
  together := fun ht => h'.le.blocks (hs.behind ht)
  apart := fun hf =>
    have ⟨hleft, hright⟩ := h'.apart hb hc (hapart hf)
    ⟨.inr hleft, .inr hright⟩

/-- Statements that trimming drops, put behind those that it keeps. -/
theorem Beyond.dropped (h : Beyond ρ b c ρ' b' c' false) {p : Typed.Program}
    {switches : Switches} {ss : List Typed.Stmt} {b'' : Builder}
    (hrun : genList p switches b' ss = .ok b'') : Beyond ρ b c ρ' b'' c' false := by
  obtain ⟨hb, hc⟩ := h.apart rfl
  obtain rfl | ha := genList_behind (P := fun i => ∃ j, ρ'.blocks i j)
    (fun ⟨_, hk⟩ => h.blocks.left hk) (hb.imp_right fun hnone ⟨j, hj⟩ => hnone j hj) hrun
  · exact h
  · exact ⟨h.toTwinFrom.aside ha, fun hc => (by cases hc),
      fun _ => ⟨.inr fun j hj => ha.outside ⟨j, hj⟩, hc⟩⟩

/-! ## Statements -/

variable {g : Signature} {slots : List Ty} {returns : Ty} {p p' : Typed.Program}

section

variable (hp : SameResults p p')
include hp

theorem declare_twin {slot : Slot} {init : Option Typed.Expr} {inSwitch : Bool} {b'' : Builder}
    (hw : (Typed.Stmt.declare slot init).WellTyped g slots returns inSwitch)
    (h : Alongside ρ b c ρ' b' c') (hk : FixesSlots slots ρ')
    (hrun : declare p b' slot init = .ok b'') : ∃ ρ'' c'', declare p' c' slot init = .ok c'' ∧
      ρ'.Le ρ'' ∧ Alongside ρ b c ρ'' b'' c'' := by
  obtain ⟨t, hslot, -, hinit⟩ := hw
  have hlocal : ρ'.locals slot slot := hk (List.getElem?_eq_some_iff.mp hslot).1
  cases init with
  | some e =>
    simp only [declare] at hrun
    split at hrun
    · cases hrun
    rename_i he
    cases hrun
    obtain ⟨ρ1, r', c1, he', hle, h1, hr⟩ :=
      genValue_twin hp (hinit e rfl).1 h hk he
    exact ⟨ρ1, _, by simp only [declare, he'], hle, h1.emit (.storeLocal (hle.locals hlocal) hr)⟩
  | none =>
    simp only [declare] at hrun
    split at hrun
    · cases hrun
    rename_i l hl
    split at hrun
    · cases hrun
    rename_i hz
    cases hrun
    have hl' := List.getElem?_eq_getElem (h.locals.right hlocal)
    rw [h.types hlocal hl hl'] at hz
    obtain ⟨⟨r', c1⟩, hz', ρ1, hle, h1, hr⟩ := h.zero hz
    exact ⟨ρ1, _, by simp only [declare, hl', hz'], hle,
      h1.emit (.storeLocal (hle.locals hlocal) hr)⟩

theorem leaveFunction_twin {value : Option Typed.Expr} {inSwitch : Bool} {b'' : Builder}
    (hw : (Typed.Stmt.ret value).WellTyped g slots returns inSwitch)
    (h : Alongside ρ b c ρ' b' c') (hk : FixesSlots slots ρ')
    (hrun : leaveFunction p b' value = .ok b'') : ∃ ρ'' c'', leaveFunction p' c' value = .ok c'' ∧
      ρ'.Le ρ'' ∧ Beyond ρ b c ρ'' b'' c'' false := by
  cases value with
  | none =>
    cases hrun
    exact ⟨ρ', _, rfl, .refl ρ', h.leave (.ret .none) rfl⟩
  | some e =>
    simp only [leaveFunction] at hrun
    split at hrun
    · cases hrun
    rename_i he
    cases hrun
    obtain ⟨ρ1, r', c1, he', hle, h1, hr⟩ := genValue_twin hp hw.1 h hk he
    exact ⟨ρ1, _, by simp only [leaveFunction, he'], hle, h1.leave (.ret (.some hr)) rfl⟩

end

mutual

theorem genStmt_trim (hp : SameResults p p') : ∀ (s : Typed.Stmt) {inSwitch : Bool}
    {switches switches' : Switches} {ρ ρ' : Renaming} {b c b' c' b'' : Builder},
    s.WellTyped g slots returns inSwitch → Alongside ρ b c ρ' b' c' → FixesSlots slots ρ' →
    ExitTwins ρ' s.trim.escapes switches switches' →
    genStmt p switches b' s = .ok b'' → ∃ ρ'' c'', genStmt p' switches' c' s.trim = .ok c'' ∧
      ρ'.Le ρ'' ∧ Beyond ρ b c ρ'' b'' c'' s.trim.completes
  | .block body, inSwitch, switches, switches', ρ, ρ', b, c, b', c', b'', hw, h, hk, he, hrun => by
    simp only [genStmt] at hrun
    obtain ⟨ρ1, hle1, h1⟩ := h.reopen
    obtain ⟨ρ2, c2, hrun', hle2, h2⟩ :=
      genList_trim hp body hw h1 (hk.mono hle1) (he.mono hle1 id) hrun
    exact ⟨ρ2, c2, by rw [Typed.Stmt.trim, genStmt, hrun'], hle1.trans hle2, h2⟩
  | .declare slot init, inSwitch, switches, switches', ρ, ρ', b, c, b', c', b'', hw, h, hk, _,
      hrun => by
    simp only [genStmt] at hrun
    obtain ⟨ρ1, hle1, h1⟩ := h.reopen
    obtain ⟨ρ2, c2, hrun', hle2, h2⟩ := declare_twin hp hw h1 (hk.mono hle1) hrun
    exact ⟨ρ2, c2, by rw [Typed.Stmt.trim, genStmt, hrun'], hle1.trans hle2, h2.beyond⟩
  | .expr e, inSwitch, switches, switches', ρ, ρ', b, c, b', c', b'', hw, h, hk, _, hrun => by
    simp only [genStmt] at hrun
    split at hrun
    · cases hrun
    rename_i hrune
    cases hrun
    obtain ⟨ρ1, hle1, h1⟩ := h.reopen
    obtain ⟨ρ2, r', c2, hrun', hle2, h2, -⟩ := genExpr_twin hp hw h1 (hk.mono hle1) hrune
    exact ⟨ρ2, c2, by simp only [Typed.Stmt.trim, genStmt, hrun'], hle1.trans hle2, h2.beyond⟩
  | .switch scrutinee compare cases, inSwitch, switches, switches', ρ, ρ', b, c, b', c', b'', hw,
      h, hk, _, hrun => by
    simp only [genStmt] at hrun
    split at hrun
    · cases hrun
    rename_i r b2 hscrutinee
    split at hrun
    · cases hrun
    rename_i b4 hcases
    cases hrun
    obtain ⟨hfills, -, -, hbodies⟩ := hw
    obtain ⟨ρ1, hle1, h1⟩ := h.reopen
    obtain ⟨ρ2, r', c2, hscrutinee', hle2, h2, hr⟩ :=
      genValue_twin hp hfills.1 h1 (hk.mono hle1) hscrutinee
    have hcompletes : (Typed.Stmt.switch scrutinee compare (trimCases cases)).completes =
      ((!cases.any Typed.Case.isDefault) || (trimCases cases).any (fun c => anyEscapes c.body) ||
        lastCompletes (trimCases cases)) := by rw [Typed.Stmt.completes, trimCases_any]
    rw [Typed.Stmt.trim]
    generalize (Typed.Stmt.switch scrutinee compare (trimCases cases)).completes = completes
      at hcompletes ⊢
    have hdefault : cases.any Typed.Case.isDefault = false → completes = true := fun hnone => by
      rw [hcompletes, hnone]
      rfl
    obtain ⟨ρ3, hle3, h3, hswitch, hapart⟩ := h2.openSwitch hr hdefault
    have hle := (hle1.trans hle2).trans hle3
    obtain ⟨ρ4, c4, hcases', hle4, h4⟩ := genCases_trim hp cases switches'
      (Nat.zero_add _) hbodies (.refl h3.toTwin) (hk.mono hle) hswitch
      (fun hesc => by rw [hcompletes, hesc, Bool.or_true, Bool.true_or])
      (fun _ hlast => by rw [hcompletes, hlast, Bool.or_true]) hcases
    exact ⟨ρ4, c4.goto (openSwitch c2 r' cases).1.behind,
      by simp only [genStmt, hscrutinee', openSwitch_trim, hcases'], hle.trans hle4,
      h3.beyondSwitch h4 hswitch (openSwitch_behind_lt b2 r cases)
        (openSwitch_behind_lt c2 r' cases) hapart⟩
  | .leave, inSwitch, switches, switches', ρ, ρ', b, c, b', c', b'', _, h, _, he, hrun => by
    simp only [genStmt] at hrun
    split at hrun
    · cases hrun
    rename_i target htarget
    cases hrun
    obtain ⟨target', htarget', hpair⟩ := he htarget
    obtain ⟨ρ1, hle1, h1⟩ := h.reopen
    exact ⟨ρ1, (reopen c').close (.jump target'),
      by simp only [Typed.Stmt.trim, genStmt, htarget'], hle1,
      h1.leave (.jump (hle1.blocks (hpair rfl))) rfl⟩
  | .ret value, inSwitch, switches, switches', ρ, ρ', b, c, b', c', b'', hw, h, hk, _, hrun => by
    simp only [genStmt] at hrun
    obtain ⟨ρ1, hle1, h1⟩ := h.reopen
    obtain ⟨ρ2, c2, hrun', hle2, h2⟩ := leaveFunction_twin hp hw h1 (hk.mono hle1) hrun
    exact ⟨ρ2, c2, by rw [Typed.Stmt.trim, genStmt, hrun'], hle1.trans hle2, h2⟩

theorem genList_trim (hp : SameResults p p') : ∀ (ss : List Typed.Stmt) {inSwitch : Bool}
    {switches switches' : Switches} {ρ ρ' : Renaming} {b c b' c' b'' : Builder},
    Typed.ListWellTyped g slots returns inSwitch ss → Alongside ρ b c ρ' b' c' →
    FixesSlots slots ρ' → ExitTwins ρ' (anyEscapes (trimList ss)) switches switches' →
    genList p switches b' ss = .ok b'' →
    ∃ ρ'' c'', genList p' switches' c' (trimList ss) = .ok c'' ∧ ρ'.Le ρ'' ∧
      Beyond ρ b c ρ'' b'' c'' (allComplete (trimList ss))
  | [], inSwitch, switches, switches', ρ, ρ', b, c, b', c', b'', _, h, _, _, hrun => by
    simp only [genList] at hrun
    cases hrun
    exact ⟨ρ', c', by rw [trimList, genList], .refl ρ', h.beyond⟩
  | s :: ss, inSwitch, switches, switches', ρ, ρ', b, c, b', c', b'', hw, h, hk, he, hrun => by
    simp only [genList] at hrun
    split at hrun
    · cases hrun
    rename_i b1 hs
    obtain ⟨ρ1, c1, hs', hle1, h1⟩ := genStmt_trim hp s hw.1 h hk
      (he.mono (.refl ρ') fun hesc => by rw [trimList, anyEscapes, hesc, Bool.true_or]) hs
    cases hc : s.trim.completes with
    | true =>
      have htrim : trimList (s :: ss) = s.trim :: trimList ss := by rw [trimList, if_pos hc]
      rw [hc] at h1
      rw [htrim] at he ⊢
      obtain ⟨ρ2, c2, hrun', hle2, h2⟩ := genList_trim hp ss hw.2 h1.alongside (hk.mono hle1)
        (he.mono hle1 fun hesc => by rw [anyEscapes, hesc, Bool.or_true]) hrun
      exact ⟨ρ2, c2, by simp only [genList, hs', hrun'], hle1.trans hle2,
        by rw [allComplete, hc, Bool.true_and]; exact h2⟩
    | false =>
      have htrim : trimList (s :: ss) = [s.trim] := by
        rw [trimList, if_neg (by rw [hc]; exact Bool.false_ne_true)]
      rw [hc] at h1
      rw [htrim]
      exact ⟨ρ1, c1, by simp only [genList, hs'], hle1,
        by rw [allComplete, hc, Bool.false_and]; exact h1.dropped hrun⟩

theorem genCases_trim (hp : SameResults p p') : ∀ (cs : List Typed.Case) (switches' : Switches)
    {n i : Nat} {completes : Bool} {s s' : OpenSwitch} {switches : Switches} {ρ ρ' : Renaming}
    {b c b' c' b'' : Builder}, i + cs.length = n → Typed.CasesWellTyped g slots returns cs →
    TwinFrom ρ b c ρ' b' c' → FixesSlots slots ρ' → OpenSwitch.Twin ρ' completes n s s' →
    ((trimCases cs).any (fun c => anyEscapes c.body) = true → completes = true) →
    (cs ≠ [] → lastCompletes (trimCases cs) = true → completes = true) →
    genCases p (switches.push s) s i b' cs = .ok b'' →
    ∃ ρ'' c'', genCases p' (switches'.push s') s' i c' (trimCases cs) = .ok c'' ∧ ρ'.Le ρ'' ∧
      TwinFrom ρ b c ρ'' b'' c''
  | [], switches', n, i, completes, s, s', switches, ρ, ρ', b, c, b', c', b'', _, _, h, _, _, _, _,
      hrun => by
    simp only [genCases] at hrun
    cases hrun
    exact ⟨ρ', c', by rw [trimCases, genCases], .refl ρ', h⟩
  | .mk label body :: cs, switches', n, i, completes, s, s', switches, ρ, ρ', b, c, b', c', b'', hn,
      hw, h, hk, hswitch, hescapes, hlast, hrun => by
    simp only [genCases] at hrun
    split at hrun
    · cases hrun
    rename_i b1 hbody
    rw [List.length_cons] at hn
    have hi : i < n := by omega
    have hexit : ExitTwins ρ' (anyEscapes (trimList body)) (switches.push s)
        (switches'.push s') := by
      intro k hkey
      cases hkey
      refine ⟨s'.behind, rfl, fun hesc => hswitch.behind (hescapes ?_)⟩
      rw [trimCases, List.any_cons, Typed.Case.body, hesc, Bool.true_or]
    have hgoto : Alongside ρ b c ρ' (b'.goto (s.caseBlock i)) (c'.goto (s'.caseBlock i)) :=
      ⟨h.goto _ _, hswitch.case hi⟩
    obtain ⟨ρ1, c1, hbody', hle1, h1⟩ := genList_trim hp body hw.1 hgoto hk hexit hbody
    have hswitch1 := hswitch.mono hle1
    -- control that gets out of the last case gets out of the switch
    have hjump : allComplete (trimList body) = true →
        (Terminator.jump (s.fallThrough i)).Twin ρ1 (.jump (s'.fallThrough i)) := fun hc =>
      .jump (hswitch1.fallThrough hi fun hin => by
        obtain rfl : cs = [] := List.eq_nil_of_length_eq_zero (by omega)
        exact hlast (by simp) hc)
    obtain ⟨ρ2, c2, hrest', hle2, h2⟩ := genCases_trim hp cs switches' (by omega) hw.2
      (h1.seal hjump) (hk.mono hle1) hswitch1
      (fun hesc => hescapes (by rw [trimCases, List.any_cons, hesc, Bool.or_true]))
      (fun hne hl => by
        refine hlast (by simp) ?_
        have hne' : trimCases cs ≠ [] := fun he => hne <|
          List.eq_nil_of_length_eq_zero (by rw [← trimCases_length, he]; rfl)
        rw [trimCases, Typed.lastCompletes_cons hne', hl]) hrun
    exact ⟨ρ2, c2, by simp only [trimCases, genCases, hbody', hrest'], hle1.trans hle2, h2⟩

end

end Cascade.Codegen
