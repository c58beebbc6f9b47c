import Cascade.Proofs.Codegen.Switch
import Cascade.Typed.Flow

/-!
# Cascade.Proofs.Codegen.Stmt

Code for well-typed statements can always be made, and it is made by operations that make sense.

* `Passes`: what code for statements does to a draft. Where control gets to the end, it got to the
  start, and the statements complete; the only way out leads behind the switch around them.
* `genList_passes`: code for a list of statements.
-/

namespace Cascade.Codegen

open Code
open Typed (ListWellTyped CasesWellTyped allComplete anyEscapes lastCompletes
  lastCompletes_cons)

variable {g : Signature} {returns : Ty} {slots : List Ty}

/-- From the draft before some statements to the draft behind them. -/
structure Passes (g : Signature) (returns : Ty) (exit : Option Nat) (completes escapes : Bool)
    (d d' : Draft) : Prop extends Adds g returns d d' where
  running : d'.Running → d.Running ∧ completes = true
  ways : ∀ k u, k < d.b.blocks.length → (k, u) ∈ d'.ways →
    (k, u) ∈ d.ways ∨ exit = some k ∧ d.Running ∧ escapes = true

namespace Passes

variable {exit : Option Nat}

theorem refl (d : Draft) : Passes g returns exit true false d d :=
  ⟨.refl d, fun h => ⟨h, rfl⟩, fun _ _ _ h => .inl h⟩

theorem trans {d d' d'' : Draft} {c c' e e' : Bool} (h : Passes g returns exit c e d d')
    (h' : Passes g returns exit c' e' d' d'') :
    Passes g returns exit (c && c') (e || e') d d'' where
  toAdds := h.toAdds.trans h'.toAdds
  running := fun hr => by
    obtain ⟨hr, hc'⟩ := h'.running hr
    obtain ⟨hr, hc⟩ := h.running hr
    exact ⟨hr, by rw [hc, hc']; rfl⟩
  ways := fun k u hk hu => by
    obtain hu | ⟨he, hr, hesc⟩ := h'.ways k u (Nat.lt_of_lt_of_le hk h.toAdds.length) hu
    · obtain hu | ⟨he, hr, hesc⟩ := h.ways k u hk hu
      · exact .inl hu
      · exact .inr ⟨he, hr, by rw [hesc]; rfl⟩
    · exact .inr ⟨he, (h.running hr).1, by rw [hesc, Bool.or_true]⟩

theorem ofGrows {d d' : Draft} (ho : d.Open) (h : Grows g returns d d') :
    Passes g returns exit true false d d' where
  toAdds := h.toAdds
  running := fun hr => ⟨⟨ho.2, h.live.mp hr.2⟩, rfl⟩
  ways := fun k u hk hu => .inl (h.ways k u hk hu)

end Passes

/-- The block behind the switch around a statement, if there is one, was not entered yet. -/
structure Exits (switches : Switches) (inSwitch : Bool) (d : Draft) : Prop where
  known : inSwitch = true → ∃ k, switches.exit? = some k
  fresh : ∀ k, switches.exit? = some k → k < d.b.blocks.length ∧ k ∉ d.entered

theorem Exits.mono {switches : Switches} {inSwitch : Bool} {d d' : Draft}
    (h : Exits switches inSwitch d) (ha : Adds g returns d d') : Exits switches inSwitch d' where
  known := h.known
  fresh := fun k hk =>
    have ⟨hlt, hne⟩ := h.fresh k hk
    ⟨Nat.lt_of_lt_of_le hlt ha.length, fun he => hne (ha.entered k hlt he)⟩

theorem reopen_open {b : Builder} (h : b.isClosed = false) : reopen b = b := by
  rw [reopen, h]
  rfl

/-- After a closed block, work goes on in one that nothing leads to. -/
theorem reopen_passes {d : Draft} (hs : d.Sound g returns) (exit : Option Nat) :
    ∃ d', reopen d.b = d'.b ∧ Passes g returns exit true false d d' ∧ d'.Open := by
  unfold reopen
  split
  · rename_i hclosed
    have hlaid := newBlock_addsBlocks g returns d "dead"
    have hs1 := hlaid.makes.sound hs
    have hfresh : d.b.blocks.length ∉ (d.newBlock "dead").entered :=
      hs.notEntered (Nat.le_refl _)
    have hlt : d.b.blocks.length < (d.newBlock "dead").b.blocks.length := by
      rw [hlaid.length]; exact Nat.lt_succ_self _
    have hclosed1 : (d.newBlock "dead").b.isClosed = true := by
      have hlt' := hs.entered _ hs.current
      unfold Builder.isClosed at hclosed ⊢
      rwa [show (d.newBlock "dead").b.blocks[(d.newBlock "dead").b.current]? = _ from
        List.getElem?_append_left hlt']
    let d2 := (d.newBlock "dead").goto d.b.blocks.length []
    have hop : Op g returns (d.newBlock "dead") d2 :=
      .goto hclosed1 hlt hfresh fun u _ => List.nil_subset u
    refine ⟨d2, rfl, ⟨⟨hlaid.makes.step hop, fun k hk he => ?_, fun k hk hk' => ?_⟩,
      fun hr => ?_, fun k u _ hu => .inl hu⟩, hs1.goto_open hlt hfresh _⟩
    · obtain he | he := List.mem_cons.mp he
      · exact absurd he (Nat.ne_of_lt hk)
      · exact he
    · have hk' : k < d.b.blocks.length + 1 := hlaid.length ▸ hk'
      obtain rfl : k = d.b.blocks.length := by omega
      exact List.mem_cons_self
    · obtain ⟨u, hu⟩ := (goto_live hs1 hfresh).mp hr.2
      exact absurd hu (hs.noWay (Nat.le_refl _) u)
  · rename_i hopen
    exact ⟨d, rfl, .refl d, hs.entered _ hs.current, Bool.eq_false_iff.mpr hopen⟩

/-- A block that ends by leaving the function, or by going behind the switch around it. -/
theorem close_passes {d : Draft} (ho : d.Open) {t : Terminator} {exit : Option Nat}
    {escapes : Bool} (ht : t.Fits (d.scheme g returns) d.written) (hclosed : t.isClosed = true)
    (htargets : ∀ k : Nat, k ∈ t.targets →
      exit = some k ∧ escapes = true ∧ k < d.b.blocks.length ∧ k ∉ d.entered) :
    Passes g returns exit false escapes d (d.close t) where
  toAdds := .op (.close ho ht fun k hk => (htargets k hk).2.2) (Builder.close_length _ _) rfl
  running := fun hr => by
    have := ho.close hclosed
    rw [hr.1] at this
    cases this
  ways := fun k u _ hu => by
    obtain ⟨hlive, hk, -⟩ | hu := mem_close_ways.mp hu
    · obtain ⟨he, hesc, -⟩ := htargets k hk
      exact .inr ⟨he, ⟨ho.2, hlive⟩, hesc⟩
    · exact .inl hu

theorem leaveFunction_passes {p : Typed.Program} (hp : p.signature = g) {d : Draft}
    (hs : d.Sound g returns) (ho : d.Open) (hk : d.Knows slots) (exit : Option Nat)
    {value : Option Typed.Expr} {inSwitch : Bool}
    (hw : (Typed.Stmt.ret value).WellTyped g slots returns inSwitch) :
    ∃ d', leaveFunction p d.b value = .ok d'.b ∧ Passes g returns exit false false d d' := by
  cases value with
  | none =>
    exact ⟨d.close (.ret none), rfl,
      close_passes ho (.retNone hw) rfl fun k hk => by cases hk⟩
  | some e =>
    obtain ⟨he, hty, hn⟩ : e.Fills g slots returns := hw
    obtain ⟨r, d1, hr, hg, hhas, hrty⟩ := genValue_gives (hty ▸ hn) (genExpr_grows hp he hs ho hk)
    refine ⟨d1.close (.ret (some r)), by simp only [leaveFunction, hr]; rfl, ?_⟩
    have hvoid : returns ≠ .void := fun h => by rw [h] at hn; cases hn
    exact (Passes.ofGrows ho hg).trans
      (close_passes hg.isOpen (.retSome hhas (hrty.trans hty) hvoid) rfl fun k hk => by cases hk)

theorem declare_grows {p : Typed.Program} (hp : p.signature = g) {d : Draft}
    (hs : d.Sound g returns) (ho : d.Open) (hk : d.Knows slots) {slot : Slot}
    {init : Option Typed.Expr} {inSwitch : Bool}
    (hw : (Typed.Stmt.declare slot init).WellTyped g slots returns inSwitch) :
    ∃ d', declare p d.b slot init = .ok d'.b ∧ Grows g returns d d' := by
  obtain ⟨ty, hslot, hn, hinit⟩ := hw
  have hlocal := hk.local hslot
  suffices h : ∃ r d1, Grows g returns d d1 ∧ d1.Has g returns r ∧ r.ty = ty ∧
      declare p d.b slot init = .ok (d1.emit (.storeLocal slot r)).b by
    obtain ⟨r, d1, hg, hhas, hty, hd⟩ := h
    refine ⟨_, hd, hg.trans (grows_emit hg.isOpen rfl (.storeLocal hhas ?_))⟩
    rw [hty]
    exact hg.makes.scheme.local hlocal
  cases init with
  | some e =>
    obtain ⟨he, hty, -⟩ := hinit e rfl
    obtain ⟨r, d1, hr, hg, hhas, hrty⟩ := genValue_gives (hty ▸ hn) (genExpr_grows hp he hs ho hk)
    exact ⟨r, d1, hg, hhas, hrty.trans hty, by simp only [declare, hr]; rfl⟩
  | none =>
    obtain ⟨l, hl, rfl⟩ : ∃ l, d.b.locals[slot]? = some l ∧ l.ty = ty := by simpa using hlocal
    obtain ⟨⟨r, b1⟩, hz, d1, hb1, hg, hhas, hrty⟩ := zero_gives hs ho hn .zero
    obtain rfl : b1 = d1.b := hb1
    exact ⟨r, d1, hg, hhas, hrty, by simp only [declare, hl, hz]; rfl⟩

/-- The cases numbered from `i` on of a switch with `n` cases, whose blocks are numbered from
`first` on, have got their code. Control gets to a block of the switch only if it is `alive` where
the switch dispatches. -/
structure Filled (g : Signature) (returns : Ty) (first i n : Nat) (alive : Prop)
    (cases : List Typed.Case) (d d' : Draft) : Prop where
  makes : Makes g returns d d'
  closed : d'.b.isClosed = true
  entered : ∀ k, k < d.b.blocks.length → k ∈ d'.entered →
    k ∈ d.entered ∨ first + i ≤ k ∧ k < first + n
  filled : ∀ k, first + i ≤ k → k < first + n → k ∈ d'.entered
  complete : ∀ k, d.b.blocks.length ≤ k → k < d'.b.blocks.length → k ∈ d'.entered
  ways : ∀ k u, k < d.b.blocks.length → (k, u) ∈ d'.ways → (k, u) ∈ d.ways ∨
    first + i < k ∧ alive ∧ (k = first + n →
      cases.any (fun c => anyEscapes c.body) = true ∨ cases ≠ [] ∧ lastCompletes cases = true)

def Draft.fallThrough (d : Draft) (k : Nat) : Draft :=
  if d.b.isClosed then d else d.close (.jump k)

theorem fallThrough_b (d : Draft) (k : Nat) :
    (d.fallThrough k).b = if d.b.isClosed then d.b else d.b.close (.jump k) := by
  unfold Draft.fallThrough
  split
  · rfl
  · rfl

/-- A block that has not ended goes on in a block that nothing was put into yet. -/
theorem fallThrough_op {d : Draft} (hs : d.Sound g returns) (hopen : d.b.isClosed = false)
    {k : Nat} (hk : k < d.b.blocks.length) (hfresh : k ∉ d.entered) :
    Op g returns d (d.close (.jump k)) := by
  refine .close ⟨hs.entered _ hs.current, hopen⟩ .jump ?_
  intro l hl
  obtain rfl := List.mem_singleton.mp hl
  exact ⟨hk, hfresh⟩

theorem fallThrough_adds {d : Draft} (hs : d.Sound g returns) {k : Nat}
    (hk : k < d.b.blocks.length) (hfresh : k ∉ d.entered) :
    Adds g returns d (d.fallThrough k) := by
  unfold Draft.fallThrough
  split
  · exact .refl d
  · rename_i hopen
    exact .op (fallThrough_op hs (Bool.eq_false_iff.mpr hopen) hk hfresh)
      (Builder.close_length _ _) rfl

theorem fallThrough_closed {d : Draft} (hs : d.Sound g returns) (k : Nat) :
    (d.fallThrough k).b.isClosed = true := by
  unfold Draft.fallThrough
  split
  · assumption
  · exact Builder.isClosed_close (hs.entered _ hs.current) rfl

theorem fallThrough_length (d : Draft) (k : Nat) :
    (d.fallThrough k).b.blocks.length = d.b.blocks.length := by
  unfold Draft.fallThrough
  split
  · rfl
  · exact Builder.close_length _ _

theorem fallThrough_entered (d : Draft) (k : Nat) : (d.fallThrough k).entered = d.entered := by
  unfold Draft.fallThrough
  split
  · rfl
  · rfl

theorem fallThrough_way {d : Draft} {k l : Nat} {u : List Nat}
    (h : (l, u) ∈ (d.fallThrough k).ways) : (l, u) ∈ d.ways ∨ l = k ∧ d.Running := by
  unfold Draft.fallThrough at h
  split at h
  · exact .inl h
  · rename_i hopen
    obtain ⟨hlive, hl, -⟩ | hu := mem_close_ways.mp h
    · exact .inr ⟨List.mem_singleton.mp hl, Bool.eq_false_iff.mpr hopen, hlive⟩
    · exact .inl hu

/-- A switch with `n` cases, whose blocks are numbered from `first` on, is to get the code of its
cases from the one numbered `i` on. Neither their blocks nor the one behind it were entered. -/
structure Awaits (first i n : Nat) (d : Draft) : Prop where
  closed : d.b.isClosed = true
  room : first + n < d.b.blocks.length
  fresh : ∀ k, first + i ≤ k → k ≤ first + n → k ∉ d.entered

namespace Awaits

variable {first i n : Nat} {d : Draft}

theorem enter (h : Awaits first i n d) (hi : i < n) :
    Op g returns d (d.goto (first + i) []) := by
  have hroom := h.room
  exact .goto h.closed (by omega) (h.fresh _ (Nat.le_refl _) (by omega))
    fun u _ => List.nil_subset u

theorem goto_fresh (h : Awaits first i n d) {k : Nat} (hk : first + i < k) (hk' : k ≤ first + n) :
    k ∉ (d.goto (first + i) []).entered := by
  intro he
  obtain he | he := List.mem_cons.mp he
  · omega
  · exact h.fresh k (Nat.le_of_lt hk) hk' he

theorem exits (h : Awaits first i n d) (hi : i < n) (switches : Switches) :
    Exits (switches.push (.consecutive first n)) true (d.goto (first + i) []) where
  known := fun _ => ⟨first + n, rfl⟩
  fresh := fun k hk => by
    obtain rfl : first + n = k := by simpa [Switches.exit?, Switches.push,
      Switches.innermost?, OpenSwitch.consecutive] using hk
    exact ⟨h.room, h.goto_fresh (by omega) (Nat.le_refl _)⟩

theorem body_fresh {d1 : Draft} (h : Awaits first i n d)
    (ha : Adds g returns (d.goto (first + i) []) d1) {k : Nat} (hk : first + i < k)
    (hk' : k ≤ first + n) : k ∉ d1.entered := by
  have hroom := h.room
  intro he
  exact h.goto_fresh hk hk' (ha.entered k (show k < d.b.blocks.length by omega) he)

theorem next_lt {d1 : Draft} (h : Awaits first i n d)
    (ha : Adds g returns (d.goto (first + i) []) d1) (hi : i < n) :
    first + (i + 1) < d1.b.blocks.length := by
  have hroom := h.room
  have hle : d.b.blocks.length ≤ d1.b.blocks.length := ha.length
  omega

theorem fallThrough {d1 : Draft} (h : Awaits first i n d)
    (ha : Adds g returns (d.goto (first + i) []) d1) (hi : i < n) (hs : d1.Sound g returns) :
    Adds g returns d1 (d1.fallThrough (first + (i + 1))) :=
  fallThrough_adds hs (h.next_lt ha hi) (h.body_fresh ha (by omega) (by omega))

theorem next {d1 : Draft} (h : Awaits first i n d)
    (ha : Adds g returns (d.goto (first + i) []) d1) (hs : d1.Sound g returns) :
    Awaits first (i + 1) n (d1.fallThrough (first + (i + 1))) where
  closed := fallThrough_closed hs _
  room := by
    rw [fallThrough_length]
    exact Nat.lt_of_lt_of_le h.room ha.length
  fresh := fun k hk hk' => by
    rw [fallThrough_entered]
    exact h.body_fresh ha (by omega) hk'

end Awaits

theorem Switched.awaits {d d' : Draft} {cases : List Typed.Case}
    (h : Switched g returns d d' cases) (hs : d.Sound g returns) :
    Awaits d.b.blocks.length 0 cases.length d' where
  closed := h.closed
  room := by
    rw [h.length]
    exact Nat.lt_succ_self _
  fresh := fun k hk _ => by
    rw [Draft.entered, h.starts]
    exact hs.notEntered hk

theorem Filled.behind {first i n : Nat} {alive : Prop} {cases : List Typed.Case} {d d' : Draft}
    (h : Filled g returns first i n alive cases d d') (hw : Awaits first i n d) (hi : i ≤ n) :
    first + n < d'.b.blocks.length ∧ first + n ∉ d'.entered := by
  have hroom := hw.room
  refine ⟨Nat.lt_of_lt_of_le hroom h.makes.extends.length, fun he => ?_⟩
  obtain he | ⟨-, hlt⟩ := h.entered _ hroom he
  · exact hw.fresh _ (Nat.add_le_add_left hi first) (Nat.le_refl _) he
  · exact absurd hlt (Nat.lt_irrefl _)

mutual

theorem genStmt_passes {p : Typed.Program} (hp : p.signature = g) : ∀ (s : Typed.Stmt)
    {switches : Switches} {inSwitch : Bool} {d : Draft}, s.WellTyped g slots returns inSwitch →
    d.Sound g returns → d.Knows slots → Exits switches inSwitch d →
    ∃ d', genStmt p switches d.b s = .ok d'.b ∧
      Passes g returns switches.exit? s.completes s.escapes d d'
  | .block body, switches, inSwitch, d, hw, hs, hk, he => by
    obtain ⟨d1, hb1, h1, -⟩ := reopen_passes hs switches.exit?
    obtain ⟨d2, hrun, h2⟩ := genList_passes hp body hw (h1.makes.sound hs) (hk.mono h1.makes)
      (he.mono h1.toAdds)
    exact ⟨d2, by rw [genStmt, hb1, hrun], h1.trans h2⟩
  | .declare slot init, switches, inSwitch, d, hw, hs, hk, _ => by
    obtain ⟨d1, hb1, h1, ho1⟩ := reopen_passes hs switches.exit?
    obtain ⟨d2, hrun, h2⟩ := declare_grows hp (h1.makes.sound hs) ho1 (hk.mono h1.makes) hw
    exact ⟨d2, by rw [genStmt, hb1, hrun], h1.trans (.ofGrows ho1 h2)⟩
  | .expr e, switches, inSwitch, d, hw, hs, hk, _ => by
    obtain ⟨d1, hb1, h1, ho1⟩ := reopen_passes hs switches.exit?
    obtain ⟨r, d2, hrun, h2, -⟩ :=
      genExpr_grows hp (show e.WellTyped g slots from hw) (h1.makes.sound hs) ho1 (hk.mono h1.makes)
    exact ⟨d2, by rw [genStmt, hb1, hrun], h1.trans (.ofGrows ho1 h2)⟩
  | .switch scrutinee compare cases, switches, inSwitch, d, hw, hs, hk, _ => by
    obtain ⟨⟨hscr, hty, hn⟩, hi, hlabels, hcases⟩ := hw
    obtain ⟨d0, hb0, h0, ho0⟩ := reopen_passes hs switches.exit?
    have hs0 := h0.makes.sound hs
    obtain ⟨r, d1, hval, hg, hhas, hrty⟩ :=
      genValue_gives (hty ▸ hn) (genExpr_grows hp hscr hs0 ho0 (hk.mono h0.makes))
    have hs1 := hg.makes.sound hs0
    have h01 := h0.trans (.ofGrows ho0 hg)
    obtain ⟨d2, hopen, h2⟩ :=
      openSwitch_switched hs1 hg.isOpen hhas (by rw [hrty, hty]; exact hi) hlabels.distinct
    have hs2 := h2.makes.sound hs1
    have hwait := h2.awaits hs1
    obtain ⟨first, hfirst⟩ : ∃ first : Nat, first = d1.b.blocks.length := ⟨_, rfl⟩
    rw [← hfirst] at hopen hwait
    have hlen2 : d2.b.blocks.length = first + cases.length + 1 := hfirst ▸ h2.length
    have hentered2 : d2.entered = d1.entered := congrArg (List.map Prod.fst) h2.starts
    obtain ⟨d3, hfill, h3⟩ := genCases_filled hp cases switches first 0 cases.length d1.Running
      (Nat.zero_add _) hcases hs2 (((hk.mono h0.makes).mono hg.makes).mono h2.makes) hwait
      fun k u hk _ hu => by
        obtain hu | ⟨hr, -⟩ := h2.ways k u hu
        · exact absurd hu (hs1.noWay (hfirst ▸ hk) u)
        · exact hr
    have hs3 := h3.makes.sound hs2
    have hlen3 := h3.makes.extends.length
    obtain ⟨hlt3, hfresh3⟩ := h3.behind hwait (Nat.zero_le _)
    have hop : Op g returns d3 (d3.goto (first + cases.length) []) :=
      .goto h3.closed hlt3 hfresh3 fun u _ => List.nil_subset u
    have hle01 := h01.toAdds.length
    refine ⟨d3.goto (first + cases.length) [], ?_, ⟨(h01.makes.trans (h2.makes.trans h3.makes)).step
      hop, fun k hk he => ?_, fun k hk hk' => ?_⟩, fun hr => ?_, fun k u hk hu => ?_⟩
    · rw [genStmt, hb0, hval]
      simp only [hopen, hfill]
      rfl
    · obtain he | he := List.mem_cons.mp he
      · omega
      obtain he | ⟨hle, -⟩ := h3.entered k (by omega) he
      · exact h01.entered k hk (hentered2 ▸ he)
      · omega
    · by_cases hbehind : k = first + cases.length
      · exact hbehind ▸ List.mem_cons_self
      refine List.mem_cons_of_mem _ ?_
      by_cases hk1 : k < first
      · exact h3.makes.entered (hentered2 ▸ h01.complete k hk (hfirst ▸ hk1))
      by_cases hk2 : k < first + cases.length
      · exact h3.filled k (by omega) hk2
      · exact h3.complete k (by omega) hk'
    · obtain ⟨u, hu⟩ := (goto_live hs3 hfresh3).mp hr.2
      simp only [Typed.Stmt.completes]
      obtain hu | ⟨-, halive, hc⟩ := h3.ways _ u (by omega) hu
      · obtain hu | ⟨halive, -, hdef⟩ := h2.ways _ u hu
        · exact absurd hu (hs1.noWay (by omega) u)
        · exact ⟨(h01.running halive).1, by rw [hdef (by omega)]; rfl⟩
      · refine ⟨(h01.running halive).1, ?_⟩
        obtain hc | ⟨-, hc⟩ := hc rfl
        · simp [hc]
        · simp [hc]
    · obtain hu | ⟨hlt, -⟩ := h3.ways k u (by omega) hu
      · obtain hu | ⟨-, hle, -⟩ := h2.ways k u hu
        · exact h01.ways k u hk hu
        · omega
      · omega
  | .leave, switches, inSwitch, d, hw, hs, _, he => by
    obtain ⟨d1, hb1, h1, ho1⟩ := reopen_passes hs switches.exit?
    obtain ⟨k, hexit⟩ := he.known hw
    have hfresh := (he.mono h1.toAdds).fresh k hexit
    refine ⟨d1.close (.jump k), by simp only [genStmt, hexit, hb1]; rfl,
      h1.trans (close_passes ho1 .jump rfl fun l hl => ?_)⟩
    obtain rfl : l = k := by simpa [Terminator.targets] using hl
    exact ⟨hexit, rfl, hfresh⟩
  | .ret value, switches, inSwitch, d, hw, hs, hk, _ => by
    obtain ⟨d1, hb1, h1, ho1⟩ := reopen_passes hs switches.exit?
    obtain ⟨d2, hrun, h2⟩ := leaveFunction_passes hp (h1.makes.sound hs) ho1 (hk.mono h1.makes)
      switches.exit? hw
    exact ⟨d2, by rw [genStmt, hb1, hrun], h1.trans h2⟩

theorem genList_passes {p : Typed.Program} (hp : p.signature = g) : ∀ (ss : List Typed.Stmt)
    {switches : Switches} {inSwitch : Bool} {d : Draft},
    ListWellTyped g slots returns inSwitch ss → d.Sound g returns → d.Knows slots →
    Exits switches inSwitch d →
    ∃ d', genList p switches d.b ss = .ok d'.b ∧
      Passes g returns switches.exit? (allComplete ss) (anyEscapes ss) d d'
  | [], switches, inSwitch, d, _, _, _, _ => ⟨d, rfl, .refl d⟩
  | s :: ss, switches, inSwitch, d, hw, hs, hk, he => by
    obtain ⟨d1, hrun1, h1⟩ := genStmt_passes hp s hw.1 hs hk he
    obtain ⟨d2, hrun2, h2⟩ := genList_passes hp ss hw.2 (h1.makes.sound hs) (hk.mono h1.makes)
      (he.mono h1.toAdds)
    exact ⟨d2, by simp only [genList, hrun1, hrun2], h1.trans h2⟩

theorem genCases_filled {p : Typed.Program} (hp : p.signature = g) : ∀ (cases : List Typed.Case)
    (switches : Switches) (first i n : Nat) (alive : Prop) {d : Draft}, i + cases.length = n →
    CasesWellTyped g slots returns cases → d.Sound g returns → d.Knows slots →
    Awaits first i n d →
    (∀ k u, first + i ≤ k → k ≤ first + n → (k, u) ∈ d.ways → alive) →
    ∃ d', genCases p (switches.push (.consecutive first n)) (.consecutive first n) i d.b cases =
        .ok d'.b ∧ Filled g returns first i n alive cases d d'
  | [], switches, first, i, n, alive, d, hn, _, _, _, hwait, _ => by
    simp only [List.length_nil, Nat.add_zero] at hn
    subst hn
    exact ⟨d, rfl, .refl, hwait.closed, fun _ _ he => .inl he, fun k h h' => by omega,
      fun k h h' => absurd h (Nat.not_le_of_lt h'), fun _ _ _ hu => .inl hu⟩
  | .mk label body :: cs, switches, first, i, n, alive, d, hn, hw, hs, hk, hwait, halive => by
    simp only [List.length_cons] at hn
    have hi : i < n := by omega
    have hroom := hwait.room
    -- the body of the case, in its own block
    have hop : Op g returns d (d.goto (first + i) []) := hwait.enter hi
    have hs0 := hop.sound hs
    have halive0 : (d.goto (first + i) []).Running → alive := fun hr => by
      obtain ⟨u, hu⟩ := (goto_live hs (hwait.fresh _ (Nat.le_refl _) (by omega))).mp hr.2
      exact halive _ u (Nat.le_refl _) (by omega) hu
    obtain ⟨d1, hbody, h1⟩ := genList_passes hp body hw.1 hs0 (hk.mono hop.makes)
      (hwait.exits hi switches)
    have hs1 := h1.makes.sound hs0
    have hlen1 : d.b.blocks.length ≤ d1.b.blocks.length := h1.toAdds.length
    have hways1 : ∀ k u, k < d.b.blocks.length → (k, u) ∈ d1.ways → (k, u) ∈ d.ways ∨
        k = first + n ∧ alive ∧ anyEscapes body = true := fun k u hk hu => by
      obtain hu | ⟨he, hr, hesc⟩ := h1.ways k u hk hu
      · exact .inl hu
      · obtain rfl : first + n = k := by simpa [Switches.exit?, Switches.push,
          Switches.innermost?, OpenSwitch.consecutive] using he
        exact .inr ⟨rfl, halive0 hr, hesc⟩
    have hrunning : d1.Running → alive ∧ allComplete body = true := fun hr =>
      (h1.running hr).imp_left halive0
    -- where control goes from its end
    have h2 := hwait.fallThrough h1.toAdds hi hs1
    have hs2 := h2.makes.sound hs1
    have hlen2 := fallThrough_length d1 (first + (i + 1))
    have hm2 : Makes g returns d (d1.fallThrough (first + (i + 1))) :=
      (hop.makes.trans h1.makes).trans h2.makes
    -- the cases behind it
    obtain ⟨d3, hrest, h3⟩ := genCases_filled hp cs switches first (i + 1) n alive (by omega) hw.2
      hs2 (hk.mono hm2) (hwait.next h1.toAdds hs1) (fun k u hk hk' hu => by
        obtain hu | ⟨-, hr⟩ := fallThrough_way hu
        · obtain hu | ⟨-, ha, -⟩ := hways1 k u (by omega) hu
          · exact halive k u (by omega) hk' hu
          · exact ha
        · exact (hrunning hr).1)
    refine ⟨d3, ?_, hm2.trans h3.makes, h3.closed, fun k hk he => ?_, fun k hk hk' => ?_,
      fun k hk hk' => ?_, fun k u hk hu => ?_⟩
    · rw [genCases, OpenSwitch.caseBlock_consecutive (by omega),
        show d.b.goto (first + i) = (d.goto (first + i) []).b from rfl, hbody]
      simp only [OpenSwitch.fallThrough_eq, OpenSwitch.caseBlock_consecutive
        (show i + 1 ≤ n by omega), ← fallThrough_b, hrest]
    · obtain he | he := h3.entered k (by omega) he
      · rw [fallThrough_entered] at he
        obtain he | he := List.mem_cons.mp (h1.entered k hk he)
        · exact .inr (by omega)
        · exact .inl he
      · exact .inr (by omega)
    · by_cases h : k = first + i
      · subst h
        exact h3.makes.entered (fallThrough_entered d1 _ ▸ h1.makes.entered List.mem_cons_self)
      · exact h3.filled k (by omega) hk'
    · by_cases h : k < d1.b.blocks.length
      · exact h3.makes.entered (fallThrough_entered d1 _ ▸ h1.complete k hk h)
      · exact h3.complete k (by omega) hk'
    · obtain hu | ⟨hlt, ha, hc⟩ := h3.ways k u (by omega) hu
      · obtain hu | ⟨rfl, hr⟩ := fallThrough_way hu
        · obtain hu | ⟨rfl, ha, hesc⟩ := hways1 k u hk hu
          · exact .inl hu
          · exact .inr ⟨by omega, ha, fun _ => .inl (by simp [Typed.Case.body, hesc])⟩
        · obtain ⟨ha, hc⟩ := hrunning hr
          refine .inr ⟨by omega, ha, fun he => .inr ⟨by simp, ?_⟩⟩
          obtain rfl : cs = [] := List.eq_nil_of_length_eq_zero (by omega)
          rw [lastCompletes, hc]
      · refine .inr ⟨by omega, ha, fun he => ?_⟩
        obtain hc | ⟨hne, hc⟩ := hc he
        · exact .inl (by simp [hc])
        · exact .inr ⟨by simp, by rw [lastCompletes_cons hne, hc]⟩

end

end Cascade.Codegen
