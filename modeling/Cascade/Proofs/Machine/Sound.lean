import Cascade.Proofs.Machine.Slots
import Cascade.Proofs.Machine.Visits
import Cascade.Proofs.Typed.Safe

/-!
# Cascade.Proofs.Machine.Sound

An invariant of all steps in a module that fits. Each active call holds what the certificate of its
function says, and those below the innermost wait for a result of the type that it gives.

* `FrameSound`, `Expects`: one call, and where it stands; `Below`: the calls that wait.
* `execInstr_sound`, `execTerm_sound`: one instruction, one terminator.
* `step_sound`: a step leads to a sound state, or it ends the call in an allowed way.
-/

namespace Cascade.Machine

open Code
open Typed (HasTy)

/-- A call of a function has its window below `top`, and what it holds has its type. -/
structure FrameSound (m : Module) (g : Signature) (c : Slots) (top : Nat) (fr : Frame)
    (w : List Nat) (f : Function) (cert : Certificate) : Prop where
  found : m.functions[fr.function]? = some f
  trim : f.Trim
  fits : f.Fits g cert
  leads : f.Leads f.entry fr.block
  start : fr.registers = fr.base + f.locals.length
  extent : fr.registers + f.registers = top
  typed : FrameTyped f cert.types c fr w

/-- Where a call goes on, no more registers are taken to be written than some that are. -/
def Expects (f : Function) (cert : Certificate) (fr : Frame) (w : List Nat) : Prop :=
  ∃ b, f.block? fr.block = some b ∧
    afterCode (cert.starts fr.block) (b.code.take fr.next) ⊆ w

/-- The calls below one that ends at `top`, gives back a value of a type `t` and hands it over to
`dest`. The outermost call has to give a value of the type `result`. -/
inductive Below (m : Module) (g : Signature) (c : Slots) (result : Ty) :
    Nat → Option Register → Ty → List Frame → List (List Nat) → Prop where
  | none {top : Nat} : Below m g c result top none result [] []
  | call {top : Nat} {dest : Option Register} {t : Ty} {fr : Frame} {rest : List Frame}
      {w : List Nat} {ws : List (List Nat)} {f : Function} {cert : Certificate} :
      FrameSound m g c top fr w f cert → Expects f cert fr (arrived dest w) →
      (∀ d, dest = some d → (f.scheme g cert).Declares d ∧ d.ty = t ∧ t ≠ .void) →
      Below m g c result fr.base fr.dest f.returns rest ws →
      Below m g c result top dest t (fr :: rest) (w :: ws)

/-- The invariant. -/
inductive Sound (m : Module) (g : Signature) (result : Ty) :
    State Lines → List (List Nat) → Prop where
  | intro {c : Slots} {fr : Frame} {rest : List Frame} {fields : List Scalar}
      {output : Array String} {steps : Nat} {w : List Nat} {ws : List (List Nat)} {f : Function}
      {cert : Certificate} : fields.map Scalar.ty = g.fields →
      FrameSound m g c c.top fr w f cert → Expects f cert fr w →
      Below m g c result fr.base fr.dest f.returns rest ws →
      Sound m g result ⟨c, fr :: rest, fields, output, steps⟩ (w :: ws)

/-- The faults that a run of compiled code may end with. -/
def Fault.Allowed (e : Fault) : Prop := (∃ depth, e = .stackOverflow depth) ∨ e = .divisionByZero

/-- A step leads to a sound state, or the outermost call returns a value of the right type, or there
is an allowed fault. -/
inductive Outcome.Sound (m : Module) (g : Signature) (result : Ty) (written : List (List Nat)) :
    Outcome Lines → Prop where
  | next {s : State Lines} : Machine.Sound m g result s written → Sound m g result written (.next s)
  | done {v : Option Scalar} {s : State Lines} : HasTy v result → s.frames = [] →
      s.fields.map Scalar.ty = g.fields → Sound m g result written (.done v s)
  | fault {e : Fault} {s : State Lines} : e.Allowed → s.fields.map Scalar.ty = g.fields →
      Sound m g result written (.fault e s)

variable {m : Module} {g : Signature} {result : Ty} {c c' : Slots} {top : Nat} {fr : Frame}
variable {rest : List Frame} {w : List Nat} {ws : List (List Nat)} {f : Function}
variable {cert : Certificate}

/-! ## Windows -/

theorem register_lt (h : f.Fits g cert) {j : Nat} {t : Ty} (hj : cert.types[j]? = some t) :
    j < f.registers := by
  rw [← h.types]
  exact (List.getElem?_eq_some_iff.mp hj).1

theorem FrameSound.mono (h : FrameSound m g c top fr w f cert)
    (hkeep : ∀ i, i < top → c'.cells[i]? = c.cells[i]?) :
    FrameSound m g c' top fr w f cert := by
  refine ⟨h.found, h.trim, h.fits, h.leads, h.start, h.extent, ⟨fun i l hl => ?_, fun j hj => ?_⟩⟩
  · obtain ⟨v, hv, hty⟩ := h.typed.locals i l hl
    have hi := (List.getElem?_eq_some_iff.mp hl).1
    have hstart := h.start
    have hextent := h.extent
    exact ⟨v, (hkeep _ (by omega)).trans hv, hty⟩
  · obtain ⟨v, hv, hty⟩ := h.typed.registers j hj
    have hlt := register_lt h.fits hty
    have hextent := h.extent
    exact ⟨v, (hkeep _ (by omega)).trans hv, hty⟩

theorem Below.mono {dest : Option Register} {t : Ty} (h : Below m g c result top dest t rest ws)
    (hkeep : ∀ i, i < top → c'.cells[i]? = c.cells[i]?) :
    Below m g c' result top dest t rest ws := by
  induction h with
  | none => exact .none
  | @call top dest t fr rest w ws f cert hfr hexp hdest _ ih =>
    have hstart := hfr.start
    have hextent := hfr.extent
    refine .call (hfr.mono hkeep) hexp hdest (ih fun i hi => hkeep i ?_)
    omega

/-- A call may go on at another place that control gets to. -/
theorem FrameSound.move (h : FrameSound m g c top fr w f cert) {k : BlockId}
    (hk : f.Leads f.entry k) (n : Nat) :
    FrameSound m g c top ⟨fr.function, k, n, fr.base, fr.registers, fr.dest⟩ w f cert :=
  ⟨h.found, h.trim, h.fits, hk, h.start, h.extent, h.typed.locals, h.typed.registers⟩

theorem FrameSound.write (h : FrameSound m g c top fr w f cert) (htop : top ≤ c.top) {d : Register}
    (hd : (f.scheme g cert).Declares d) {v : Scalar} (hv : v.ty = d.ty) :
    FrameSound m g (c.put (fr.registers + d.id) v) top fr (d.id :: w) f cert := by
  have hstart := h.start
  have hextent := h.extent
  have hd : cert.types[d.id]? = some d.ty := hd
  have hlt := register_lt h.fits hd
  refine ⟨h.found, h.trim, h.fits, h.leads, h.start, h.extent, ⟨fun i l hl => ?_, fun j hj => ?_⟩⟩
  · have hi := (List.getElem?_eq_some_iff.mp hl).1
    rw [Slots.put_ne (by omega)]
    exact h.typed.locals i l hl
  · by_cases he : j = d.id
    · subst he
      exact ⟨v, Slots.put_self (by omega) v, by rw [hd, hv]⟩
    · rw [Slots.put_ne (by omega)]
      exact h.typed.registers j ((List.mem_cons.mp hj).resolve_left he)

theorem FrameSound.assign (h : FrameSound m g c top fr w f cert) (htop : top ≤ c.top) {n : Nat}
    {v : Scalar} (hn : (f.scheme g cert).locals[n]? = some v.ty) :
    FrameSound m g (c.put (fr.base + n) v) top fr w f cert := by
  have hstart := h.start
  have hextent := h.extent
  obtain ⟨l, hl, hty⟩ : ∃ l, f.locals[n]? = some l ∧ l.ty = v.ty := by
    simpa [Function.scheme] using hn
  have hlt := (List.getElem?_eq_some_iff.mp hl).1
  refine ⟨h.found, h.trim, h.fits, h.leads, h.start, h.extent, ⟨fun i l' hl' => ?_, fun j hj => ?_⟩⟩
  · by_cases he : n = i
    · subst he
      obtain rfl : l = l' := Option.some.inj (hl.symm.trans hl')
      exact ⟨v, Slots.put_self (by omega) v, hty.symm⟩
    · rw [Slots.put_ne (by omega)]
      exact h.typed.locals i l' hl'
  · rw [Slots.put_ne (by omega)]
    exact h.typed.registers j hj

theorem FrameSound.read (h : FrameSound m g c top fr w f cert) {r : Register}
    (hr : (f.scheme g cert).Has w r) : ∃ v, fr.read c r = .ok v ∧ v.ty = r.ty := by
  obtain ⟨v, hv, hty⟩ := h.typed.registers r.id hr.2
  have hd : cert.types[r.id]? = some r.ty := hr.1
  exact ⟨v, Slots.get_ok hv, Option.some.inj (hty.symm.trans hd)⟩

theorem FrameSound.slot (h : FrameSound m g c top fr w f cert) {n : Nat} {t : Ty}
    (hn : (f.scheme g cert).locals[n]? = some t) :
    ∃ v, c.get (fr.base + n) = .ok v ∧ v.ty = t := by
  obtain ⟨l, hl, rfl⟩ : ∃ l, f.locals[n]? = some l ∧ l.ty = t := by
    simpa [Function.scheme] using hn
  obtain ⟨v, hv, hty⟩ := h.typed.locals n l hl
  exact ⟨v, Slots.get_ok hv, hty⟩

/-! ## Instructions -/

/-- Behind an instruction, its own register is written as well. -/
theorem Expects.advance {b : Block} (hblk : f.block? fr.block = some b) {i : Instr}
    (hi : b.code[fr.next]? = some i)
    (hexp : afterCode (cert.starts fr.block) (b.code.take fr.next) ⊆ w) :
    Expects f cert fr.advance (arrived i.dest? w) := by
  refine ⟨b, hblk, ?_⟩
  show afterCode (cert.starts fr.block) (b.code.take (fr.next + 1)) ⊆ _
  rw [List.take_add_one, hi, Option.toList_some, afterCode_append]
  unfold Instr.after arrived
  cases i.dest? with
  | none => exact hexp
  | some d => exact List.cons_subset_cons d.id hexp

section

variable {fields : List Scalar} {output : Array String} {steps : Nat}

theorem write_sound (hworld : fields.map Scalar.ty = g.fields)
    (h : FrameSound m g c c.top fr w f cert) {d : Register} (hexp : Expects f cert fr (d.id :: w))
    (hb : Below m g c result fr.base fr.dest f.returns rest ws)
    (hd : (f.scheme g cert).Declares d) {v : Scalar} (hv : v.ty = d.ty) :
    (store ⟨c, fr :: rest, fields, output, steps⟩ (fr.registers + d.id) v).Sound m g result
      ((d.id :: w) :: ws) := by
  have hstart := h.start
  have hextent := h.extent
  have hlt := register_lt h.fits hd
  have htop : fr.registers + d.id < c.top := by omega
  rw [store, if_pos htop]
  refine .next (.intro hworld ?_ hexp (hb.mono fun i hi => Slots.put_ne (by omega) v))
  rw [Slots.put_top]
  exact h.write (Nat.le_refl _) hd hv

theorem assign_sound (hworld : fields.map Scalar.ty = g.fields)
    (h : FrameSound m g c c.top fr w f cert) (hexp : Expects f cert fr w)
    (hb : Below m g c result fr.base fr.dest f.returns rest ws) {n : Nat} {v : Scalar}
    (hn : (f.scheme g cert).locals[n]? = some v.ty) :
    (store ⟨c, fr :: rest, fields, output, steps⟩ (fr.base + n) v).Sound m g result
      (w :: ws) := by
  have hstart := h.start
  have hextent := h.extent
  have hlt : n < f.locals.length := by
    simpa [Function.scheme] using (List.getElem?_eq_some_iff.mp hn).1
  have htop : fr.base + n < c.top := by omega
  rw [store, if_pos htop]
  refine .next (.intro hworld ?_ hexp (hb.mono fun i hi => Slots.put_ne (by omega) v))
  rw [Slots.put_top]
  exact h.assign (Nat.le_refl _) hn

theorem push_sound (hm : m.Fits g) (limits : Limits) {s : State Lines} {j : FunctionId}
    {dest : Option Register} (hj : m.functions[j]? = some f)
    (hworld : s.fields.map Scalar.ty = g.fields)
    (hb : Below m g s.slots result s.slots.top dest f.returns s.frames ws) :
    (∃ depth, s.push m limits j dest = .error (.stackOverflow depth, s)) ∨
      ∃ s', s.push m limits j dest = .ok s' ∧ Sound m g result s' ([] :: ws) := by
  obtain ⟨htrim, cert, hfits⟩ := hm.functions f (List.mem_of_getElem? hj)
  obtain hpush | ⟨-, c, hc, hpush⟩ := State.push_cases limits s dest hj hfits.locals
  · exact .inl ⟨_, hpush⟩
  have hframe : FrameSound m g c c.top
      ⟨j, f.entry, 0, s.slots.top, s.slots.top + f.locals.length, dest⟩ [] f cert := by
    refine ⟨hj, htrim, hfits, .refl, rfl, ?_, ⟨fun i l hl => ?_, fun j hj => by cases hj⟩⟩
    · rw [hc.top]
      exact Nat.add_assoc _ _ _
    · obtain ⟨z, hz⟩ := Scalar.zero?_isSome (hfits.locals l (List.mem_of_getElem? hl))
      exact ⟨z, (hc.zeros i l hl).trans hz, Scalar.ty_zero? hz⟩
  refine .inr ⟨_, hpush, .intro hworld hframe ?_ (hb.mono hc.keeps)⟩
  obtain ⟨b, hblk, -⟩ := hfits.block f.entry .refl
  refine ⟨b, hblk, ?_⟩
  show afterCode (cert.starts f.entry) (b.code.take 0) ⊆ []
  rw [hfits.entry, List.take_zero]
  exact List.Subset.refl _

theorem call_sound (hm : m.Fits g) (limits : Limits) (hworld : fields.map Scalar.ty = g.fields)
    (h : FrameSound m g c c.top fr w f cert) {dest : Option Register} {j : FunctionId} {t : Ty}
    (hj : g.methods[j]? = some t)
    (hdest : ∀ d, dest = some d → (f.scheme g cert).Declares d ∧ d.ty = t ∧ t ≠ .void)
    (hexp : Expects f cert fr (arrived dest w))
    (hb : Below m g c result fr.base fr.dest f.returns rest ws) (fr₀ : Frame) :
    (execInstr m limits ⟨c, fr :: rest, fields, output, steps⟩ fr₀ (.call dest j)).Sound m g
      result ([] :: w :: ws) := by
  obtain ⟨callee, hcallee, hret⟩ := hm.methods hj
  obtain ⟨depth, hpush⟩ | ⟨s', hpush, hs'⟩ := push_sound hm limits
    (s := ⟨c, fr :: rest, fields, output, steps⟩) hcallee hworld
    (.call h hexp (hret ▸ hdest) hb)
  · simp only [execInstr, hpush]
    exact .fault (.inl ⟨depth, rfl⟩) hworld
  · simp only [execInstr, hpush]
    exact .next hs'

/-- One instruction of the innermost call, which has gone on behind it. -/
theorem execInstr_sound (hm : m.Fits g) (limits : Limits)
    (hworld : fields.map Scalar.ty = g.fields) (h : FrameSound m g c c.top fr w f cert) {i : Instr}
    (hi : i.Fits (f.scheme g cert) w) (hexp : Expects f cert fr.advance (arrived i.dest? w))
    (hb : Below m g c result fr.base fr.dest f.returns rest ws) :
    (execInstr m limits ⟨c, fr.advance :: rest, fields, output, steps⟩ fr i).Sound m g result
      (notedInstr w ws i) := by
  have h' : FrameSound m g c c.top fr.advance w f cert := h.move h.leads _
  cases hi with
  | const hd hv => exact write_sound hworld h' hexp hb hd hv
  | @binary d l r op hd hl hr hlr hty =>
    obtain ⟨x, hx, htx⟩ := h.read hl
    obtain ⟨y, hy, hty'⟩ := h.read hr
    have hxy : x.ty = y.ty := htx.trans (hlr.trans hty'.symm)
    simp only [execInstr, hx, hy]
    cases hv : Scalar.binary op x y with
    | error e =>
      rw [Scalar.binary_error hxy hv]
      exact .fault (.inr rfl) hworld
    | ok v =>
      refine write_sound hworld h' hexp hb hd ?_
      rw [(Scalar.ty_binary hv).2, htx, hty]
  | @unary d r op hd hr hty =>
    obtain ⟨x, hx, htx⟩ := h.read hr
    simp only [execInstr, hx]
    refine write_sound hworld h' hexp hb hd ?_
    rw [Scalar.ty_unary, htx, hty]
  | @convert d r hd hr hn =>
    obtain ⟨x, hx, htx⟩ := h.read hr
    obtain ⟨y, hy⟩ := x.convert_isSome hn
    simp only [execInstr, hx, hy]
    exact write_sound hworld h' hexp hb hd (Scalar.ty_convert hy)
  | @loadLocal d n hd hn =>
    obtain ⟨v, hv, hty⟩ := h.slot hn
    simp only [execInstr, hv]
    exact write_sound hworld h' hexp hb hd hty
  | @storeLocal n r hr hn =>
    obtain ⟨v, hv, hty⟩ := h.read hr
    simp only [execInstr, hv]
    exact assign_sound hworld h' hexp hb (by rw [hty]; exact hn)
  | @loadField d k hd hk =>
    obtain ⟨v, hv, hty⟩ : ∃ v, fields[k]? = some v ∧ v.ty = d.ty := by
      have hk : g.fields[k]? = some d.ty := hk
      rw [← hworld] at hk
      simpa using hk
    simp only [execInstr, hv]
    exact write_sound hworld h' hexp hb hd hty
  | @storeField k r hr hk =>
    obtain ⟨v, hv, hty⟩ := h.read hr
    have hk : g.fields[k]? = some r.ty := hk
    have hlt : k < fields.length := by
      rw [← hworld] at hk
      simpa using (List.getElem?_eq_some_iff.mp hk).1
    simp only [execInstr, hv, hlt, if_true]
    refine .next (.intro ?_ h' hexp hb)
    rw [← hworld]
    exact Typed.map_ty_set (by rw [hworld, hty]; exact hk)
  | callVoid hj =>
    exact call_sound hm limits hworld h' hj (fun d hd => by cases hd) hexp hb fr
  | callValue hd hj hv =>
    refine call_sound hm limits hworld h' hj (fun d' hd' => ?_) hexp hb fr
    cases hd'
    exact ⟨hd, rfl, hv⟩
  | @print r hr =>
    obtain ⟨v, hv, -⟩ := h.read hr
    simp only [execInstr, Frame.read?, hv]
    exact .next (.intro hworld h' hexp hb)
  | printBlank => exact .next (.intro hworld h' hexp hb)

/-! ## Terminators -/

/-- Control gets to the targets of a block, and there no more is taken to be written. -/
theorem Expects.goes (h : FrameSound m g c top fr w f cert) {b : Block}
    (hblk : f.block? fr.block = some b)
    (hexp : afterCode (cert.starts fr.block) b.code ⊆ w) {k : Nat} (hk : k ∈ b.term.targets) :
    f.Leads f.entry k ∧
      Expects f cert ⟨fr.function, k, 0, fr.base, fr.registers, fr.dest⟩ w := by
  have hleads : f.Leads f.entry k := h.leads.step (by rw [Function.successors, hblk]; exact hk)
  obtain ⟨b', hblk', hfits⟩ := h.fits.block fr.block h.leads
  obtain rfl : b = b' := Option.some.inj (hblk.symm.trans hblk')
  obtain ⟨bk, hbk, -⟩ := h.fits.block k hleads
  refine ⟨hleads, bk, hbk, ?_⟩
  rw [List.take_zero]
  exact List.Subset.trans (hfits.targets k hk) hexp

theorem leave_sound (hworld : fields.map Scalar.ty = g.fields) (htop : fr.base ≤ c.top) {t : Ty}
    (hb : Below m g c result fr.base fr.dest t rest ws) {v : Option Scalar} (hv : HasTy v t)
    (frames : List Frame) (name : String) (r : Option Register) :
    (leave ⟨c, frames, fields, output, steps⟩ fr rest name v).Sound m g result
      (notedTerm fr.dest w ws (.ret r)) := by
  obtain ⟨function, block, next, base, registers, dest⟩ := fr
  dsimp only at htop hb ⊢
  cases hb with
  | none => exact .done hv rfl hworld
  | @call _ _ _ caller rest u us f cert hfr hexp hdest hb =>
    have hstart := hfr.start
    have hextent := hfr.extent
    have hfree : FrameSound m g (c.free base) (c.free base).top caller u f cert := by
      rw [Slots.free_top htop]
      exact hfr.mono fun i hi => Slots.free_below hi htop
    have hbelow : Below m g (c.free base) result caller.base caller.dest f.returns rest us :=
      hb.mono fun i hi => Slots.free_below (by omega) htop
    cases dest with
    | none => exact .next (.intro hworld hfree hexp hbelow)
    | some d =>
      obtain ⟨hd, hty, hne⟩ := hdest d rfl
      obtain ⟨x, rfl⟩ := hv.eq_some hne
      have hx : x.ty = t := hv
      exact write_sound hworld hfree hexp hbelow hd (hx.trans hty.symm)

theorem execTerm_sound (hworld : fields.map Scalar.ty = g.fields)
    (h : FrameSound m g c c.top fr w f cert) {b : Block} (hblk : f.block? fr.block = some b)
    (hexp : afterCode (cert.starts fr.block) b.code ⊆ w)
    (hb : Below m g c result fr.base fr.dest f.returns rest ws) :
    (execTerm ⟨c, fr :: rest, fields, output, steps⟩ fr rest f b.term).Sound m g result
      (notedTerm fr.dest w ws b.term) := by
  obtain ⟨b', hblk', hfits⟩ := h.fits.block fr.block h.leads
  obtain rfl : b = b' := Option.some.inj (hblk.symm.trans hblk')
  have ht := hfits.term.mono (.refl _) hexp
  have hjump : ∀ k : Nat, k ∈ b.term.targets →
      (jump ⟨c, fr :: rest, fields, output, steps⟩ fr rest k).Sound m g result (w :: ws) := by
    intro k hk
    obtain ⟨hleads, hgo⟩ := Expects.goes h hblk hexp hk
    exact .next (.intro hworld (h.move hleads 0) hgo hb)
  have htop : fr.base ≤ c.top := by
    have hstart := h.start
    have hextent := h.extent
    omega
  generalize b.term = t at ht hjump ⊢
  cases ht with
  | jump => exact hjump _ (List.mem_singleton.mpr rfl)
  | @branch r yes no hr =>
    obtain ⟨v, hv, -⟩ := h.read hr
    simp only [execTerm, hv]
    refine hjump _ ?_
    cases v.isTrue with
    | true => exact List.mem_cons_self
    | false => exact List.mem_cons_of_mem _ List.mem_cons_self
  | @switch r cases otherwise hr hi _ =>
    obtain ⟨v, hv, hty⟩ := h.read hr
    obtain ⟨n, hn⟩ := Scalar.toInt?_isSome (hty ▸ hi)
    simp only [execTerm, hv, hn]
    exact hjump _ (selectCase_mem n cases otherwise)
  | retNone hvoid =>
    exact leave_sound hworld htop hb (show HasTy none f.returns from hvoid) _ f.name none
  | @retSome r hr hty _ =>
    obtain ⟨v, hv, hvty⟩ := h.read hr
    simp only [execTerm, Frame.read?, hv]
    exact leave_sound hworld htop hb (show HasTy (some v) f.returns from hvty.trans hty) _ f.name
      (some r)

end

/-! ## Steps -/

theorem step_sound (hm : m.Fits g) (limits : Limits) {s : State Lines} {written : List (List Nat)}
    (h : Sound m g result s written) :
    (step m limits s).Sound m g result (noted m s written) := by
  cases h with
  | @intro c fr rest fields output steps w ws f cert hworld hfr hexp hb =>
    obtain ⟨b, hblk, hexp⟩ := hexp
    obtain ⟨b', hblk', hfits⟩ := hfr.fits.block fr.block hfr.leads
    obtain rfl : b = b' := Option.some.inj (hblk.symm.trans hblk')
    cases hi : b.code[fr.next]? with
    | some i =>
      have hstep : step m limits ⟨c, fr :: rest, fields, output, steps⟩ =
          execInstr m limits ⟨c, fr.advance :: rest, fields, output, steps + 1⟩ fr i := by
        simp only [step, hfr.found, hblk, hi]
      have hnoted : noted m ⟨c, fr :: rest, fields, output, steps⟩ (w :: ws) =
          notedInstr w ws i := by
        simp only [noted, next?, hfr.found, hblk, hi]
      rw [hstep, hnoted]
      exact execInstr_sound hm limits hworld hfr ((hfits.code.get hi).mono (.refl _) hexp)
        (Expects.advance hblk hi hexp) hb
    | none =>
      have hstep : step m limits ⟨c, fr :: rest, fields, output, steps⟩ =
          execTerm ⟨c, fr :: rest, fields, output, steps + 1⟩ fr rest f b.term := by
        simp only [step, hfr.found, hblk, hi]
      have hnoted : noted m ⟨c, fr :: rest, fields, output, steps⟩ (w :: ws) =
          notedTerm fr.dest w ws b.term := by
        simp only [noted, next?, hfr.found, hblk, hi]
      rw [hstep, hnoted]
      rw [List.take_of_length_le (List.getElem?_eq_none_iff.mp hi)] at hexp
      exact execTerm_sound hworld hfr hblk hexp hb

end Cascade.Machine
