import Cascade.Proofs.Simulation.Activation

/-!
# Cascade.Proofs.Simulation.Ops

What the machine does on the code of single operations.

* `Given`: the call has got to where a value is in a register; registers of earlier values keep
  theirs.
* One lemma for each operation, from a builder before its code to the one behind it.
* `call_follows`: a call, where calls of methods do what they should (`CallsFollow`).
-/

namespace Cascade.Simulation

open Code Machine
open Codegen (Builder)
open Typed (Answer World Memory Calls CallsSafe HasTy)

variable {A : Activation} {m : Module} {limits : Limits} {b : Builder} {s : State Lines}
    {μ : Memory}

/-- From state `s` at builder `b`, the call has got to where a register holds a value. -/
structure Given (A : Activation) (b : Builder) (rb : Register × Builder) (s : State Lines)
    (v : Scalar) (μ : Memory) (s' : State Lines) : Prop where
  stands : Stands A rb.2 s' μ
  kept : Kept A b.registers s s'
  holds : Holds A s' rb.1.id v

/-- The same where there may be no value. -/
structure Evaluated (A : Activation) (b : Builder) (rb : Option Register × Builder)
    (s : State Lines) (x : Option Scalar × Memory) (s' : State Lines) : Prop where
  stands : Stands A rb.2 s' x.2
  kept : Kept A b.registers s s'
  holds : ∀ v, x.1 = some v → ∃ r, rb.1 = some r ∧ Holds A s' r.id v

theorem Given.after {b' : Builder} {rb : Register × Builder} {s' s'' : State Lines} {v : Scalar}
    (hk : Kept A b.registers s s') (hle : b.registers ≤ b'.registers)
    (h : Given A b' rb s' v μ s'') : Given A b rb s v μ s'' :=
  ⟨h.stands, hk.trans hle h.kept, h.holds⟩

theorem Evaluated.after {b' : Builder} {rb : Option Register × Builder} {s' s'' : State Lines}
    {x : Option Scalar × Memory} (hk : Kept A b.registers s s') (hle : b.registers ≤ b'.registers)
    (h : Evaluated A b' rb s' x s'') : Evaluated A b rb s x s'' :=
  ⟨h.stands, hk.trans hle h.kept, h.holds⟩

theorem Given.evaluated {rb : Register × Builder} {s' : State Lines} {v : Scalar}
    (h : Given A b rb s v μ s') : Evaluated A b (Codegen.valued rb) s (some v, μ) s' :=
  ⟨h.stands, h.kept, fun w hw => by cases hw; exact ⟨_, rfl, h.holds⟩⟩

theorem write_given (limits : Limits) (hA : A.Of m) (h : Stands A b s μ) {ty : Ty} {i : Instr}
    {v : Scalar} (hb : ((b.newRegister ty).2.emit i).Extends A.builder)
    (hexec : ∀ k n, execInstr m limits (A.state k (n + 1) s.slots μ.world (s.steps + 1))
      (A.frame k n) i = writeNext (A.state k (n + 1) s.slots μ.world (s.steps + 1))
        (A.frame k n) ⟨b.registers, ty⟩ v) :
    ∃ s', Steps m limits s s' ∧
      Given A b (⟨b.registers, ty⟩, (b.newRegister ty).2.emit i) s v μ s' := by
  obtain ⟨s', hstep, hs', hkept, hholds⟩ := h.write limits hA hb hexec
  exact ⟨s', .single hstep, hs', hkept, hholds⟩

theorem constant_given (limits : Limits) (hA : A.Of m) (h : Stands A b s μ) {v : Scalar}
    (hb : (b.constant v).2.Extends A.builder) :
    ∃ s', Steps m limits s s' ∧ Given A b (b.constant v) s v μ s' :=
  write_given limits hA h hb fun _ _ => rfl

theorem load_given (limits : Limits) (hA : A.Of m) (h : Stands A b s μ) (ty : Ty)
    {place : Typed.Place} {v : Scalar} (hv : μ.read place = some v)
    (hb : (Codegen.load b place ty).2.Extends A.builder) :
    ∃ s', Steps m limits s s' ∧ Given A b (Codegen.load b place ty) s v μ s' := by
  obtain ⟨_, _, hat⟩ := id h
  cases place with
  | slot n =>
    have hget : s.slots.get (A.base + n) = .ok v :=
      Slots.get_ok (hat.window.locals n v hv)
    refine write_given limits hA h hb fun k n => ?_
    simp only [execInstr, Activation.state, Activation.frame, hget]
    rfl
  | field f =>
    have hget : μ.world.fields[f]? = some v := hv
    refine write_given limits hA h hb fun k n => ?_
    simp only [execInstr, Activation.state, hget]
    rfl

theorem convert_given (limits : Limits) (hA : A.Of m) (h : Stands A b s μ) {r : Register} {ty : Ty}
    (hne : r.ty ≠ ty) {v w : Scalar} (hr : Holds A s r.id v) (hw : v.convert ty = some w)
    (hb : (Codegen.convert b r ty).2.Extends A.builder) :
    ∃ s', Steps m limits s s' ∧ Given A b (Codegen.convert b r ty) s w μ s' := by
  unfold Codegen.convert at hb ⊢
  rw [if_neg hne] at hb ⊢
  refine write_given limits hA h hb fun k n => ?_
  simp only [execInstr, Activation.state, hr.read, Builder.newRegister, hw]

theorem unary_given (limits : Limits) (hA : A.Of m) (h : Stands A b s μ) {op : UnaryOp}
    {r : Register} {ty : Ty} {v : Scalar} (hr : Holds A s r.id v)
    (hb : ((b.newRegister ty).2.emit (.unary ⟨b.registers, ty⟩ op r)).Extends A.builder) :
    ∃ s', Steps m limits s s' ∧ Given A b (⟨b.registers, ty⟩,
      (b.newRegister ty).2.emit (.unary ⟨b.registers, ty⟩ op r)) s (Scalar.unary op v) μ s' := by
  refine write_given limits hA h hb fun k n => ?_
  simp only [execInstr, Activation.state, hr.read]

theorem binary_given (limits : Limits) (hA : A.Of m) (h : Stands A b s μ) {op : BinaryOp}
    {l r : Register} {ty : Ty} {x y v : Scalar} (hl : Holds A s l.id x) (hr : Holds A s r.id y)
    (hv : Scalar.binary op x y = .ok v)
    (hb : ((b.newRegister ty).2.emit (.binary ⟨b.registers, ty⟩ op l r)).Extends A.builder) :
    ∃ s', Steps m limits s s' ∧ Given A b (⟨b.registers, ty⟩,
      (b.newRegister ty).2.emit (.binary ⟨b.registers, ty⟩ op l r)) s v μ s' := by
  refine write_given limits hA h hb fun k n => ?_
  simp only [execInstr, Activation.state, hl.read, hr.read, hv]

theorem binary_divides (hA : A.Of m) (h : Stands A b s μ) {op : BinaryOp} {d l r : Register}
    {x y : Scalar} (hl : Holds A s l.id x) (hr : Holds A s r.id y)
    (hv : Scalar.binary op x y = .error .divisionByZero)
    (hb : (b.emit (.binary d op l r)).Extends A.builder) : Divides m limits s μ.world := by
  obtain ⟨n, hstep, -⟩ := h.emit limits hA hb
  simp only [execInstr, Activation.state, hl.read, hr.read, hv] at hstep
  refine ⟨_, .fault hstep, ?_⟩
  unfold State.unwind
  split
  · exact ⟨rfl, rfl⟩
  · exact ⟨rfl, rfl⟩

/-! ## Stores and lines -/

theorem storeLocal_stands (limits : Limits) (hA : A.Of m) (h : Stands A b s μ) {i : Nat}
    {r : Register} {v : Scalar} (hr : Holds A s r.id v) (hi : i < A.code.locals.length)
    (hb : (b.emit (.storeLocal i r)).Extends A.builder) (count : Nat) :
    ∃ s', Steps m limits s s' ∧ Stands A (b.emit (.storeLocal i r)) s' (μ.write (.slot i) v) ∧
      Kept A count s s' ∧ s'.slots.cells[A.base + i]? = some v := by
  obtain ⟨n, hstep, hnext⟩ := h.emit limits hA hb
  obtain ⟨_, _, hat⟩ := h
  have htop : A.base + i < s.slots.top := by
    rw [hat.window.top]
    unfold Activation.registers
    omega
  refine ⟨_, .single ?_, hnext _ (μ.write (.slot i) v) (s.steps + 1) (hat.window.putLocal hi v),
    ?_, Slots.put_self htop v⟩
  · rw [hstep]
    simp only [execInstr, Activation.state, hr.read]
    exact if_pos htop
  · intro j w hj hw
    refine (Slots.put_ne ?_ v).trans hw
    unfold Activation.registers
    omega

theorem store_stands (limits : Limits) (hA : A.Of m) (h : Stands A b s μ) {place : Typed.Place}
    {r : Register} {old v : Scalar} (hold : μ.read place = some old) (hr : Holds A s r.id v)
    (hb : (Codegen.store b place r).Extends A.builder) (count : Nat) :
    ∃ s', Steps m limits s s' ∧ Stands A (Codegen.store b place r) s' (μ.write place v) ∧
      Kept A count s s' := by
  obtain ⟨_, _, hat⟩ := id h
  cases place with
  | slot i =>
    have hlt : i < μ.locals.length := (List.getElem?_eq_some_iff.mp hold).1
    obtain ⟨s', hs, hs', hk, -⟩ :=
      storeLocal_stands limits hA h hr (Nat.lt_of_lt_of_le hlt hat.window.named) hb count
    exact ⟨s', hs, hs', hk⟩
  | field f =>
    have hlt : f < μ.world.fields.length := (List.getElem?_eq_some_iff.mp hold).1
    obtain ⟨n, hstep, hnext⟩ := Stands.emit limits hA h hb
    refine ⟨_, .single ?_, hnext s.slots (μ.write (.field f) v) (s.steps + 1) hat.window,
      .of_slots rfl count⟩
    rw [hstep]
    simp only [execInstr, Activation.state, hr.read]
    exact if_pos hlt

theorem print_stands (limits : Limits) (hA : A.Of m) (h : Stands A b s μ) {value : Option Register}
    {v : Option Scalar} (hread : ∀ k n, (A.frame k n).read? s.slots value = .ok v)
    (hb : (b.emit (.print value)).Extends A.builder) (count : Nat) :
    ∃ s', Steps m limits s s' ∧ Stands A (b.emit (.print value)) s' (μ.print (lineText v)) ∧
      Kept A count s s' := by
  obtain ⟨n, hstep, hnext⟩ := h.emit limits hA hb
  obtain ⟨_, _, hat⟩ := h
  refine ⟨_, .single ?_, hnext s.slots (μ.print (lineText v)) (s.steps + 1) hat.window,
    .of_slots rfl count⟩
  rw [hstep]
  simp only [execInstr, Activation.state, hread]
  rfl

theorem Holds.read? {r : Register} {v : Scalar} (h : Holds A s r.id v) (k n : Nat) :
    (A.frame k n).read? s.slots (some r) = .ok (some v) := by
  simp only [Frame.read?, h.read]

/-! ## Adding to a place -/

theorem load_isClosed (b : Builder) (place : Typed.Place) (ty : Ty) :
    (Codegen.load b place ty).2.isClosed = b.isClosed := by
  cases place with
  | slot n => exact Builder.isClosed_emit _ _
  | field f => exact Builder.isClosed_emit _ _

theorem load_register (b : Builder) (place : Typed.Place) (ty : Ty) :
    (Codegen.load b place ty).1 = ⟨b.registers, ty⟩ ∧
      (Codegen.load b place ty).2.registers = b.registers + 1 := by
  cases place with
  | slot n => exact ⟨rfl, rfl⟩
  | field f => exact ⟨rfl, rfl⟩

theorem store_extends (hopen : b.isClosed = false) (place : Typed.Place) (r : Register) :
    b.Extends (Codegen.store b place r) := by
  cases place with
  | slot n => exact Builder.emit_extends hopen _
  | field f => exact Builder.emit_extends hopen _

theorem step_given (limits : Limits) (hA : A.Of m) (h : Stands A b s μ) (hopen : b.isClosed = false)
    {place : Typed.Place} {ty : Ty} {delta : Int} {before : Bool} {span : Span} {v d : Scalar}
    (hv : μ.read place = some v) (hty : v.ty = ty) (hd : Scalar.ofInt? ty delta = some d)
    {rb : Register × Builder} (hrun : Codegen.step b place delta before ty span = .ok rb)
    (hb : rb.2.Extends A.builder) :
    ∃ s', Steps m limits s s' ∧ Given A b rb s (if before then v.step delta else v)
      (μ.write place (v.step delta)) s' := by
  subst hty
  simp only [Codegen.step, hd, Except.ok.injEq] at hrun
  subst hrun
  obtain ⟨hold, hcount1⟩ := load_register b place v.ty
  have hopen1 := (load_isClosed b place v.ty).trans hopen
  have hload := load_given limits hA h v.ty hv
  generalize Codegen.load b place v.ty = old at *
  have hid : old.1.id = b.registers := congrArg Register.id hold
  have hcount2 : (old.2.constant d).2.registers = b.registers + 2 := congrArg (· + 1) hcount1
  -- each of the four instructions leaves the block open for the next
  have hopen2 : (old.2.constant d).2.isClosed = false :=
    (Builder.isClosed_emit _ _).trans hopen1
  have hopen3 := (Builder.isClosed_emit ((old.2.constant d).2.newRegister v.ty).2
    (.binary ⟨(old.2.constant d).2.registers, v.ty⟩ .add old.1 (old.2.constant d).1)).trans hopen2
  have hext3 := (store_extends hopen3 place ⟨(old.2.constant d).2.registers, v.ty⟩).trans hb
  have hext2 := (Builder.write_extends hopen2 _ _).trans hext3
  have hext1 := (Builder.write_extends hopen1 d.ty _).trans hext2
  obtain ⟨s1, hs1, hg1⟩ := hload hext1
  obtain ⟨s2, hs2, hg2⟩ := constant_given limits hA hg1.stands hext2
  have hold2 : Holds A s2 old.1.id v := hg2.kept _ _ (by omega) hg1.holds
  obtain ⟨s3, hs3, hg3⟩ := binary_given limits hA hg2.stands hold2 hg2.holds
    (Scalar.binary_add_ofInt hd) hext3
  obtain ⟨s4, hs4, hst, hk⟩ := store_stands limits hA hg3.stands hv hg3.holds hb
    (b.registers + 3)
  have hold3 : Holds A s3 old.1.id v := hg3.kept _ _ (by omega) hold2
  refine ⟨s4, ((hs1.trans hs2).trans hs3).trans hs4, hst, ?_, ?_⟩
  · exact ((hg1.kept.trans (by omega) hg2.kept).trans (by omega) hg3.kept).trans (by omega) hk
  · cases before with
    | true => exact hk (old.2.constant d).2.registers _ (by omega) hg3.holds
    | false => exact hk old.1.id _ (by omega) hold3

/-! ## Calls -/

/-- A call that is made in a state exceeds a limit, or it does what an answer tells and hands over
the result. -/
def CallFollows (m : Module) (limits : Limits) (s : State Lines) (j : Nat) (dest : Option Register)
    (x : Answer (Option Scalar × World)) : Prop :=
  match s.push m limits j dest with
  | .error (e, _) => ∃ depth, e = .stackOverflow depth
  | .ok s' => Follows m limits s' x (Returns m limits s.slots s.frames dest)

/-- In every state with room for some more calls, calls of methods do what is told of them. -/
def CallsFollow (m : Module) (limits : Limits) (g : Signature) (calls : Calls) (room : Nat) :
    Prop :=
  ∀ (s : State Lines) (j : Nat) (t : Ty) (dest : Option Register), g.methods[j]? = some t →
    s.frames.length + room = limits.maxCallDepth → (World.mk s.fields s.output).Fits g →
    CallFollows m limits s j dest (calls j ⟨s.fields, s.output⟩)

variable {g : Signature} {calls : Calls} {room : Nat}

theorem call_returns (hA : A.Of m) (hcalls : CallsFollow m limits g calls room)
    (hroom : A.rest.length + 1 + room = limits.maxCallDepth) (hsafe : CallsSafe g calls)
    (h : Stands A b s μ) (hμ : μ.world.Fits g) {j : Nat} {t : Ty} (hj : g.methods[j]? = some t)
    {dest : Option Register} (hb : (b.emit (.call dest j)).Extends A.builder) :
    ∃ n, (∀ c (μ' : Memory) steps, Window A c μ'.locals →
        Stands A (b.emit (.call dest j)) (A.state b.current (n + 1) c μ'.world steps) μ') ∧
      Follows m limits s (calls j μ.world) fun r s' => (HasTy r.1 t ∧ r.2.Fits g) ∧
        Returns m limits s.slots (A.frame b.current (n + 1) :: A.rest) dest r s' := by
  obtain ⟨n, hstep, hnext⟩ := h.emit limits hA hb
  refine ⟨n, hnext, ?_⟩
  have hcall :=
    hcalls (A.state b.current (n + 1) s.slots μ.world (s.steps + 1)) j t dest hj hroom hμ
  unfold CallFollows at hcall
  simp only [execInstr] at hstep
  cases hpush : (A.state b.current (n + 1) s.slots μ.world (s.steps + 1)).push m limits j dest with
  | error e =>
    obtain ⟨e, s'⟩ := e
    rw [hpush] at hcall hstep
    obtain ⟨depth, rfl⟩ := hcall
    exact .inl ⟨depth, _, .fault hstep⟩
  | ok s' =>
    rw [hpush] at hcall hstep
    exact Follows.of_steps (.single hstep) (Follows.safe hcall (hsafe j t μ.world hj hμ))

theorem call_follows (hA : A.Of m) (hcalls : CallsFollow m limits g calls room)
    (hroom : A.rest.length + 1 + room = limits.maxCallDepth) (hsafe : CallsSafe g calls)
    (h : Stands A b s μ) (hμ : μ.world.Fits g) {p : Typed.Program} (hp : p.signature = g)
    {j : Nat} {t : Ty} (hj : g.methods[j]? = some t)
    {rb : Option Register × Builder} (hrun : Codegen.call p b j = .ok rb)
    (hb : rb.2.Extends A.builder) :
    Follows m limits s ((calls j μ.world).andThen fun (v, w) => .done (v, ⟨μ.locals, w⟩))
      (Evaluated A b rb s) := by
  subst hp
  obtain ⟨callee, hcallee, rfl⟩ : ∃ callee, p.methods[j]? = some callee ∧ callee.returns = t := by
    simpa [Typed.Program.signature] using hj
  obtain ⟨_, _, hat⟩ := id h
  simp only [Codegen.call, hcallee] at hrun
  split at hrun
  · rename_i hv
    cases hrun
    obtain ⟨n, hnext, hf⟩ := call_returns hA hcalls hroom hsafe h hμ hj hb
    refine hf.andThen ?_
    rintro ⟨v, w⟩ s' ⟨⟨hty, -⟩, steps, name, hs'⟩
    obtain rfl := Typed.HasTy.eq_none (Ty.isVoid_iff.mp hv ▸ hty)
    exact .done (.single hs') ⟨hnext s.slots ⟨μ.locals, w⟩ steps hat.window, .of_slots rfl _,
      fun _ hw => by cases hw⟩
  · rename_i hv
    cases hrun
    obtain ⟨n, hnext, hf⟩ := call_returns (b := (b.newRegister callee.returns).2) hA hcalls hroom
      hsafe h hμ hj hb
    refine hf.andThen ?_
    rintro ⟨v, w⟩ s' ⟨⟨hty, -⟩, steps, name, hs'⟩
    obtain ⟨x, rfl⟩ := hty.eq_some fun h => hv (Ty.isVoid_iff.mpr h)
    have htop : A.registers + b.registers < s.slots.top := by
      rw [hat.window.top]
      exact Nat.add_lt_add_left (show b.registers < A.code.registers from hb.registers) _
    have hs' : step m limits s' = .next (A.state b.current (n + 1)
        (s.slots.put (A.registers + b.registers) x) w steps) := hs'.trans (if_pos htop)
    refine .done (.single hs') ⟨hnext _ ⟨μ.locals, w⟩ steps (hat.window.putRegister x), ?_, ?_⟩
    · intro i y hi hy
      exact (Slots.put_ne (Nat.ne_of_gt (Nat.add_lt_add_left hi _)) x).trans hy
    · intro y hy
      cases hy
      exact ⟨_, rfl, Slots.put_self htop x⟩

end Cascade.Simulation
