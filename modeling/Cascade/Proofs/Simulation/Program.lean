import Cascade.Proofs.Codegen.Program
import Cascade.Proofs.Simulation.Stmt
import Cascade.Proofs.Typed.Depth

/-!
# Cascade.Proofs.Simulation.Program

The machine does on the code of a program what evaluating the program tells.

* `callFollows_finish`: a call of a finished function, given what its code does.
* `calls_follow`: calls of methods, by induction on how many more calls there is room for.
* `genInits_follows`: the first values of fields.
* `initializer_ends`: the call of the initializer, on fields that are all zero.
* `run_endsAs`: a run of a program.
-/

namespace Cascade.Simulation

open Code Machine Codegen
open Typed (Answer Stop Memory World Calls CallsSafe Flow zeros? zeros?_isSome evalCall
  evalCall_safe evalBody evalEnd evalExpr evalInits evalInits_safe Evaluates evalProgram_evaluates)

variable {m : Module} {limits : Limits} {g : Signature} {returns : Ty} {d : Draft}

/-! ## Calls -/

def called (s : State Lines) (j : FunctionId) (dest : Option Register) (d : Draft)
    (id : FunctionId) (name : String) (returns : Ty) (span : Span) : Activation :=
  ⟨j, (d.finish returns).b.function id name returns span, s.slots, dest, s.frames⟩

theorem finish_extends (d : Draft) (returns : Ty) : d.b.Extends (d.finish returns).b := by
  unfold Draft.finish
  split
  · rename_i h
    simp only [Bool.and_eq_true, Bool.not_eq_true'] at h
    exact Builder.close_extends h.1 _
  · exact .refl _

theorem called_extends (s : State Lines) (j : FunctionId) (dest : Option Register) (d : Draft)
    (id : FunctionId) (name : String) (returns : Ty) (span : Span) :
    (d.finish returns).b.Extends (called s j dest d id name returns span).builder :=
  Builder.goto_extends (d.finish returns).b 0

theorem zeros?_zero {ts : List Ty} {zs : List Scalar} (h : zeros? ts = some zs) {i : Nat}
    {v : Scalar} (hv : zs[i]? = some v) : ∃ t, ts[i]? = some t ∧ Scalar.zero? t = some v := by
  induction ts generalizing zs i with
  | nil =>
    cases h
    cases hv
  | cons t ts ih =>
    unfold zeros? at h
    split at h
    · rename_i z zs' hz hzs
      cases h
      cases i with
      | zero =>
        cases hv
        exact ⟨t, rfl, hz⟩
      | succ i => exact ih hzs hv
    · cases h

theorem opened_stands {s : State Lines} {j : FunctionId} {dest : Option Register}
    {id : FunctionId} {name : String} {span : Span} {locals : List Code.Local}
    (hext : (Builder.start locals).Extends d.b)
    {zs : List Scalar} (hzs : zeros? (locals.map Code.Local.ty) = some zs) {c : Slots}
    (hc : Opened s.slots ((d.finish returns).b.function id name returns span).prune c) :
    Stands (called s j dest d id name returns span) (.start locals)
      ((called s j dest d id name returns span).state 0 0 c ⟨s.fields, s.output⟩ s.steps)
      ⟨zs, ⟨s.fields, s.output⟩⟩ := by
  obtain ⟨more, hmore⟩ := (hext.trans (finish_extends d returns)).locals
  have hmore : (d.finish returns).b.locals = locals ++ more := hmore
  have hlocal : ∀ {i : Nat} {v : Scalar}, zs[i]? = some v →
      ∃ l, (d.finish returns).b.locals[i]? = some l ∧ Scalar.zero? l.ty = some v := by
    intro i v hv
    obtain ⟨t, ht, hz⟩ := zeros?_zero hzs hv
    obtain ⟨l, hl, rfl⟩ : ∃ l, locals[i]? = some l ∧ l.ty = t := by simpa using ht
    refine ⟨l, ?_, hz⟩
    rw [hmore, List.getElem?_append_left (List.getElem?_eq_some_iff.mp hl).1]
    exact hl
  refine ⟨.empty 0 (some "entry"), rfl, rfl, .refl, ⟨?_, hc.keeps, fun i v hv => ?_, ?_⟩⟩
  · exact hc.top.trans (Nat.add_assoc _ _ _).symm
  · obtain ⟨l, hl, hz⟩ := hlocal hv
    exact (hc.zeros i l hl).trans hz
  · refine Nat.le_of_not_lt fun hlt => ?_
    obtain ⟨l, hl, -⟩ := hlocal (List.getElem?_eq_getElem hlt)
    exact absurd (List.getElem?_eq_some_iff.mp hl).1 (Nat.lt_irrefl _)

/-- A call of a finished function, given what its code does. -/
theorem callFollows_finish {locals : List Code.Local} (hext : (Builder.start locals).Extends d.b)
    {zs : List Scalar} (hzs : zeros? (locals.map Code.Local.ty) = some zs)
    (hd : Finished g returns (d.finish returns)) {s : State Lines} {j : FunctionId}
    {dest : Option Register} {id : FunctionId} {name : String} {span : Span}
    (hj : m.functions[j]? = some (finish d.b id name returns span))
    {x : Answer (Option Scalar × World)}
    (hx : ∀ {s' : State Lines}, (called s j dest d id name returns span).Of m →
      s.frames.length < limits.maxCallDepth →
      Stands (called s j dest d id name returns span) (.start locals) s'
        ⟨zs, ⟨s.fields, s.output⟩⟩ →
      Follows m limits s' x (Returns m limits s.slots s.frames dest)) :
    CallFollows m limits s j dest x := by
  rw [finish_eq] at hj
  unfold CallFollows
  obtain hpush | ⟨hdepth, c, hc, hpush⟩ := State.push_cases limits s dest hj hd.sound.locals
  · rw [hpush]
    exact ⟨_, rfl⟩
  · rw [hpush]
    exact hx ⟨hj, hd.sound.numbered, Builder.function_coherent⟩ hdepth (opened_stands hext hzs hc)

/-! ## Methods -/

theorem finish_returns {s s' : State Lines} {j : FunctionId} {dest : Option Register}
    {id : FunctionId} {name : String} {span : Span}
    (hA : (called s j dest d id name returns span).Of m) {flow : Flow} {μ : Memory}
    (h : Ended (called s j dest d id name returns span) m limits none d.b (flow, μ) s') :
    Follows m limits s' (evalEnd returns flow μ.world)
      (Returns m limits s.slots s.frames dest) := by
  cases flow with
  | normal =>
    obtain ⟨hst, hopen⟩ := h
    unfold evalEnd
    by_cases hv : returns.isVoid = true
    · have hfinish : d.finish returns = d.close (.ret none) := by
        rw [Draft.finish, hopen, hv]
        rfl
      have hext := called_extends s j dest d id name returns span
      rw [hfinish] at hext
      simp only [hv, if_true]
      exact .done .refl (hst.returns hA hext fun _ _ => rfl)
    · simp only [hv]
      exact .stuck
  | leave => exact .stuck
  | ret v => exact .done .refl h

theorem lowerMethods_get {p : Typed.Program} {ms : List Typed.Method} {fs : List Function}
    (h : lowerMethods p ms = .ok fs) {j : Nat} {method : Typed.Method} (hj : ms[j]? = some method) :
    ∃ f, fs[j]? = some f ∧ lowerMethod p method = .ok f := by
  induction ms generalizing fs j with
  | nil => cases hj
  | cons method' ms ih =>
    unfold lowerMethods at h
    split at h
    · cases h
    rename_i f hf
    split at h
    · cases h
    rename_i fs' hfs
    cases h
    cases j with
    | zero =>
      cases hj
      exact ⟨f, rfl, hf⟩
    | succ j => exact ih hfs hj

variable {p : Typed.Program}

theorem method_follows {method : Typed.Method} (hm : method.WellTyped p.signature) {j : FunctionId}
    {f : Function} (hj : m.functions[j]? = some f) (hf : lowerMethod p method = .ok f)
    {calls : Calls} {room : Nat} (hcalls : CallsFollow m limits p.signature calls room)
    (hsafe : CallsSafe p.signature calls) {s : State Lines}
    (hroom : s.frames.length + (room + 1) = limits.maxCallDepth)
    (hw : (World.mk s.fields s.output).Fits p.signature) (dest : Option Register) :
    CallFollows m limits s j dest (evalBody calls method ⟨s.fields, s.output⟩) := by
  obtain ⟨zs, hzs, htys⟩ := zeros?_isSome hm.slots
  obtain ⟨d, hrun, hpass⟩ := genBody_passes (p := p) rfl hm
  rw [lowerMethod_eq, genMethod, hrun] at hf
  cases hf
  have hstart : (Draft.start (method.locals.map namedLocal)).Sound p.signature method.returns :=
    .start (namedLocal_numeric hm)
  have hslots := namedLocal_types method
  refine callFollows_finish hpass.makes.extends (hslots ▸ hzs)
    (hpass.toAdds.finished (namedLocal_numeric hm) (genBody_runs hm hpass)) hj ?_
  intro s' hA _ hst
  have hc : Callable (called s j dest d method.id method.name method.returns method.span) m limits
      p calls room := ⟨hA, hcalls, by rw [← hroom]; exact Nat.add_right_comm _ _ _, hsafe⟩
  have hready : Ready (called s j dest d method.id method.name method.returns method.span)
      p.signature method.returns method.slots (.start (method.locals.map namedLocal)) s'
      ⟨zs, ⟨s.fields, s.output⟩⟩ :=
    ⟨hstart, start_open _, hslots ▸ knows_start _, hst, ⟨htys, hw⟩⟩
  have hext := (finish_extends d method.returns).trans
    (called_extends s j dest d method.id method.name method.returns method.span)
  rw [evalBody, show zeros? (method.locals.map Cascade.Local.ty) = some zs from hzs]
  refine (genList_follows hc method.body hm.body
    ⟨fun h => (by cases h), fun k hk => (by cases hk)⟩ hready hrun hext).andThen ?_
  rintro ⟨flow, μ⟩ s'' hend
  exact finish_returns hA hend

/-- What is relied on in the module of a program. -/
structure LoweredFrom (m : Module) (p : Typed.Program) : Prop where
  wellTyped : p.WellTyped
  methods : ∀ {j : Nat} {method : Typed.Method}, p.methods[j]? = some method →
    ∃ f, m.functions[j]? = some f ∧ lowerMethod p method = .ok f
  initializer : ∃ f, m.functions[m.initializer]? = some f ∧
    lowerInitializer p p.methods.length = .ok f
  fields : m.fields = p.fields.map fieldOf
  entry : m.entry = p.entry

/-- Calls do what is told of them, whatever room there is for them. -/
theorem calls_follow (h : LoweredFrom m p) (limits : Limits) :
    ∀ room, CallsFollow m limits p.signature (evalCall p room) room := by
  intro room
  induction room with
  | zero =>
    intro s j t dest hj hroom hw
    have hlt : limits.maxCallDepth < s.frames.length + 1 := by omega
    unfold CallFollows
    simp only [State.push, hlt, if_true]
    exact ⟨_, rfl⟩
  | succ room ih =>
    intro s j t dest hj hroom hw
    obtain ⟨method, hmethod, rfl⟩ : ∃ method, p.methods[j]? = some method ∧ method.returns = t := by
      simpa [Typed.Program.signature] using hj
    obtain ⟨f, hfound, hf⟩ := h.methods hmethod
    rw [evalCall, hmethod]
    exact method_follows (h.wellTyped.methods method (List.mem_of_getElem? hmethod)) hfound hf ih
      (evalCall_safe h.wellTyped.methods room) hroom hw dest

/-! ## First values of fields -/

variable {A : Activation} {calls : Calls} {room : Nat}

theorem memory_world {μ : Memory} (h : μ.locals.map Scalar.ty = []) : μ = ⟨[], μ.world⟩ := by
  obtain ⟨locals, w⟩ := μ
  obtain rfl : locals = [] := by simpa using h
  rfl

/-- Fields with consecutive numbers from `i` on, which have their types in the signature. -/
def FieldsFrom (g : Signature) (i : Nat) (fs : List Typed.Field) : Prop :=
  ∀ j f, fs[j]? = some f → f.id = i + j ∧ g.fields[i + j]? = some f.ty

namespace FieldsFrom

variable {i : Nat} {f : Typed.Field} {fs : List Typed.Field}

theorem head (h : FieldsFrom g i (f :: fs)) : f.id = i ∧ g.fields[i]? = some f.ty :=
  h 0 f rfl

theorem tail (h : FieldsFrom g i (f :: fs)) : FieldsFrom g (i + 1) fs := fun j f' hj => by
  rw [Nat.add_assoc, Nat.add_comm 1]
  exact h (j + 1) f' hj

theorem mem (h : FieldsFrom g i fs) (hf : f ∈ fs) : g.fields[f.id]? = some f.ty := by
  obtain ⟨j, hj⟩ := List.getElem?_of_mem hf
  obtain ⟨hid, hty⟩ := h j f hj
  rwa [hid]

end FieldsFrom

theorem fields_from (hp : p.Numbered) : FieldsFrom p.signature 0 p.fields := fun j f hj => by
  rw [Nat.zero_add]
  exact ⟨hp.fields hj, by simp [Typed.Program.signature, hj]⟩

theorem genInits_follows (hc : Callable A m limits p calls room) : ∀ (fs : List Typed.Field)
    {i : Nat} {d : Draft} {s : State Lines} {w : World} {b' : Builder},
    (∀ f ∈ fs, f.WellTyped p.signature) → FieldsFrom p.signature i fs →
    Ready A p.signature .void [] d s ⟨[], w⟩ → genInits p d.b fs = .ok b' →
    b'.Extends A.builder →
    Follows m limits s (evalInits calls i fs w) fun w' s' =>
      Stands A b' s' ⟨[], w'⟩ ∧ b'.isClosed = false
  | [], i, d, s, w, b', _, _, h, hrun, _ => by
    cases hrun
    exact .done .refl ⟨h.stands, h.isOpen.2⟩
  | f :: fs, i, d, s, w, b', hw, hi, h, hrun, hb => by
    obtain ⟨hf, hfs⟩ := List.forall_mem_cons.mp hw
    obtain ⟨hid, hty⟩ := hi.head
    rw [evalInits]
    rw [genInits] at hrun
    cases hinit : f.init with
    | none =>
      rw [hinit] at hrun
      exact genInits_follows hc fs hfs hi.tail h hrun hb
    | some e =>
      obtain ⟨r, d1, hr, hg1, hhas, hrty, hvalue⟩ := h.fills hc (hf.2 e hinit)
      rw [hinit] at hrun
      simp only [hr, hid] at hrun
      -- the code of the other fields comes behind the one of this field
      have hg2 : Grows p.signature .void d1 (d1.emit (.storeField i r)) :=
        grows_emit hg1.isOpen rfl (.storeField hhas (hrty ▸ hty))
      have hs2 := hg2.makes.sound (hg1.makes.sound h.sound)
      have hk2 := (h.knows.mono hg1.makes).mono hg2.makes
      obtain ⟨d3, hrest, hg3⟩ :=
        genInits_grows (p := p) rfl fs hfs (fun _ => hi.tail.mem) hs2 hg2.isOpen
      obtain rfl : d3.b = b' := by
        rw [show genInits p (d1.b.emit (.storeField i r)) fs = _ from hrest] at hrun
        exact Except.ok.inj hrun
      have hb2 := hg3.makes.extends.trans hb
      refine (hvalue (hg2.makes.extends.trans hb2)).andThen ?_
      rintro ⟨v, μ⟩ s1 hv
      have hplace : Typed.placeTy? p.signature [] (.field i) = some v.ty :=
        hty.trans (congrArg some hv.ty.symm)
      obtain ⟨old, hold, -⟩ := hv.ready.place hplace
      obtain ⟨s2, hs2', hst2, -⟩ := store_stands limits hc.code hv.ready.stands hold hv.holds
        hb2 0
      have hμ := hv.ready.typed.write hplace
      refine .of_steps hs2' ?_
      have hworld := memory_world hμ.locals
      rw [hworld] at hst2 hμ
      exact genInits_follows hc fs hfs hi.tail ⟨hs2, hg2.isOpen, hk2, hst2, hμ⟩ hrest hb

/-- The call that gives the fields their first values. There is room for one call less in it. -/
theorem initializer_follows (h : LoweredFrom m p) (limits : Limits) {s : State Lines}
    (hs : s.frames = []) (hw : (World.mk s.fields s.output).Fits p.signature) :
    CallFollows m limits s m.initializer none
      ((evalInits (evalCall p (limits.maxCallDepth - 1)) 0 p.fields
        ⟨s.fields, s.output⟩).andThen fun w => .done (none, w)) := by
  have hstart : (Draft.start []).Sound p.signature .void := .start (by simp)
  have hfrom := fields_from h.wellTyped.numbered
  obtain ⟨d, hrun, hg⟩ := genInits_grows (p := p) rfl p.fields (d := .start [])
    h.wellTyped.fields (fun _ => hfrom.mem) hstart (start_open [])
  have hrun : genInits p (.start []) p.fields = .ok d.b := hrun
  obtain ⟨f, hfound, hf⟩ := h.initializer
  rw [lowerInitializer_eq, genInitializer, hrun] at hf
  cases hf
  refine callFollows_finish hg.makes.extends (show zeros? [] = some [] from rfl)
    (hg.toAdds.finished (by simp) fun _ => rfl) hfound ?_
  intro s' hA hdepth hst
  have hroom : s.frames.length + 1 + (limits.maxCallDepth - 1) = limits.maxCallDepth := by
    rw [hs] at hdepth ⊢
    simp only [List.length_nil] at hdepth ⊢
    omega
  have hc : Callable (called s m.initializer none d p.methods.length initializerName .void .zero)
      m limits p (evalCall p (limits.maxCallDepth - 1)) (limits.maxCallDepth - 1) :=
    ⟨hA, calls_follow h limits _, hroom, evalCall_safe h.wellTyped.methods _⟩
  have hext := (finish_extends d .void).trans
    (called_extends s m.initializer none d p.methods.length initializerName .void .zero)
  refine (genInits_follows hc p.fields h.wellTyped.fields hfrom
    ⟨hstart, start_open [], ⟨[], rfl⟩, hst, ⟨rfl, hw⟩⟩ hrun hext).andThen ?_
  intro w s'' hend
  exact finish_returns hA (show Ended _ m limits none d.b (.normal, ⟨[], w⟩) s'' from hend)

/-! ## Runs -/

theorem callEnds_of_follows {s : State Lines} (hs : s.frames = []) {j : FunctionId}
    {x : Answer (Option Scalar × World)} (h : CallFollows m limits s j none x)
    (hx : ∀ w, x ≠ .stop .stuck w) :
    (∃ depth s', CallEnds m limits j s (.error (.stackOverflow depth), s')) ∨
      (∃ v w steps, x = .done (v, w) ∧
        CallEnds m limits j s (.ok v, ⟨s.slots, [], w.fields, w.output, steps⟩)) ∨
      ∃ s', x = .stop .divisionByZero ⟨s'.fields, s'.output⟩ ∧
        CallEnds m limits j s (.error .divisionByZero, s') := by
  unfold CallFollows at h
  cases hpush : s.push m limits j none with
  | error e =>
    obtain ⟨e, s'⟩ := e
    rw [hpush] at h
    obtain ⟨depth, rfl⟩ := h
    exact .inl ⟨depth, s', .refused hpush⟩
  | ok s0 =>
    rw [hpush, hs] at h
    obtain ⟨depth, s', he⟩ | hf := h
    · exact .inl ⟨depth, s', .entered hpush he⟩
    cases x with
    | done r =>
      obtain ⟨v, w⟩ := r
      obtain ⟨s', hs', steps, name, hstep⟩ := hf
      exact .inr (.inl ⟨v, w, steps, rfl, .entered hpush (.of_steps hs' (.done hstep))⟩)
    | stop why w =>
      cases why with
      | divisionByZero =>
        obtain ⟨s', he, hfields, houtput⟩ := hf
        refine .inr (.inr ⟨s', ?_, .entered hpush he⟩)
        rw [hfields, houtput]
      | tooDeep => exact hf.elim
      | stuck => exact absurd rfl (hx w)

/-- A run ends because a limit is exceeded, or in the same way as the evaluation of its program,
and then it leaves the same world: the same values of fields, and the same lines. -/
inductive EndsAs (p : Typed.Program) : Ending Lines → Prop where
  | overflow {depth : Nat} {s : State Lines} : EndsAs p (.error (.stackOverflow depth), s)
  | divided {s : State Lines} : Evaluates p (.stop .divisionByZero ⟨s.fields, s.output⟩) →
      EndsAs p (.error .divisionByZero, s)
  | returned {v : Option Scalar} {s : State Lines} : Evaluates p (.done (v, ⟨s.fields, s.output⟩)) →
      EndsAs p (.ok v, s)

theorem zeroFields_zeros? {fs : List Typed.Field} {zs : List Scalar}
    (h : zeros? (fs.map Typed.Field.ty) = some zs) : zeroFields (fs.map fieldOf) = .ok zs := by
  induction fs generalizing zs with
  | nil =>
    cases h
    rfl
  | cons f fs ih =>
    simp only [List.map_cons] at h ⊢
    unfold zeros? at h
    split at h
    · rename_i z zs' hz hzs
      cases h
      have hz : Scalar.zero? (fieldOf f).ty = some z := hz
      simp only [zeroFields, hz, ih hzs]
    · cases h

theorem not_stuck {α : Type} {x : Answer α} {post : α → Prop} (h : x.Safe post) (w : World) :
    x ≠ .stop .stuck w := by
  rintro rfl
  exact h rfl

theorem entry_endsAs (h : LoweredFrom m p) (limits : Limits) {zs : List Scalar}
    (hzs : zeros? (p.fields.map Typed.Field.ty) = some zs) {w : World}
    (hinit : evalInits (evalCall p (limits.maxCallDepth - 1)) 0 p.fields ⟨zs, #[]⟩ = .done w)
    (hw : w.Fits p.signature) (slots : Slots) (steps : Nat) :
    ∃ e, CallEnds m limits m.entry ⟨slots, [], w.fields, w.output, steps⟩ e ∧ EndsAs p e := by
  obtain ⟨t, ht⟩ : ∃ t, p.signature.methods[p.entry]? = some t :=
    ⟨_, List.getElem?_eq_getElem (by simpa [Typed.Program.signature] using h.wellTyped.entry)⟩
  have hsafe := evalCall_safe h.wellTyped.methods limits.maxCallDepth p.entry t w ht hw
  have hcall : CallFollows m limits ⟨slots, [], w.fields, w.output, steps⟩ m.entry none
      (evalCall p limits.maxCallDepth p.entry w) := by
    rw [h.entry]
    exact calls_follow h limits limits.maxCallDepth _ p.entry t none ht (Nat.zero_add _) hw
  have heval : ∀ {x}, evalCall p limits.maxCallDepth p.entry w = x → ¬ x.IsTooDeep →
      Evaluates p x := by
    intro x hx
    refine evalProgram_evaluates hzs (Nat.sub_le limits.maxCallDepth 1) ?_
    rw [hinit]
    exact hx
  obtain ⟨depth, s', he⟩ | ⟨v, w', steps', hx, he⟩ | ⟨s', hx, he⟩ :=
    callEnds_of_follows rfl hcall (not_stuck hsafe)
  · exact ⟨_, he, .overflow⟩
  · refine ⟨_, he, .returned (heval hx ?_)⟩
    rintro ⟨_, h⟩
    cases h
  · refine ⟨_, he, .divided (heval hx ?_)⟩
    rintro ⟨_, h⟩
    cases h

/-- All fields can be given the zeros of their types. -/
theorem LoweredFrom.zeroFields (h : LoweredFrom m p) :
    ∃ zs, zeros? (p.fields.map Typed.Field.ty) = some zs ∧
    Machine.zeroFields m.fields = .ok zs ∧ World.Fits p.signature ⟨zs, #[]⟩ := by
  have hnum : ∀ t ∈ p.fields.map Typed.Field.ty, t.isNumeric = true := by
    intro t ht
    obtain ⟨f, hf, rfl⟩ := List.mem_map.mp ht
    exact (h.wellTyped.fields f hf).1
  obtain ⟨zs, hzs, htys⟩ := zeros?_isSome hnum
  refine ⟨zs, hzs, ?_, htys⟩
  rw [h.fields]
  exact zeroFields_zeros? hzs

/-- The call of the initializer ends because a limit is exceeded, or as an evaluation of the first
values of fields does. -/
inductive Initialized (x : Answer World) : Ending Lines → Prop where
  | overflow {depth : Nat} {s : State Lines} : Initialized x (.error (.stackOverflow depth), s)
  | divided {s : State Lines} : x = .stop .divisionByZero ⟨s.fields, s.output⟩ →
      Initialized x (.error .divisionByZero, s)
  | stored {w : World} {slots : Slots} {steps : Nat} : x = .done w →
      Initialized x (.ok none, ⟨slots, [], w.fields, w.output, steps⟩)

theorem initializer_ends (h : LoweredFrom m p) (limits : Limits) {zs : List Scalar}
    (hzs : World.Fits p.signature ⟨zs, #[]⟩) : ∃ e,
    CallEnds m limits m.initializer ⟨.empty, [], zs, #[], 0⟩ e ∧
      Initialized (evalInits (evalCall p (limits.maxCallDepth - 1)) 0 p.fields ⟨zs, #[]⟩) e := by
  have hsafe := evalInits_safe (evalCall_safe h.wellTyped.methods (limits.maxCallDepth - 1))
    p.fields 0 h.wellTyped.fields
    (fun j f hj => (fields_from h.wellTyped.numbered j f hj).2) hzs
  have hcall := initializer_follows h limits (s := ⟨.empty, [], zs, #[], 0⟩) rfl hzs
  dsimp only at hcall
  generalize evalInits (evalCall p (limits.maxCallDepth - 1)) 0 p.fields ⟨zs, #[]⟩ = x
    at hsafe hcall ⊢
  obtain ⟨depth, s', he⟩ | ⟨v, w, steps, heq, he⟩ | ⟨s', heq, he⟩ :=
    callEnds_of_follows rfl hcall fun w hw => by
      cases x with
      | done w' => cases hw
      | stop why w' =>
        cases hw
        exact hsafe rfl
  · exact ⟨_, he, .overflow⟩
  · cases x with
    | done w' =>
      cases heq
      exact ⟨_, he, .stored rfl⟩
    | stop why w' => cases heq
  · cases x with
    | done w' => cases heq
    | stop why w' =>
      cases heq
      exact ⟨_, he, .divided rfl⟩

theorem run_endsAs (h : LoweredFrom m p) (limits : Limits) :
    ∃ fuel e, run m limits fuel .start = some e ∧ EndsAs p e := by
  obtain ⟨zs, hzs, hzeros, hworld⟩ := h.zeroFields
  obtain ⟨e, he, hinit⟩ := initializer_ends h limits hworld
  cases hinit with
  | overflow =>
    obtain ⟨fuel, hrun⟩ := run_of_failed (s := .start) hzeros he
    exact ⟨fuel, _, hrun, .overflow⟩
  | @stored w slots steps hx =>
    have hsafe := evalInits_safe (evalCall_safe h.wellTyped.methods (limits.maxCallDepth - 1))
      p.fields 0 h.wellTyped.fields
      (fun j f hj => (fields_from h.wellTyped.numbered j f hj).2) hworld
    rw [hx] at hsafe
    obtain ⟨e', hentry, hends⟩ := entry_endsAs h limits hzs hx hsafe slots steps
    obtain ⟨fuel, hrun⟩ := run_of_ends (s := .start) hzeros he hentry
    exact ⟨fuel, e', hrun, hends⟩
  | divided hx =>
    obtain ⟨fuel, hrun⟩ := run_of_failed (s := .start) hzeros he
    refine ⟨fuel, _, hrun, .divided
      (evalProgram_evaluates hzs (Nat.sub_le limits.maxCallDepth 1) ?_ ?_)⟩
    · rw [hx]
      rfl
    · rintro ⟨_, h⟩
      cases h

/-! ## Accepted programs -/

/-- The module that is made of a well-typed program. -/
theorem lowerProgram_loweredFrom (hw : p.WellTyped) (h : lowerProgram p = .ok m) :
    LoweredFrom m p := by
  rw [lowerProgram] at h
  split at h
  · cases h
  rename_i fs hfs
  split at h
  · cases h
  rename_i init hinit
  cases h
  refine ⟨hw, fun hj => ?_, ⟨init, by simp, hinit⟩, rfl, rfl⟩
  obtain ⟨f, hf, hmade⟩ := lowerMethods_get hfs hj
  refine ⟨f, ?_, hmade⟩
  rw [List.getElem?_append_left (List.getElem?_eq_some_iff.mp hf).1]
  exact hf

/-- Code generation preserves meaning: the code of an accepted program, run with any limits, comes
to an end, and unless it exceeds a limit it ends as the evaluation of the typed tree does. -/
theorem run_evaluates {settings : Settings} {p : Syntax.Program} {a : Typing.Accepted}
    (h : Typing.typeProgram settings p = .ok a) :
    ∃ code, lowerProgram a.program = .ok code ∧ ∀ limits : Limits,
      (∃ fuel e, run code limits fuel .start = some e) ∧
      ∀ fuel e, run code limits fuel .start = some e → EndsAs a.program e := by
  obtain ⟨-, -, hw⟩ := Typing.typeProgram_ok h
  obtain ⟨code, hcode, -⟩ := lowerProgram_fits hw
  refine ⟨code, hcode, fun limits => ?_⟩
  obtain ⟨n, e, hrun, hends⟩ := run_endsAs (lowerProgram_loweredFrom hw hcode) limits
  refine ⟨⟨n, e, hrun⟩, fun fuel e' hrun' => ?_⟩
  rw [run_unique hrun' hrun]
  exact hends

theorem tally_run_evaluates : ∃ a code, Typing.typeProgram .default Typing.tally = .ok a ∧
    lowerProgram a.program = .ok code ∧ ∀ limits : Limits,
      (∃ fuel e, run code limits fuel .start = some e) ∧
      ∀ fuel e, run code limits fuel .start = some e → EndsAs a.program e := by
  obtain ⟨code, hcode, h⟩ := run_evaluates (rfl : Typing.typeProgram .default Typing.tally = _)
  exact ⟨_, code, rfl, hcode, h⟩

end Cascade.Simulation
