import Cascade.Compile
import Cascade.Proofs.Code.Certified
import Cascade.Proofs.Codegen.Lowering
import Cascade.Proofs.Codegen.Stmt
import Cascade.Proofs.Typing.Faults

/-!
# Cascade.Proofs.Codegen.Program

Code for well-typed programs can always be made, and it passes all checks.

* `finish_fits`: a finished function is certified if control does not run off its end where a value
  is due.
* `lowerProgram_fits`: the module of a well-typed program.
* `compile_total`: compilation fails only where typing does.
-/

namespace Cascade.Codegen

open Code

variable {g : Signature} {returns : Ty}

/-! ## Finished functions -/

def Draft.finish (d : Draft) (returns : Ty) : Draft :=
  if !d.b.isClosed && returns.isVoid then d.close (.ret none) else d

theorem finish_eq (d : Draft) (id : FunctionId) (name : String) (returns : Ty) (span : Span) :
    finish d.b id name returns span =
      ((d.finish returns).b.function id name returns span).prune := by
  unfold finish Draft.finish
  split <;> rfl

def Draft.certificate (d : Draft) : Certificate :=
  ⟨d.types, fun k => (d.starts.lookup k).getD []⟩

theorem lookup_of_mem {k : Nat} {w : List Nat} : ∀ {starts : List (Nat × List Nat)},
    (starts.map Prod.fst).Nodup → (k, w) ∈ starts → starts.lookup k = some w := by
  intro starts
  induction starts with
  | nil =>
    intro _ h
    cases h
  | cons start rest ih =>
    intro hd h
    obtain ⟨l, u⟩ := start
    simp only [List.map_cons, List.nodup_cons] at hd
    obtain heq | h := List.mem_cons.mp h
    · cases heq
      simp
    · have hne : (k == l) = false := by
        simp only [beq_eq_false_iff_ne]
        exact fun he => hd.1 (he ▸ List.mem_map_of_mem h)
      rw [List.lookup_cons, hne]
      exact ih hd.2 h

theorem Draft.Sound.starts {d : Draft} (hs : d.Sound g returns) {k : Nat} {w : List Nat}
    (h : (k, w) ∈ d.starts) : d.certificate.starts k = w := by
  simp [Draft.certificate, lookup_of_mem hs.nodup h]

/-- A draft that is sound, whose blocks were all entered, and whose end control does not get to. -/
structure Finished (g : Signature) (returns : Ty) (d : Draft) : Prop where
  sound : d.Sound g returns
  entered : ∀ k, k < d.b.blocks.length → k ∈ d.entered
  stops : ¬ d.Running

theorem finish_finished {d : Draft} (hs : d.Sound g returns)
    (hentered : ∀ k, k < d.b.blocks.length → k ∈ d.entered)
    (hr : d.Running → returns = .void) : Finished g returns (d.finish returns) := by
  unfold Draft.finish
  split
  · rename_i h
    simp only [Bool.and_eq_true, Bool.not_eq_true'] at h
    have ho : d.Open := ⟨hs.entered _ hs.current, h.1⟩
    refine ⟨hs.close (.retNone (Ty.isVoid_iff.mp h.2)) (fun k hk => by cases hk), fun k hk => ?_,
      fun hrun => ?_⟩
    · rw [show (d.close (.ret none)).b.blocks.length = _ from Builder.close_length _ _] at hk
      exact hentered k hk
    · have hclosed : (d.close (.ret none)).b.isClosed = true := ho.close rfl
      rw [hrun.1] at hclosed
      cases hclosed
  · rename_i h
    refine ⟨hs, hentered, fun hrun => h ?_⟩
    simp [hrun.1, Ty.isVoid_iff, hr hrun]

namespace Finished

variable {d : Draft} {id : FunctionId} {name : String} {span : Span}

theorem block? (h : Finished g returns d) (k : Nat) :
    (d.b.function id name returns span).block? k = d.b.blocks[k]? :=
  Builder.function_coherent.block?_place h.sound.numbered k

theorem block_sound (h : Finished g returns d) {k : Nat} (hk : k ∈ d.live) :
    ∃ w blk, (k, w) ∈ d.starts ∧ d.b.blocks[k]? = some blk ∧ blk.isClosed = true ∧
      BlockSound (d.scheme g returns) d k w blk := by
  have he := h.sound.live k hk
  obtain ⟨⟨k', w⟩, hw, heq⟩ := List.mem_map.mp he
  obtain rfl : k' = k := heq
  have hblk := List.getElem?_eq_getElem (h.sound.entered _ he)
  refine ⟨w, _, hw, hblk, ?_, h.sound.block hw hblk⟩
  by_cases hc : k' = d.b.current
  · subst hc
    cases hb : d.b.isClosed with
    | true => rw [← Builder.isClosed_eq hblk, hb]
    | false => exact absurd ⟨hb, hk⟩ h.stops
  · exact h.sound.closed he hc hblk

/-- Where a way out of a live block leads, the registers taken to be written are. -/
theorem target (h : Finished g returns d) {k l : Nat} {w : List Nat} {blk : Block}
    (hk : k ∈ d.live) (hb : BlockSound (d.scheme g returns) d k w blk)
    (hl : l ∈ blk.term.targets) :
    l ∈ d.live ∧ d.certificate.starts l ⊆ afterCode w blk.code := by
  have hway := hb.ways hk l hl
  obtain ⟨⟨l', u⟩, hu, heq⟩ := List.mem_map.mp (h.entered l (h.sound.ways hway))
  obtain rfl : l' = l := heq
  obtain ⟨hsub, hlive⟩ := h.sound.arrive hu hway
  exact ⟨hlive, by rwa [h.sound.starts hu]⟩

theorem leads (h : Finished g returns d) {k : Nat}
    (hk : (d.b.function id name returns span).Leads 0 k) : k ∈ d.live := by
  induction hk with
  | refl => exact h.sound.entry.2
  | @step j l _ hl ih =>
    obtain ⟨w, blk, -, hblk, -, hb⟩ := h.block_sound ih
    simp only [Function.successors, h.block?, hblk] at hl
    exact (h.target ih hb hl).1

theorem fits (h : Finished g returns d) :
    (d.b.function id name returns span).Fits g d.certificate where
  types := h.sound.types
  locals := h.sound.locals
  entry := h.sound.starts h.sound.entry.1
  block := fun k hk => by
    have hlive := h.leads hk
    obtain ⟨w, blk, hw, hblk, hclosed, hb⟩ := h.block_sound hlive
    refine ⟨blk, (h.block? k).trans hblk, ?_, ?_, fun l hl => ?_⟩
    · rw [h.sound.starts hw]; exact hb.code
    · rw [h.sound.starts hw]; exact hb.term hclosed
    · rw [h.sound.starts hw]; exact (h.target hlive hb hl).2

end Finished

theorem Adds.finished {locals : List Code.Local} {d : Draft}
    (hlocals : ∀ l ∈ locals, l.ty.isNumeric = true) (ha : Adds g returns (.start locals) d)
    (hr : d.Running → returns = .void) : Finished g returns (d.finish returns) := by
  refine finish_finished (ha.makes.sound (.start hlocals)) (fun k hk => ?_) hr
  cases k with
  | zero => exact ha.makes.entered (by simp [Draft.start, Draft.entered])
  | succ k => exact ha.complete _ (Nat.succ_le_succ (Nat.zero_le k)) hk

theorem finish_fits {locals : List Code.Local} {d : Draft}
    (hlocals : ∀ l ∈ locals, l.ty.isNumeric = true) (ha : Adds g returns (.start locals) d)
    (hr : d.Running → returns = .void) (id : FunctionId) (name : String) (span : Span) :
    (finish d.b id name returns span).Trim ∧ ∃ c, (finish d.b id name returns span).Fits g c := by
  have hf := ha.finished hlocals hr
  rw [finish_eq]
  exact ⟨Function.prune_trim Builder.function_coherent hf.sound.numbered, _,
    hf.fits.prune Builder.function_coherent⟩

/-! ## Methods and fields -/

theorem knows_start (locals : List Code.Local) :
    (Draft.start locals).Knows (locals.map Code.Local.ty) :=
  ⟨[], by simp [Draft.start, Builder.start]⟩

theorem namedLocal_types (m : Typed.Method) :
    (m.locals.map namedLocal).map Code.Local.ty = m.slots := by
  simp [Typed.Method.slots, namedLocal, Function.comp_def]

theorem namedLocal_numeric {m : Typed.Method} (hm : m.WellTyped g) :
    ∀ l ∈ m.locals.map namedLocal, l.ty.isNumeric = true := fun l hl =>
  hm.slots l.ty (namedLocal_types m ▸ List.mem_map_of_mem hl)

theorem genBody_passes {p : Typed.Program} (hp : p.signature = g) {m : Typed.Method}
    (hm : m.WellTyped g) : ∃ d, genList p [] (.start (m.locals.map namedLocal)) m.body = .ok d.b ∧
      Passes g m.returns none (Typed.allComplete m.body) (Typed.anyEscapes m.body)
        (.start (m.locals.map namedLocal)) d :=
  genList_passes hp m.body hm.body (.start (namedLocal_numeric hm))
    (namedLocal_types m ▸ knows_start _)
    ⟨fun h => (by cases h), fun k hk => (by cases hk)⟩

/-- Control only runs off the end of a body that completes. -/
theorem genBody_runs {m : Typed.Method} (hm : m.WellTyped g) {d : Draft}
    (h : Passes g m.returns none (Typed.allComplete m.body) (Typed.anyEscapes m.body)
      (.start (m.locals.map namedLocal)) d) (hr : d.Running) : m.returns = .void := by
  by_cases hv : m.returns = .void
  · exact hv
  · have hc := (h.running hr).2
    rw [hm.leaves hv] at hc
    cases hc

theorem genMethod_fits {p : Typed.Program} (hp : p.signature = g) {m : Typed.Method}
    (hm : m.WellTyped g) : ∃ f, genMethod p m = .ok f ∧ f.returns = m.returns ∧ f.Trim ∧
      ∃ c, f.Fits g c := by
  obtain ⟨d, hrun, h⟩ := genBody_passes hp hm
  refine ⟨finish d.b m.id m.name m.returns m.span, by simp only [genMethod, hrun], rfl,
    finish_fits (namedLocal_numeric hm) h.toAdds (genBody_runs hm h) _ _ _⟩

theorem genMethods_fits {p : Typed.Program} (hp : p.signature = g) : ∀ {ms : List Typed.Method},
    (∀ m ∈ ms, m.WellTyped g) → ∃ fs, genMethods p ms = .ok fs ∧
      fs.map Function.returns = ms.map Typed.Method.returns ∧
      ∀ f ∈ fs, f.Trim ∧ ∃ c, f.Fits g c := by
  intro ms
  induction ms with
  | nil =>
    intro _
    exact ⟨[], rfl, rfl, by simp⟩
  | cons m ms ih =>
    intro h
    obtain ⟨hm, hms⟩ := List.forall_mem_cons.mp h
    obtain ⟨f, hf, hret, hfits⟩ := genMethod_fits hp hm
    obtain ⟨fs, hfs, hrets, hall⟩ := ih hms
    exact ⟨f :: fs, by simp only [genMethods, hf, hfs], by simp [hret, hrets],
      List.forall_mem_cons.mpr ⟨hfits, hall⟩⟩

theorem genInits_grows {p : Typed.Program} (hp : p.signature = g) : ∀ (fs : List Typed.Field)
    {d : Draft}, (∀ f ∈ fs, f.WellTyped g) → (∀ f ∈ fs, g.fields[f.id]? = some f.ty) →
    d.Sound g .void → d.Open → ∃ d', genInits p d.b fs = .ok d'.b ∧ Grows g .void d d'
  | [], d, _, _, _, ho => ⟨d, rfl, .refl ho⟩
  | f :: fs, d, hw, hi, hs, ho => by
    obtain ⟨hf, hfs⟩ := List.forall_mem_cons.mp hw
    obtain ⟨hid, hids⟩ := List.forall_mem_cons.mp hi
    cases hinit : f.init with
    | none =>
      obtain ⟨d', hrun, hg⟩ := genInits_grows hp fs hfs hids hs ho
      exact ⟨d', by simp only [genInits, hinit, hrun], hg⟩
    | some e =>
      obtain ⟨he, hty, hn⟩ := hf.2 e hinit
      obtain ⟨r, d1, hr, hg1, hhas, hrty⟩ := genValue_gives (hty ▸ hn)
        (genExpr_grows hp he hs ho ⟨_, rfl⟩)
      have hg2 := hg1.trans (grows_emit hg1.isOpen (i := .storeField f.id r) rfl
        (.storeField hhas (by rw [hrty, hty]; exact hid)))
      obtain ⟨d', hrun, hg⟩ := genInits_grows hp fs hfs hids (hg2.makes.sound hs) hg2.isOpen
      refine ⟨d', ?_, hg2.trans hg⟩
      simp only [genInits, hinit, hr]
      exact hrun

theorem start_open (locals : List Code.Local) : (Draft.start locals).Open :=
  ⟨Nat.zero_lt_one, rfl⟩

theorem genInitializer_fits {p : Typed.Program} (hw : p.WellTyped) (id : FunctionId) :
    ∃ f, genInitializer p id = .ok f ∧ f.returns = .void ∧ f.Trim ∧
      ∃ c, f.Fits p.signature c := by
  obtain ⟨d, hrun, h⟩ := genInits_grows rfl p.fields (d := .start []) hw.fields
    (fun f hf => hw.numbered.signature_field hf) (.start (by simp)) (start_open [])
  refine ⟨finish d.b id initializerName .void .zero, ?_, rfl,
    finish_fits (by simp) h.toAdds (fun _ => rfl) _ _ _⟩
  simp only [genInitializer]
  rw [show genInits p (.start []) p.fields = _ from hrun]

/-- Code can be made for every well-typed program, and it is certified. -/
theorem lowerProgram_fits {p : Typed.Program} (hw : p.WellTyped) :
    ∃ m, lowerProgram p = .ok m ∧ m.Fits p.signature := by
  rw [lowerProgram_eq]
  obtain ⟨fs, hfs, hrets, hall⟩ := genMethods_fits (p := p) rfl hw.methods
  obtain ⟨init, hinit, hvoid, hfits⟩ := genInitializer_fits hw p.methods.length
  refine ⟨⟨p.name, p.fields.map fieldOf, fs ++ [init], fs.length, p.entry⟩,
    by simp only [genProgram, hfs, hinit], ?_, fun f hf => ?_, fun {i t} ht => ?_,
    fun f hf => ?_, ⟨init, ?_, hvoid⟩, ?_⟩
  · simp [Typed.Program.signature, fieldOf, Function.comp_def]
  · obtain ⟨f', hf', rfl⟩ := List.mem_map.mp hf
    exact (hw.fields f' hf').1
  · have hi : (fs.map Function.returns)[i]? = some t := by rw [hrets]; exact ht
    obtain ⟨f, hf, hret⟩ : ∃ f, fs[i]? = some f ∧ f.returns = t := by simpa using hi
    obtain ⟨hlt, -⟩ := List.getElem?_eq_some_iff.mp hf
    exact ⟨f, by rw [List.getElem?_append_left hlt, hf], hret⟩
  · obtain hf | hf := List.mem_append.mp hf
    · exact hall f hf
    · obtain rfl := List.mem_singleton.mp hf
      exact hfits
  · have hlen : fs.length = p.methods.length := by simpa using congrArg List.length hrets
    simp
  · simpa [Typed.Program.signature] using hw.entry

end Cascade.Codegen

namespace Cascade

/-- What compilation gives is a well-typed program and the code that is made for it. -/
theorem compile_ok {settings : Settings} {p : Syntax.Program} {c : Compiled}
    (h : compile settings p = .ok c) :
    c.typed.WellTyped ∧ Codegen.lowerProgram c.typed = .ok c.code := by
  unfold compile at h
  split at h
  · cases h
  rename_i a ha
  split at h
  · cases h
  rename_i code hcode
  split at h
  · cases h
    exact ⟨(Typing.typeProgram_ok ha).2.2, hcode⟩
  · cases h

theorem compile_eq {settings : Settings} {p : Syntax.Program} {a : Typing.Accepted}
    (ha : Typing.typeProgram settings p = .ok a) {code : Code.Module}
    (hcode : Codegen.genProgram a.program = .ok code) :
    compile settings p = .ok ⟨a.program, code, a.warnings⟩ := by
  obtain ⟨code', hcode', hfits⟩ := Codegen.lowerProgram_fits (Typing.typeProgram_ok ha).2.2
  obtain rfl := Except.ok.inj
    (hcode.symm.trans ((Codegen.lowerProgram_eq _).symm.trans hcode'))
  simp only [compile, ha, hcode', hfits.isValid, if_true]

/-- Compilation makes certified code for a program, or finds fault with the program. It finds no
fault with what it made itself, and reads nothing under a number that is out of range: an entry of
the class table, a block that is under construction, the block of a case, or a method. -/
theorem compile_total (settings : Settings) (p : Syntax.Program) :
    (∀ t, Catalog.build p = .ok t → t.Indexed p) ∧
      ((∃ e, compile settings p = .error (.rejected (.semantic e))) ∨
        ∃ c, compile settings p = .ok c ∧ c.code.Fits c.typed.signature) := by
  refine ⟨fun t ht => Catalog.build_indexed ht, ?_⟩
  have hstray := Typing.typeProgram_noStray settings p
  cases ha : Typing.typeProgram settings p with
  | error e =>
    rw [ha] at hstray
    cases e with
    | stray s => exact hstray.elim
    | rejected e => exact .inl ⟨e, by simp only [compile, ha, Failure.map]⟩
  | ok a =>
    obtain ⟨code, hcode, hfits⟩ := Codegen.lowerProgram_fits (Typing.typeProgram_ok ha).2.2
    exact .inr ⟨_, compile_eq ha ((Codegen.lowerProgram_eq _).symm.trans hcode), hfits⟩

end Cascade
