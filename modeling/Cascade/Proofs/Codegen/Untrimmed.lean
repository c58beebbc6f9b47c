import Cascade.Proofs.Codegen.Program
import Cascade.Proofs.Codegen.Reachable
import Cascade.Proofs.Codegen.Trimming
import Cascade.Proofs.Typing.Untrimmed

/-!
# Cascade.Proofs.Codegen.Untrimmed

Code for a whole program and for its trimmed form. Pruning drops the blocks of one function that
have no partner in the other, so the two modules are twins.

* `Beyond.finish`: finished functions are twins.
* `lowerProgram_trim`: the modules of a program and of its trimmed form.
-/

namespace Cascade

namespace Codegen

open Code

variable {ρ ρ' : Renaming} {b c b' c' : Builder}

/-! ## Finished functions -/

/-- Blocks are numbered by their places, and all local variables are numeric. -/
structure Builder.Regular (b : Builder) : Prop where
  numbered : ∀ {k : Nat} {blk : Block}, b.blocks[k]? = some blk → blk.id = k
  numeric : ∀ l ∈ b.locals, l.ty.isNumeric = true

theorem Draft.Sound.regular {g : Signature} {returns : Ty} {d : Draft} (h : d.Sound g returns) :
    d.b.Regular := ⟨h.numbered, h.locals⟩

theorem Builder.Regular.close (h : b.Regular) (t : Terminator) : (b.close t).Regular where
  numbered := fun hk => by
    obtain ⟨-, hsame⟩ | ⟨-, blk, hsame, rfl⟩ := modify_blocks hk
    · exact h.numbered hsame
    · exact show blk.id = _ from h.numbered hsame
  numeric := h.numeric

theorem Builder.Twin.function (h : b.Twin ρ c) (hb : b.Regular) (hc : c.Regular)
    (hentry : ρ.blocks 0 0) (id : FunctionId) (name : String) (returns : Ty) (span : Span) :
    (b.function id name returns span).Twin ρ (c.function id name returns span) where
  registers := h.registers
  locals := h.locals
  types := h.types
  numeric := ⟨hb.numeric, hc.numeric⟩
  size := h.size
  entry := hentry
  block := fun {i j} hij => by
    obtain ⟨blk, blk', hi, hj, ht⟩ := h.block hij
    exact ⟨blk, blk', (Builder.function_coherent.block?_place hb.numbered i).trans hi,
      (Builder.function_coherent.block?_place hc.numbered j).trans hj, ht⟩

/-- Finished functions are twins, whether or not control gets to their ends. -/
theorem Beyond.finish {completes : Bool} (h : Beyond ρ b c ρ' b' c' completes)
    (hb : b'.Regular) (hc : c'.Regular) (hentry : ρ.blocks 0 0) (id : FunctionId)
    (name : String) (returns : Ty) (span : Span) :
    ∃ σ, (finish b' id name returns span).Twin σ (finish c' id name returns span) := by
  have hentry' := h.le.blocks hentry
  cases hv : returns.isVoid with
  | false =>
    have hfinish : ∀ b : Builder, Codegen.finish b id name returns span =
        (b.function id name returns span).prune := fun b => by
      simp only [Codegen.finish, hv, Bool.and_false, Bool.false_eq_true, if_false]
    rw [hfinish, hfinish]
    exact ⟨_, (h.toTwin.function hb hc hentry' id name returns span).prune
      Builder.function_coherent Builder.function_coherent⟩
  | true =>
    have hfinish : ∀ b : Builder, Codegen.finish b id name returns span =
        ((if b.isClosed then b else b.close (.ret none)).function id name returns span).prune := by
      intro b
      simp only [Codegen.finish, hv, Bool.and_true]
      cases b.isClosed <;> rfl
    have hregular : ∀ {b : Builder}, b.Regular →
        (if b.isClosed then b else b.close (.ret none)).Regular := by
      intro b hb
      split
      · exact hb
      · exact hb.close _
    rw [hfinish, hfinish]
    exact ⟨_, ((h.seal fun _ => .ret .none).toTwin.function (hregular hb) (hregular hc) hentry'
      id name returns span).prune Builder.function_coherent Builder.function_coherent⟩

/-- The first block and all local variables of a new function correspond to themselves. -/
def Renaming.start (locals : Nat) : Renaming :=
  ⟨fun _ _ => False, fun i j => i = j ∧ i < locals, fun i j => i = j ∧ i < 1⟩

theorem start_alongside (locals : List Code.Local) :
    Alongside (Renaming.start locals.length) (.start locals) (.start locals)
      (Renaming.start locals.length) (.start locals) (.start locals) := by
  refine .refl ⟨⟨False.elim, False.elim, fun h => h.elim⟩, .same _, .same 1,
    fun hij hl hl' => ?_, ⟨Nat.le_refl _, Nat.le_refl _⟩, fun {i j} hij => ?_⟩ ⟨rfl, Nat.one_pos⟩
  · obtain ⟨rfl, -⟩ := hij
    rw [hl] at hl'
    cases hl'
    rfl
  · obtain ⟨rfl, hi⟩ := hij
    obtain rfl : i = 0 := Nat.lt_one_iff.mp hi
    exact ⟨_, _, rfl, rfl, .nil, .unreachable⟩

/-! ## Methods and fields -/

variable {g : Signature} {p p' : Typed.Program}

/-- The code of a method and of its trimmed form. -/
theorem genMethod_trim (hp : p.signature = g) (hp' : p'.signature = g) {m : Typed.Method}
    (hm : m.Checked g) :
    ∃ f f', genMethod p m = .ok f ∧ genMethod p' m.trim = .ok f' ∧ ∃ σ, f.Twin σ f' := by
  have hnumeric : ∀ l ∈ m.locals.map namedLocal, l.ty.isNumeric = true := fun l hl =>
    hm.slots l.ty (namedLocal_types m ▸ List.mem_map_of_mem hl)
  have hpasses : ∀ {p : Typed.Program} {body : List Typed.Stmt}, p.signature = g →
      Typed.ListWellTyped g m.slots m.returns false body → ∃ b,
      genList p [] (.start (m.locals.map namedLocal)) body = .ok b ∧ b.Regular := by
    intro p body hp hbody
    have hexits : Exits [] false (.start (m.locals.map namedLocal)) :=
      ⟨fun h => (by cases h), fun k hk => (by cases hk)⟩
    obtain ⟨d, hrun, hd⟩ := genList_passes hp body hbody (.start hnumeric)
      (namedLocal_types m ▸ knows_start _) hexits
    exact ⟨d.b, hrun, (hd.makes.sound (.start hnumeric)).regular⟩
  obtain ⟨b, hrun, hb⟩ := hpasses hp hm.body
  obtain ⟨c, hrun', hc⟩ := hpasses hp' (Typing.trimList_wellTyped m.body hm.body)
  have hkeeps : FixesSlots m.slots (Renaming.start (m.locals.map namedLocal).length) := fun hi =>
    ⟨rfl, by simpa [Typed.Method.slots] using hi⟩
  have hexits : ∀ ρ escapes, ExitTwins ρ escapes [] [] := fun _ _ _ hk => by cases hk
  have hresults : SameResults p p' := congrArg Signature.methods (hp'.trans hp.symm)
  obtain ⟨ρ, c1, hrun1, -, h⟩ :=
    genList_trim hresults m.body hm.body (start_alongside _) hkeeps (hexits _ _) hrun
  obtain rfl : c = c1 := by
    rw [hrun'] at hrun1
    cases hrun1
    rfl
  exact ⟨_, _, by simp only [genMethod, hrun],
    by simp only [genMethod, Typed.Method.trim, hrun'],
    h.finish hb hc ⟨rfl, Nat.one_pos⟩ m.id m.name m.returns m.span⟩

theorem genMethods_trim (hp : p.signature = g) (hp' : p'.signature = g) :
    ∀ {ms : List Typed.Method}, (∀ m ∈ ms, m.Checked g) →
    ∃ fs fs', genMethods p ms = .ok fs ∧ genMethods p' (ms.map Typed.Method.trim) = .ok fs' ∧
      List.Forall₂ (fun f f' => ∃ σ, f.Twin σ f') fs fs' := by
  intro ms
  induction ms with
  | nil =>
    intro _
    exact ⟨[], [], rfl, rfl, .nil⟩
  | cons m ms ih =>
    intro hall
    obtain ⟨hm, hms⟩ := List.forall_mem_cons.mp hall
    obtain ⟨f, f', hf, hf', hσ⟩ := genMethod_trim hp hp' hm
    obtain ⟨fs, fs', hfs, hfs', hall⟩ := ih hms
    exact ⟨f :: fs, f' :: fs', by simp only [genMethods, hf, hfs],
      by simp only [List.map_cons, genMethods, hf', hfs'], .cons hσ hall⟩

theorem genInits_twin (hp : SameResults p p') :
    ∀ (fs : List Typed.Field) {ρ ρ' : Renaming} {b c b' c' b'' : Builder},
    (∀ f ∈ fs, f.WellTyped g) → Alongside ρ b c ρ' b' c' → genInits p b' fs = .ok b'' →
    ∃ ρ'' c'', genInits p' c' fs = .ok c'' ∧ Alongside ρ b c ρ'' b'' c''
  | [], ρ, ρ', b, c, b', c', b'', _, h, hrun => by
    cases hrun
    exact ⟨ρ', c', rfl, h⟩
  | f :: fs, ρ, ρ', b, c, b', c', b'', hw, h, hrun => by
    obtain ⟨hf, hfs⟩ := List.forall_mem_cons.mp hw
    simp only [genInits] at hrun ⊢
    cases hinit : f.init with
    | none =>
      rw [hinit] at hrun
      exact genInits_twin hp fs hfs h hrun
    | some e =>
      rw [hinit] at hrun
      dsimp only at hrun ⊢
      split at hrun
      · cases hrun
      rename_i he
      have hk : FixesSlots [] ρ' := fun hi => absurd hi (Nat.not_lt_zero _)
      obtain ⟨ρ1, r', c1, he', -, h1, hr⟩ := genValue_twin hp (hf.2 e hinit).1 h hk he
      rw [he']
      exact genInits_twin hp fs hfs (h1.emit (.storeField hr)) hrun

theorem genInitializer_twin (hp : p.signature = g) (hp' : p'.signature = g)
    (hfields : p'.fields = p.fields) (hw : ∀ f ∈ p.fields, f.WellTyped g)
    (hids : ∀ f ∈ p.fields, g.fields[f.id]? = some f.ty) (id : FunctionId) :
    ∃ f f', genInitializer p id = .ok f ∧ genInitializer p' id = .ok f' ∧
      ∃ σ, f.Twin σ f' := by
  have hgrows : ∀ {q : Typed.Program}, q.signature = g →
      ∃ b, genInits q (.start []) p.fields = .ok b ∧ b.Regular := by
    intro q hq
    obtain ⟨d, hrun, hd⟩ := genInits_grows hq p.fields (d := .start []) hw hids
      (.start (by simp)) (start_open [])
    exact ⟨d.b, hrun, (hd.makes.sound (.start (by simp))).regular⟩
  obtain ⟨b, hrun, hb⟩ := hgrows hp
  obtain ⟨c, hrun', hc⟩ := hgrows hp'
  have hresults : SameResults p p' := congrArg Signature.methods (hp'.trans hp.symm)
  obtain ⟨ρ, c1, hrun1, h⟩ := genInits_twin hresults p.fields hw (start_alongside []) hrun
  obtain rfl : c = c1 := by
    rw [hrun'] at hrun1
    cases hrun1
    rfl
  exact ⟨_, _, by simp only [genInitializer, hrun], by simp only [genInitializer, hfields, hrun'],
    h.beyond.finish hb hc ⟨rfl, Nat.one_pos⟩ id initializerName .void .zero⟩

/-! ## Programs -/

theorem renamings {fs fs' : List Function}
    (h : List.Forall₂ (fun f f' => ∃ σ, f.Twin σ f') fs fs') :
    ∃ σ : FunctionId → Renaming, ∀ {i : FunctionId} {f f' : Function}, fs[i]? = some f →
      fs'[i]? = some f' → f.Twin (σ i) f' := by
  induction h with
  | nil => exact ⟨fun _ => Renaming.start 0, fun hf => (by cases hf)⟩
  | cons hρ _ ih =>
    obtain ⟨ρ, hρ⟩ := hρ
    obtain ⟨σ, hσ⟩ := ih
    refine ⟨fun i => i.casesOn ρ σ, fun {i f f'} hf hf' => ?_⟩
    cases i with
    | zero =>
      cases hf
      cases hf'
      exact hρ
    | succ i => exact hσ hf hf'

/-- Lowering succeeds with and without the statements that trimming drops, and the modules are
twins. -/
theorem lowerProgram_trim (hw : p.Checked) : ∃ m m', lowerProgram p = .ok m ∧
    lowerProgram p.trim = .ok m' ∧ ∃ σ, m.Twin σ m' := by
  rw [lowerProgram_eq, lowerProgram_eq]
  have hsig := p.trim_signature
  obtain ⟨fs, fs', hfs, hfs', hall⟩ := genMethods_trim rfl hsig hw.methods
  obtain ⟨init, init', hinit, hinit', htwin⟩ := genInitializer_twin rfl hsig rfl hw.fields
    (fun f hf => hw.numbered.signature_field hf) p.methods.length
  have hboth : List.Forall₂ (fun f f' => ∃ σ, f.Twin σ f') (fs ++ [init]) (fs' ++ [init']) :=
    List.rel_append hall (.cons htwin .nil)
  obtain ⟨σ, hσ⟩ := renamings hboth
  have hlen : p.trim.methods.length = p.methods.length := List.length_map Typed.Method.trim
  refine ⟨⟨p.name, p.fields.map fieldOf, fs ++ [init], fs.length, p.entry⟩,
    ⟨p.name, p.fields.map fieldOf, fs' ++ [init'], fs'.length, p.entry⟩,
    by simp only [genProgram, hfs, hinit], ?_, σ, rfl, hall.length_eq, rfl, hboth.length_eq, hσ⟩
  rw [genProgram, show genMethods p.trim p.trim.methods = .ok fs' from hfs', hlen, hinit']
  rfl

end Codegen
end Cascade
