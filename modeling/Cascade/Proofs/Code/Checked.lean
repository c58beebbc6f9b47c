import Cascade.Code.Valid

/-!
# Cascade.Proofs.Code.Checked

What a module has that passes the checks of `Cascade.Code.Valid`.

* `Instr.Checked`, `Block.Checked`, `Function.Checked`, `Module.Checked`: what is known of each
  part. Of the registers that an instruction names, only the one that it writes is known to be
  there.
* `Module.checked_of_isValid`: all parts of a valid module are like that.
* `Module.ReadsBeyond`: what the checks let through.
-/

namespace Cascade.Code

/-- Whatever an instruction writes or refers to is there. Nothing is said of the registers that it
reads. -/
inductive Instr.Checked (m : Module) (f : Function) : Instr → Prop where
  | const {d : Register} {v : Scalar} : d.id < f.registers → Checked m f (.const d v)
  | copy {d r : Register} : d.id < f.registers → Checked m f (.copy d r)
  | binary {d l r : Register} {op : BinaryOp} : d.id < f.registers → Checked m f (.binary d op l r)
  | unary {d r : Register} {op : UnaryOp} : d.id < f.registers → Checked m f (.unary d op r)
  | convert {d r : Register} : d.id < f.registers → Checked m f (.convert d r)
  | loadLocal {d : Register} {n : LocalIndex} : d.id < f.registers → n < f.locals.length →
      Checked m f (.loadLocal d n)
  | storeLocal {n : LocalIndex} {r : Register} : n < f.locals.length → Checked m f (.storeLocal n r)
  | loadField {d : Register} {k : FieldId} : d.id < f.registers → k < m.fields.length →
      Checked m f (.loadField d k)
  | storeField {k : FieldId} {r : Register} : k < m.fields.length → Checked m f (.storeField k r)
  | call {d : Option Register} {j : FunctionId} {g : Function} : (∀ r ∈ d, r.id < f.registers) →
      m.functions[j]? = some g → (∀ r ∈ d, r.ty = g.returns) → Checked m f (.call d j)
  | print {r : Option Register} : Checked m f (.print r)

theorem Instr.Checked.dest {m : Module} {f : Function} {i : Instr} (h : i.Checked m f)
    {r : Register} (hr : i.dest? = some r) : r.id < f.registers := by
  cases h with
  | const hd | copy hd | binary hd | unary hd | convert hd | loadLocal hd | loadField hd =>
    cases hr
    exact hd
  | call hd => exact hd r hr
  | storeLocal | storeField | print => cases hr

/-- A block ends, goes on in blocks that are there, and decides by a register that is there. -/
structure Block.Checked (m : Module) (f : Function) (b : Block) : Prop where
  closed : b.isClosed = true
  targets : ∀ k ∈ b.term.targets, ∃ c, f.block? k = some c
  code : ∀ i ∈ b.code, i.Checked m f
  reads : ∀ r ∈ b.term.reads, r.id < f.registers

structure Function.Checked (m : Module) (f : Function) : Prop where
  entry : ∃ b, f.block? f.entry = some b
  blocks : ∀ b ∈ f.blocks, b.Checked m f

structure Module.Checked (m : Module) : Prop where
  initializer : ∃ f, m.functions[m.initializer]? = some f
  entry : ∃ f, m.functions[m.entry]? = some f
  functions : ∀ f ∈ m.functions, f.Checked m

/-- Some instruction reads a register that its function does not have. -/
def Module.ReadsBeyond (m : Module) : Prop :=
  ∃ f ∈ m.functions, ∃ b ∈ f.blocks, ∃ i ∈ b.code, ∃ r ∈ i.reads, f.registers ≤ r.id

instance (m : Module) : Decidable m.ReadsBeyond :=
  inferInstanceAs (Decidable (∃ f ∈ m.functions, ∃ b ∈ f.blocks, ∃ i ∈ b.code, ∃ r ∈ i.reads,
    f.registers ≤ r.id))

/-! ## Functions -/

namespace Function

variable {f : Function} {id : BlockId}

theorem registerProblem?_eq_none_iff {r : Register} :
    f.registerProblem? id r = none ↔ r.id < f.registers := by
  simp [registerProblem?]

theorem localProblem?_eq_none_iff {n : LocalIndex} :
    f.localProblem? id n = none ↔ n < f.locals.length := by
  simp [localProblem?]

theorem checked_instr {m : Module} {name : String} {i : Instr} (hi : f.instrProblem? id i = none)
    (hr : m.referenceProblem? name id i = none) : i.Checked m f := by
  obtain ⟨hdest, hlocal⟩ := Option.or_eq_none_iff.mp hi
  have hdest : ∀ d ∈ i.dest?, d.id < f.registers := fun d hd =>
    registerProblem?_eq_none_iff.mp (Option.bind_eq_none_iff.mp hdest d hd)
  cases i with
  | const d v => exact .const (hdest d rfl)
  | copy d r => exact .copy (hdest d rfl)
  | binary d op l r => exact .binary (hdest d rfl)
  | unary d op r => exact .unary (hdest d rfl)
  | convert d r => exact .convert (hdest d rfl)
  | loadLocal d n => exact .loadLocal (hdest d rfl) (localProblem?_eq_none_iff.mp hlocal)
  | storeLocal n r => exact .storeLocal (localProblem?_eq_none_iff.mp hlocal)
  | loadField d k => exact .loadField (hdest d rfl) (by simpa [Module.referenceProblem?] using hr)
  | storeField k r => exact .storeField (by simpa [Module.referenceProblem?] using hr)
  | print r => exact .print
  | call d j =>
    rw [Module.referenceProblem?] at hr
    cases hj : m.functions[j]? with
    | none => rw [hj] at hr; cases hr
    | some g =>
      refine .call hdest hj fun r hd => ?_
      obtain rfl : d = some r := hd
      simpa [hj] using hr

theorem checked_term {t : Terminator} (h : f.termProblem? id t = none) :
    ∀ r ∈ t.reads, r.id < f.registers := by
  intro r hr
  cases t with
  | jump | unreachable => cases hr
  | branch c yes no =>
    obtain rfl : r = c := List.mem_singleton.mp hr
    exact registerProblem?_eq_none_iff.mp h
  | switch v cases otherwise =>
    obtain rfl : r = v := List.mem_singleton.mp hr
    exact registerProblem?_eq_none_iff.mp (Option.or_eq_none_iff.mp h).1
  | ret v =>
    obtain rfl : v = some r := Option.mem_toList.mp hr
    simp only [termProblem?, returnProblem?] at h
    split at h
    · cases h
    · split at h
      · cases h
      · exact registerProblem?_eq_none_iff.mp h

theorem checked_block {m : Module} {name : String} {b : Block} (h : f.blockProblem? b = none)
    (hr : ∀ i ∈ b.code, m.referenceProblem? name b.id i = none) : b.Checked m f := by
  rw [blockProblem?] at h
  split at h
  · cases h
  · rename_i hclosed
    simp only [Option.or_eq_none_iff, List.findSome?_eq_none_iff] at h
    obtain ⟨htargets, hcode, hterm⟩ := h
    refine ⟨by simpa using hclosed, fun k hk => ?_,
      fun i hi => checked_instr (hcode i hi) (hr i hi), checked_term hterm⟩
    cases hk' : f.block? k with
    | some c => exact ⟨c, rfl⟩
    | none => simpa [hk'] using htargets k hk

theorem checked {m : Module} (h : m.functionProblems f = []) : f.Checked m := by
  rw [Module.functionProblems, List.append_eq_nil_iff, Option.toList_eq_nil_iff,
    Option.map_eq_none_iff, List.flatMap_eq_nil_iff] at h
  obtain ⟨hf, hrefs⟩ := h
  rw [problem?] at hf
  split at hf
  · cases hf
  · split at hf
    · cases hf
    · rename_i hentry
      refine ⟨Option.ne_none_iff_exists'.mp (by simpa using hentry), fun b hb => ?_⟩
      exact checked_block (List.findSome?_eq_none_iff.mp hf b hb)
        (List.filterMap_eq_nil_iff.mp (hrefs b hb))

end Function

/-! ## Modules -/

theorem Module.checked_of_isValid {m : Module} (h : m.isValid = true) : m.Checked := by
  rw [isValid, List.isEmpty_iff, problems, List.append_eq_nil_iff, List.append_eq_nil_iff] at h
  obtain ⟨⟨hinit, hentry⟩, hfunctions⟩ := h
  have hinit : m.initializer < m.functions.length := by simpa using hinit
  have hentry : m.entry < m.functions.length := by simpa using hentry
  exact ⟨⟨_, List.getElem?_eq_getElem hinit⟩, ⟨_, List.getElem?_eq_getElem hentry⟩,
    fun f hf => Function.checked (List.flatMap_eq_nil_iff.mp hfunctions f hf)⟩

end Cascade.Code
