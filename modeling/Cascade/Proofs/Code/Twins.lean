import Cascade.Code.Module
import Cascade.Proofs.Code.Reach
import Mathlib.Data.List.Forall2

/-!
# Cascade.Proofs.Code.Twins

The same code under other numbers. Two functions are twins if the registers, local variables and
blocks of one correspond to those of the other, and paired blocks do the same with them. Either may
have more of all of these, which no paired block mentions.

* `Pairs`: a one-to-one correspondence of some numbers.
* `Renaming`: the correspondence of registers, local variables and blocks.
* `Instr.Twin`, `Terminator.Twin`, `Block.Twin`: the same code under a renaming; more pairs change
  nothing about it.
* `Function.Twin`, `Module.Twin`: functions found under the same number are twins.
-/

namespace Cascade.Code

/-- Some numbers below `n` are paired with some below `n'`, each with one at most. -/
structure Pairs (n n' : Nat) (r : Nat → Nat → Prop) : Prop where
  left : ∀ {i j}, r i j → i < n
  right : ∀ {i j}, r i j → j < n'
  iff : ∀ {i j i' j'}, r i j → r i' j' → (i = i' ↔ j = j')

def paired (r : Nat → Nat → Prop) (a b i j : Nat) : Prop := r i j ∨ i = a ∧ j = b

namespace Pairs

variable {n n' : Nat} {r : Nat → Nat → Prop}

theorem mono (h : Pairs n n' r) {k k' : Nat} (hk : n ≤ k) (hk' : n' ≤ k') : Pairs k k' r :=
  ⟨fun hr => Nat.lt_of_lt_of_le (h.left hr) hk, fun hr => Nat.lt_of_lt_of_le (h.right hr) hk',
    h.iff⟩

theorem same (n : Nat) : Pairs n n fun i j => i = j ∧ i < n :=
  ⟨fun h => h.2, fun h => h.1 ▸ h.2, fun h h' => by rw [h.1, h'.1]⟩

theorem add (h : Pairs n n' r) : Pairs (n + 1) (n' + 1) (paired r n n') where
  left := fun hr => by
    obtain hr | ⟨rfl, -⟩ := hr
    · exact Nat.lt_succ_of_lt (h.left hr)
    · exact Nat.lt_succ_self _
  right := fun hr => by
    obtain hr | ⟨-, rfl⟩ := hr
    · exact Nat.lt_succ_of_lt (h.right hr)
    · exact Nat.lt_succ_self _
  iff := fun hr hr' => by
    obtain hr | ⟨rfl, rfl⟩ := hr
    · obtain hr' | ⟨rfl, rfl⟩ := hr'
      · exact h.iff hr hr'
      · have hi := h.left hr
        have hj := h.right hr
        omega
    · obtain hr' | ⟨rfl, rfl⟩ := hr'
      · have hi := h.left hr'
        have hj := h.right hr'
        omega
      · simp

end Pairs

/-- Which registers, local variables and blocks correspond. -/
structure Renaming where
  registers : Nat → Nat → Prop
  locals : Nat → Nat → Prop
  blocks : Nat → Nat → Prop

/-- A renaming with all pairs of another one. -/
structure Renaming.Le (ρ ρ' : Renaming) : Prop where
  registers : ∀ {i j}, ρ.registers i j → ρ'.registers i j
  locals : ∀ {i j}, ρ.locals i j → ρ'.locals i j
  blocks : ∀ {i j}, ρ.blocks i j → ρ'.blocks i j

theorem Renaming.Le.refl (ρ : Renaming) : ρ.Le ρ := ⟨id, id, id⟩

theorem Renaming.Le.trans {ρ ρ' ρ'' : Renaming} (h : ρ.Le ρ') (h' : ρ'.Le ρ'') : ρ.Le ρ'' :=
  ⟨h'.registers ∘ h.registers, h'.locals ∘ h.locals, h'.blocks ∘ h.blocks⟩

/-! ## Instructions and blocks -/

section

variable (ρ : Renaming)

def Register.Twin (r r' : Register) : Prop := r.ty = r'.ty ∧ ρ.registers r.id r'.id

inductive Instr.Twin : Instr → Instr → Prop where
  | const {d d' : Register} {v : Scalar} : d.Twin ρ d' → Twin (.const d v) (.const d' v)
  | copy {d d' r r' : Register} : d.Twin ρ d' → r.Twin ρ r' → Twin (.copy d r) (.copy d' r')
  | binary {d d' l l' r r' : Register} (op : BinaryOp) : d.Twin ρ d' → l.Twin ρ l' →
      r.Twin ρ r' → Twin (.binary d op l r) (.binary d' op l' r')
  | unary {d d' r r' : Register} (op : UnaryOp) : d.Twin ρ d' → r.Twin ρ r' →
      Twin (.unary d op r) (.unary d' op r')
  | convert {d d' r r' : Register} : d.Twin ρ d' → r.Twin ρ r' →
      Twin (.convert d r) (.convert d' r')
  | loadLocal {d d' : Register} {i j : LocalIndex} : d.Twin ρ d' → ρ.locals i j →
      Twin (.loadLocal d i) (.loadLocal d' j)
  | storeLocal {r r' : Register} {i j : LocalIndex} : ρ.locals i j → r.Twin ρ r' →
      Twin (.storeLocal i r) (.storeLocal j r')
  | loadField {d d' : Register} {f : FieldId} : d.Twin ρ d' →
      Twin (.loadField d f) (.loadField d' f)
  | storeField {r r' : Register} {f : FieldId} : r.Twin ρ r' →
      Twin (.storeField f r) (.storeField f r')
  | call {d d' : Option Register} {f : FunctionId} : Option.Rel (Register.Twin ρ) d d' →
      Twin (.call d f) (.call d' f)
  | print {r r' : Option Register} : Option.Rel (Register.Twin ρ) r r' →
      Twin (.print r) (.print r')

def caseTwin (c c' : Int × BlockId) : Prop := c.1 = c'.1 ∧ ρ.blocks c.2 c'.2

inductive Terminator.Twin : Terminator → Terminator → Prop where
  | jump {b b' : BlockId} : ρ.blocks b b' → Twin (.jump b) (.jump b')
  | branch {c c' : Register} {yes yes' no no' : BlockId} : c.Twin ρ c' → ρ.blocks yes yes' →
      ρ.blocks no no' → Twin (.branch c yes no) (.branch c' yes' no')
  | ret {r r' : Option Register} : Option.Rel (Register.Twin ρ) r r' → Twin (.ret r) (.ret r')
  | switch {r r' : Register} {cases cases' : List (Int × BlockId)} {o o' : BlockId} :
      r.Twin ρ r' → List.Forall₂ (caseTwin ρ) cases cases' → ρ.blocks o o' →
      Twin (.switch r cases o) (.switch r' cases' o')
  | unreachable : Twin .unreachable .unreachable

structure Block.Twin (b b' : Block) : Prop where
  code : List.Forall₂ (Instr.Twin ρ) b.code b'.code
  term : b.term.Twin ρ b'.term

end

section

variable {ρ ρ' : Renaming} (h : ρ.Le ρ')
include h

theorem Register.Twin.mono {r r' : Register} (hr : r.Twin ρ r') : r.Twin ρ' r' :=
  ⟨hr.1, h.registers hr.2⟩

theorem Register.Twin.mono_option {r r' : Option Register}
    (hr : Option.Rel (Register.Twin ρ) r r') : Option.Rel (Register.Twin ρ') r r' := by
  cases hr with
  | none => exact .none
  | some hr => exact .some (hr.mono h)

theorem Instr.Twin.mono {i i' : Instr} (hi : i.Twin ρ i') : i.Twin ρ' i' := by
  cases hi with
  | const hd => exact .const (hd.mono h)
  | copy hd hr => exact .copy (hd.mono h) (hr.mono h)
  | binary op hd hl hr => exact .binary op (hd.mono h) (hl.mono h) (hr.mono h)
  | unary op hd hr => exact .unary op (hd.mono h) (hr.mono h)
  | convert hd hr => exact .convert (hd.mono h) (hr.mono h)
  | loadLocal hd hl => exact .loadLocal (hd.mono h) (h.locals hl)
  | storeLocal hl hr => exact .storeLocal (h.locals hl) (hr.mono h)
  | loadField hd => exact .loadField (hd.mono h)
  | storeField hr => exact .storeField (hr.mono h)
  | call hd => exact .call (Register.Twin.mono_option h hd)
  | print hr => exact .print (Register.Twin.mono_option h hr)

theorem Terminator.Twin.mono {t t' : Terminator} (ht : t.Twin ρ t') : t.Twin ρ' t' := by
  cases ht with
  | jump hb => exact .jump (h.blocks hb)
  | branch hc hy hn => exact .branch (hc.mono h) (h.blocks hy) (h.blocks hn)
  | ret hr => exact .ret (Register.Twin.mono_option h hr)
  | switch hr hcases ho =>
    exact .switch (hr.mono h) (hcases.imp fun _ _ hc => ⟨hc.1, h.blocks hc.2⟩) (h.blocks ho)
  | unreachable => exact .unreachable

theorem Block.Twin.mono {b b' : Block} (hb : b.Twin ρ b') : b.Twin ρ' b' :=
  ⟨hb.code.imp fun _ _ hi => hi.mono h, hb.term.mono h⟩

end

theorem Terminator.Twin.isClosed {ρ : Renaming} {t t' : Terminator} (h : t.Twin ρ t') :
    t.isClosed = t'.isClosed := by
  cases h <;> rfl

theorem Block.Twin.isClosed {ρ : Renaming} {b b' : Block} (h : b.Twin ρ b') :
    b.isClosed = b'.isClosed := h.term.isClosed

/-! ## Functions and modules -/

/-- How many slots a call of the function takes. -/
def Function.size (f : Function) : Nat := f.locals.length + f.registers

/-- Paired blocks of two functions are twins. The left one may need more slots. -/
structure Function.Twin (ρ : Renaming) (f f' : Function) : Prop where
  registers : Pairs f.registers f'.registers ρ.registers
  locals : Pairs f.locals.length f'.locals.length ρ.locals
  types : ∀ {i j l l'}, ρ.locals i j → f.locals[i]? = some l → f'.locals[j]? = some l' →
    l.ty = l'.ty
  numeric : (∀ l ∈ f.locals, l.ty.isNumeric = true) ∧ ∀ l ∈ f'.locals, l.ty.isNumeric = true
  size : f'.locals.length ≤ f.locals.length ∧ f'.registers ≤ f.registers
  entry : ρ.blocks f.entry f'.entry
  block : ∀ {i j}, ρ.blocks i j →
    ∃ b b', f.block? i = some b ∧ f'.block? j = some b' ∧ b.Twin ρ b'

/-- Modules with the same fields, whose functions are twins, each under a renaming of its own. -/
structure Module.Twin (σ : FunctionId → Renaming) (m m' : Module) : Prop where
  fields : m.fields = m'.fields
  initializer : m.initializer = m'.initializer
  entry : m.entry = m'.entry
  length : m.functions.length = m'.functions.length
  function : ∀ {i : FunctionId} {f f' : Function}, m.functions[i]? = some f →
    m'.functions[i]? = some f' → f.Twin (σ i) f'

theorem Module.Twin.found {σ : FunctionId → Renaming} {m m' : Module} (h : m.Twin σ m')
    (i : FunctionId) : (m.functions[i]? = none ∧ m'.functions[i]? = none) ∨
      ∃ f f', m.functions[i]? = some f ∧ m'.functions[i]? = some f' ∧ f.Twin (σ i) f' := by
  by_cases hi : i < m.functions.length
  · have hf := List.getElem?_eq_getElem hi
    have hf' := List.getElem?_eq_getElem (h.length ▸ hi)
    exact .inr ⟨_, _, hf, hf', h.function hf hf'⟩
  · exact .inl ⟨List.getElem?_eq_none (Nat.le_of_not_lt hi),
      List.getElem?_eq_none (h.length ▸ Nat.le_of_not_lt hi)⟩

theorem forall₂_getElem? {α β : Type} {R : α → β → Prop} {as : List α} {bs : List β}
    (h : List.Forall₂ R as bs) (n : Nat) :
    (as[n]? = none ∧ bs[n]? = none) ∨ ∃ a b, as[n]? = some a ∧ bs[n]? = some b ∧ R a b := by
  induction h generalizing n with
  | nil => exact .inl ⟨rfl, rfl⟩
  | cons hab _ ih =>
    cases n with
    | zero => exact .inr ⟨_, _, rfl, rfl, hab⟩
    | succ n => exact ih n

/-! ## What the entry leads to -/

/-- A renaming that leaves blocks without a partner unless they are in given sets. -/
def Renaming.within (ρ : Renaming) (P Q : Nat → Prop) : Renaming :=
  ⟨ρ.registers, ρ.locals, fun i j => ρ.blocks i j ∧ P i ∧ Q j⟩

section

variable {ρ : Renaming} {P Q : Nat → Prop}

/-- No instruction mentions a block. -/
theorem Instr.Twin.within {i i' : Instr} (h : i.Twin ρ i') : i.Twin (ρ.within P Q) i' := by
  cases h with
  | const hd => exact .const hd
  | copy hd hr => exact .copy hd hr
  | binary op hd hl hr => exact .binary op hd hl hr
  | unary op hd hr => exact .unary op hd hr
  | convert hd hr => exact .convert hd hr
  | loadLocal hd hl => exact .loadLocal hd hl
  | storeLocal hl hr => exact .storeLocal hl hr
  | loadField hd => exact .loadField hd
  | storeField hr => exact .storeField hr
  | call hd => exact .call hd
  | print hr => exact .print hr

theorem Terminator.Twin.within {t t' : Terminator} (h : t.Twin ρ t')
    (hP : ∀ k ∈ t.targets, P k) (hQ : ∀ k ∈ t'.targets, Q k) : t.Twin (ρ.within P Q) t' := by
  cases h with
  | jump hb => exact .jump ⟨hb, hP _ (by simp [targets]), hQ _ (by simp [targets])⟩
  | branch hc hy hn =>
    exact .branch hc ⟨hy, hP _ (by simp [targets]), hQ _ (by simp [targets])⟩
      ⟨hn, hP _ (by simp [targets]), hQ _ (by simp [targets])⟩
  | ret hr => exact .ret hr
  | @switch r r' cases cases' o o' hr hcases ho =>
    refine .switch hr ?_ ⟨ho, hP _ (by simp [targets]), hQ _ (by simp [targets])⟩
    have hP' : ∀ c ∈ cases, P c.2 := fun c hc =>
      hP _ (List.mem_append_left _ (List.mem_map_of_mem hc))
    have hQ' : ∀ c ∈ cases', Q c.2 := fun c hc =>
      hQ _ (List.mem_append_left _ (List.mem_map_of_mem hc))
    clear hP hQ ho
    induction hcases with
    | nil => exact .nil
    | cons hc _ ih =>
      obtain ⟨hPc, hP'⟩ := List.forall_mem_cons.mp hP'
      obtain ⟨hQc, hQ'⟩ := List.forall_mem_cons.mp hQ'
      exact .cons ⟨hc.1, hc.2, hPc, hQc⟩ (ih hP' hQ')
  | unreachable => exact .unreachable

/-- Pruned twins are twins. A block that is dropped on one side leaves its partner alone. -/
theorem Function.Twin.prune {f f' : Function} (hf : f.Coherent) (hf' : f'.Coherent)
    (h : f.Twin ρ f') :
    f.prune.Twin (ρ.within (f.Leads f.entry) (f'.Leads f'.entry)) f'.prune where
  registers := h.registers
  locals := h.locals
  types := h.types
  numeric := h.numeric
  size := h.size
  entry := ⟨h.entry, .refl, .refl⟩
  block := fun ⟨hij, hi, hj⟩ => by
    obtain ⟨b, b', hb, hb', ht⟩ := h.block hij
    refine ⟨b, b', (hf.block?_prune hi).trans hb, (hf'.block?_prune hj).trans hb',
      ht.code.imp fun _ _ hc => hc.within, ht.term.within (fun k hk => hi.step ?_)
      fun k hk => hj.step ?_⟩
    · rwa [successors, hb]
    · rwa [successors, hb']

end

/-! ## Windows -/

/-- Offsets in the windows of two twins that correspond: those of local variables, and behind them
those of registers. -/
def Renaming.offsets (ρ : Renaming) (f f' : Function) (i j : Nat) : Prop :=
  ρ.locals i j ∨
    ∃ r r', ρ.registers r r' ∧ i = f.locals.length + r ∧ j = f'.locals.length + r'

theorem Function.Twin.offsets {ρ : Renaming} {f f' : Function} (h : f.Twin ρ f') :
    Pairs f.size f'.size (ρ.offsets f f') where
  left := fun ho => by
    unfold Function.size
    obtain hl | ⟨r, r', hr, rfl, -⟩ := ho
    · have := h.locals.left hl
      omega
    · have := h.registers.left hr
      omega
  right := fun ho => by
    unfold Function.size
    obtain hl | ⟨r, r', hr, -, rfl⟩ := ho
    · have := h.locals.right hl
      omega
    · have := h.registers.right hr
      omega
  iff := fun ho ho' => by
    obtain hl | ⟨r, r', hr, rfl, rfl⟩ := ho
    · obtain hl' | ⟨u, u', hu, rfl, rfl⟩ := ho'
      · exact h.locals.iff hl hl'
      · -- a local variable is never where a register is, on either side
        have hi := h.locals.left hl
        have hj := h.locals.right hl
        omega
    · obtain hl' | ⟨u, u', hu, rfl, rfl⟩ := ho'
      · have hi := h.locals.left hl'
        have hj := h.locals.right hl'
        omega
      · rw [Nat.add_left_cancel_iff, Nat.add_left_cancel_iff]
        exact h.registers.iff hr hu

end Cascade.Code
