import Cascade.Code.Module
import Cascade.Proofs.Scalar
import Cascade.Proofs.Typed.WellTyped

/-!
# Cascade.Proofs.Code.Fits

Typing of code. What a function may rely on is written down once, as a scheme; code fits it if
every instruction reads only registers that are written by then and hold what it needs.

* `Instr.Fits`, `Terminator.Fits`: one instruction or terminator, given the registers written
  before it.
* `CodeFits.append`: code is extended by one instruction at its end.
* `Scheme.Le`: more local variables and registers leave everything as it was.
-/

namespace Cascade.Code

/-- The types that the code of a function can rely on: those of the members of the program, of its
result, of its local variables and of its registers. -/
structure Scheme where
  members : Signature
  returns : Ty
  locals : List Ty
  registers : List Ty

namespace Scheme

/-- The second scheme has all local variables and registers of the first. -/
structure Le (c c' : Scheme) : Prop where
  members : c'.members = c.members
  returns : c'.returns = c.returns
  locals : ∃ more, c'.locals = c.locals ++ more
  registers : ∃ more, c'.registers = c.registers ++ more

theorem Le.refl (c : Scheme) : c.Le c := ⟨rfl, rfl, ⟨[], by simp⟩, ⟨[], by simp⟩⟩

theorem Le.trans {c c' c'' : Scheme} (h : c.Le c') (h' : c'.Le c'') : c.Le c'' := by
  obtain ⟨l, hl⟩ := h.locals
  obtain ⟨r, hr⟩ := h.registers
  obtain ⟨l', hl'⟩ := h'.locals
  obtain ⟨r', hr'⟩ := h'.registers
  exact ⟨h'.members.trans h.members, h'.returns.trans h.returns,
    ⟨l ++ l', by rw [hl', hl, List.append_assoc]⟩, ⟨r ++ r', by rw [hr', hr, List.append_assoc]⟩⟩

theorem Le.local {c c' : Scheme} (h : c.Le c') {n : Nat} {t : Ty} (hn : c.locals[n]? = some t) :
    c'.locals[n]? = some t := by
  obtain ⟨more, he⟩ := h.locals
  obtain ⟨hlt, -⟩ := List.getElem?_eq_some_iff.mp hn
  rw [he, List.getElem?_append_left hlt, hn]

theorem Le.register {c c' : Scheme} (h : c.Le c') {n : Nat} {t : Ty}
    (hn : c.registers[n]? = some t) : c'.registers[n]? = some t := by
  obtain ⟨more, he⟩ := h.registers
  obtain ⟨hlt, -⟩ := List.getElem?_eq_some_iff.mp hn
  rw [he, List.getElem?_append_left hlt, hn]

def Declares (c : Scheme) (r : Register) : Prop := c.registers[r.id]? = some r.ty

def Has (c : Scheme) (written : List Nat) (r : Register) : Prop := c.Declares r ∧ r.id ∈ written

theorem Has.mono {c c' : Scheme} {w w' : List Nat} {r : Register} (h : c.Has w r) (hc : c.Le c')
    (hw : w ⊆ w') : c'.Has w' r :=
  ⟨hc.register h.1, hw h.2⟩

end Scheme

/-- An instruction that may stand where some registers are written. Registers are never copied. -/
inductive Instr.Fits (c : Scheme) (written : List Nat) : Instr → Prop where
  | const {d : Register} {v : Scalar} : c.Declares d → v.ty = d.ty → Fits c written (.const d v)
  | binary {d l r : Register} {op : BinaryOp} : c.Declares d → c.Has written l →
      c.Has written r → l.ty = r.ty → d.ty = Scalar.binaryTy op l.ty →
      Fits c written (.binary d op l r)
  | unary {d r : Register} {op : UnaryOp} : c.Declares d → c.Has written r →
      d.ty = Scalar.unaryTy op r.ty → Fits c written (.unary d op r)
  | convert {d r : Register} : c.Declares d → c.Has written r → d.ty.isNumeric = true →
      Fits c written (.convert d r)
  | loadLocal {d : Register} {n : LocalIndex} : c.Declares d → c.locals[n]? = some d.ty →
      Fits c written (.loadLocal d n)
  | storeLocal {n : LocalIndex} {r : Register} : c.Has written r → c.locals[n]? = some r.ty →
      Fits c written (.storeLocal n r)
  | loadField {d : Register} {f : FieldId} : c.Declares d → c.members.fields[f]? = some d.ty →
      Fits c written (.loadField d f)
  | storeField {f : FieldId} {r : Register} : c.Has written r →
      c.members.fields[f]? = some r.ty → Fits c written (.storeField f r)
  | callVoid {m : FunctionId} : c.members.methods[m]? = some .void →
      Fits c written (.call none m)
  | callValue {d : Register} {m : FunctionId} : c.Declares d →
      c.members.methods[m]? = some d.ty → d.ty ≠ .void → Fits c written (.call (some d) m)
  | print {r : Register} : c.Has written r → Fits c written (.print (some r))
  | printBlank : Fits c written (.print none)

/-- A terminator that may end a block where some registers are written. -/
inductive Terminator.Fits (c : Scheme) (written : List Nat) : Terminator → Prop where
  | jump {b : BlockId} : Fits c written (.jump b)
  | branch {r : Register} {yes no : BlockId} : c.Has written r →
      Fits c written (.branch r yes no)
  | switch {r : Register} {cases : List (Int × BlockId)} {otherwise : BlockId} :
      c.Has written r → r.ty.isIntegral = true → (cases.map Prod.fst).Nodup →
      Fits c written (.switch r cases otherwise)
  | retNone : c.returns = .void → Fits c written (.ret none)
  | retSome {r : Register} : c.Has written r → r.ty = c.returns → c.returns ≠ .void →
      Fits c written (.ret (some r))

theorem Instr.Fits.mono {c c' : Scheme} {w w' : List Nat} {i : Instr} (h : i.Fits c w)
    (hc : c.Le c') (hw : w ⊆ w') : i.Fits c' w' := by
  cases h with
  | const hd hv => exact .const (hc.register hd) hv
  | binary hd hl hr hlr hty =>
    exact .binary (hc.register hd) (hl.mono hc hw) (hr.mono hc hw) hlr hty
  | unary hd hr hty => exact .unary (hc.register hd) (hr.mono hc hw) hty
  | convert hd hr hn => exact .convert (hc.register hd) (hr.mono hc hw) hn
  | loadLocal hd hn => exact .loadLocal (hc.register hd) (hc.local hn)
  | storeLocal hr hn => exact .storeLocal (hr.mono hc hw) (hc.local hn)
  | loadField hd hf => exact .loadField (hc.register hd) (by rw [hc.members]; exact hf)
  | storeField hr hf => exact .storeField (hr.mono hc hw) (by rw [hc.members]; exact hf)
  | callVoid hm => exact .callVoid (by rw [hc.members]; exact hm)
  | callValue hd hm hv => exact .callValue (hc.register hd) (by rw [hc.members]; exact hm) hv
  | print hr => exact .print (hr.mono hc hw)
  | printBlank => exact .printBlank

theorem Terminator.Fits.mono {c c' : Scheme} {w w' : List Nat} {t : Terminator} (h : t.Fits c w)
    (hc : c.Le c') (hw : w ⊆ w') : t.Fits c' w' := by
  cases h with
  | jump => exact .jump
  | branch hr => exact .branch (hr.mono hc hw)
  | switch hr hi hd => exact .switch (hr.mono hc hw) hi hd
  | retNone hv => exact .retNone (hc.returns.trans hv)
  | retSome hr hty hv =>
    exact .retSome (hr.mono hc hw) (hty.trans hc.returns.symm) (by rwa [hc.returns])

theorem Terminator.Fits.isClosed {c : Scheme} {w : List Nat} {t : Terminator} (h : t.Fits c w) :
    t.isClosed = true := by
  cases h <;> rfl

/-- Whatever an instruction reads is written before it. -/
theorem Instr.Fits.reads {c : Scheme} {w : List Nat} {i : Instr} (h : i.Fits c w) :
    ∀ r ∈ i.reads, c.Has w r := by
  intro r hr
  cases h with
  | const | loadLocal | loadField | callVoid | callValue | printBlank => cases hr
  | unary _ hr' | convert _ hr' | storeLocal hr' | storeField hr' | print hr' =>
    obtain rfl : r = _ := List.mem_singleton.mp hr
    exact hr'
  | binary _ hl hr' =>
    simp only [Instr.reads, List.mem_cons, List.not_mem_nil, or_false] at hr
    obtain rfl | rfl := hr
    · exact hl
    · exact hr'

theorem Terminator.Fits.reads {c : Scheme} {w : List Nat} {t : Terminator} (h : t.Fits c w) :
    ∀ r ∈ t.reads, c.Has w r := by
  intro r hr
  cases h with
  | branch hr' | switch hr' | retSome hr' =>
    obtain rfl : r = _ := List.mem_singleton.mp hr
    exact hr'
  | jump | retNone => cases hr

theorem Instr.Fits.dest {c : Scheme} {w : List Nat} {i : Instr} (h : i.Fits c w) :
    ∀ d ∈ i.dest?, c.Declares d := by
  intro d hd
  cases h with
  | const hd' | binary hd' | unary hd' | convert hd' | loadLocal hd' | loadField hd'
  | callValue hd' =>
    cases hd
    exact hd'
  | storeLocal | storeField | callVoid | print | printBlank => cases hd

theorem Instr.Fits.declares {c : Scheme} {w : List Nat} {i : Instr} (h : i.Fits c w) :
    ∀ r ∈ i.dest?.toList ++ i.reads, c.Declares r := fun r hr =>
  (List.mem_append.mp hr).elim (fun hr => h.dest r (Option.mem_toList.mp hr))
    fun hr => (h.reads r hr).1

theorem Terminator.Fits.declares {c : Scheme} {w : List Nat} {t : Terminator} (h : t.Fits c w) :
    ∀ r ∈ t.reads, c.Declares r :=
  fun r hr => (h.reads r hr).1

def Instr.after (written : List Nat) (i : Instr) : List Nat :=
  match i.dest? with
  | some d => d.id :: written
  | none => written

def afterCode (written : List Nat) (code : List Instr) : List Nat :=
  code.foldl Instr.after written

theorem afterCode_append (w : List Nat) (code : List Instr) (i : Instr) :
    afterCode w (code ++ [i]) = i.after (afterCode w code) := by
  simp [afterCode]

/-- Code that may run where some registers are written. -/
def CodeFits (c : Scheme) (written : List Nat) : List Instr → Prop
  | [] => True
  | i :: is => i.Fits c written ∧ CodeFits c (i.after written) is

theorem CodeFits.append {c : Scheme} {i : Instr} : ∀ {code : List Instr} {w : List Nat},
    CodeFits c w code → i.Fits c (afterCode w code) → CodeFits c w (code ++ [i])
  | [], _, _, hi => ⟨hi, trivial⟩
  | _ :: _, _, h, hi => ⟨h.1, CodeFits.append h.2 hi⟩

theorem CodeFits.mono {c c' : Scheme} (hc : c.Le c') : ∀ {code : List Instr} {w : List Nat},
    CodeFits c w code → CodeFits c' w code
  | [], _, _ => trivial
  | _ :: _, _, h => ⟨h.1.mono hc (List.Subset.refl _), CodeFits.mono hc h.2⟩

theorem CodeFits.get {c : Scheme} {i : Instr} : ∀ {code : List Instr} {w : List Nat} {n : Nat},
    CodeFits c w code → code[n]? = some i → i.Fits c (afterCode w (code.take n))
  | _ :: _, _, 0, h, hi => by cases hi; exact h.1
  | j :: is, w, n + 1, h, hi => by
    have hrest : i.Fits c (afterCode (j.after w) (is.take n)) :=
      CodeFits.get h.2 (by simpa using hi)
    exact hrest

end Cascade.Code
