import Cascade.Code.Valid
import Cascade.Proofs.Code.Fits
import Cascade.Proofs.Code.Reach

/-!
# Cascade.Proofs.Code.Certified

Whole functions and modules that fit. A certificate of a function tells the types of its registers
and which of them are written wherever control enters a block.

* `Function.Fits`: every block that control can get to fits.
* `Function.Fits.prune`: pruning keeps a certificate.
* `Module.Fits.isValid`: a module whose functions are certified passes all checks.
-/

namespace Cascade.Code

/-- What is known of the registers of a function. -/
structure Certificate where
  types : List Ty
  starts : Nat → List Nat

namespace Function

def scheme (f : Function) (g : Signature) (c : Certificate) : Scheme :=
  ⟨g, f.returns, f.locals.map Local.ty, c.types⟩

/-- A block fits where it stands, and what is taken to be written in the blocks behind it is. -/
structure BlockFits (f : Function) (g : Signature) (c : Certificate) (k : Nat) (b : Block) :
    Prop where
  code : CodeFits (f.scheme g c) (c.starts k) b.code
  term : b.term.Fits (f.scheme g c) (afterCode (c.starts k) b.code)
  targets : ∀ l : Nat, l ∈ b.term.targets → c.starts l ⊆ afterCode (c.starts k) b.code

structure Fits (g : Signature) (c : Certificate) (f : Function) : Prop where
  types : c.types.length = f.registers
  locals : ∀ l ∈ f.locals, l.ty.isNumeric = true
  entry : c.starts f.entry = []
  block : ∀ k : Nat, f.Leads f.entry k → ∃ b, f.block? k = some b ∧ f.BlockFits g c k b

variable {f : Function} {g : Signature} {c : Certificate}

theorem Fits.blockFits (h : f.Fits g c) {k : BlockId} (hk : f.Leads f.entry k) {b : Block}
    (hb : f.block? k = some b) : f.BlockFits g c k b := by
  obtain ⟨b', hb', hfits⟩ := h.block k hk
  obtain rfl : b = b' := Option.some.inj (hb.symm.trans hb')
  exact hfits

theorem Leads.of_prune (hf : f.Coherent) {k : Nat} (h : f.prune.Leads f.entry k) :
    f.Leads f.entry k := by
  induction h with
  | refl => exact .refl
  | @step j l _ hl ih =>
    refine .step ih ?_
    unfold successors at hl ⊢
    rwa [hf.block?_prune ih] at hl

theorem Leads.prune (hf : f.Coherent) {k : Nat} (h : f.Leads f.entry k) :
    f.prune.Leads f.entry k := by
  induction h with
  | refl => exact .refl
  | @step j l hj hl ih =>
    refine .step ih ?_
    unfold successors at hl ⊢
    rwa [hf.block?_prune hj]

theorem Fits.prune (hf : f.Coherent) (h : f.Fits g c) : f.prune.Fits g c where
  types := h.types
  locals := h.locals
  entry := h.entry
  block := fun k hk => by
    have hk := Leads.of_prune hf hk
    obtain ⟨b, hb, hfits⟩ := h.block k hk
    exact ⟨b, (hf.block?_prune hk).trans hb, hfits.code, hfits.term, hfits.targets⟩

/-- No block is superfluous: each is found under its number, and control can get to it. -/
def Trim (f : Function) : Prop := ∀ b ∈ f.blocks, f.Leads f.entry b.id ∧ f.block? b.id = some b

theorem prune_trim (hf : f.Coherent)
    (hnum : ∀ {k : Nat} {b : Block}, f.blocks[k]? = some b → b.id = k) : f.prune.Trim := by
  intro b hb
  obtain ⟨hb, hreach⟩ := List.mem_filter.mp hb
  have hk : f.Leads f.entry b.id := mem_reachable.mp (by simpa using hreach)
  refine ⟨hk.prune hf, (hf.block?_prune hk).trans ?_⟩
  obtain ⟨j, hj⟩ := List.mem_iff_getElem?.mp hb
  rw [hf.block?_place hnum, hnum hj, hj]

/-! ## Validity -/

theorem registerProblem?_none (h : f.Fits g c) {b : Nat} {r : Register}
    (hr : (f.scheme g c).Declares r) : f.registerProblem? b r = none := by
  obtain ⟨hlt, -⟩ := List.getElem?_eq_some_iff.mp hr
  exact if_pos (h.types ▸ hlt)

theorem localProblem?_none {b : Nat} {n : LocalIndex} {t : Ty}
    (hn : (f.scheme g c).locals[n]? = some t) : f.localProblem? b n = none := by
  obtain ⟨hlt, -⟩ := List.getElem?_eq_some_iff.mp hn
  exact if_pos (by simpa [scheme] using hlt)

theorem instrProblem?_none (h : f.Fits g c) {w : List Nat} {i : Instr}
    (hi : i.Fits (f.scheme g c) w) (b : Nat) : f.instrProblem? b i = none := by
  unfold instrProblem?
  cases hi with
  | const hd | binary hd | unary hd | convert hd | loadField hd | callValue hd =>
    simp [Instr.dest?, registerProblem?_none h hd]
  | loadLocal hd hn =>
    simp [Instr.dest?, registerProblem?_none h hd, localProblem?_none hn]
  | storeLocal _ hn => simp [Instr.dest?, localProblem?_none hn]
  | storeField | callVoid | print | printBlank => rfl

theorem repeated?_none : ∀ {labels seen : List Int}, labels.Nodup → (∀ n ∈ labels, n ∉ seen) →
    repeated? seen labels = none
  | [], _, _, _ => rfl
  | n :: ns, seen, hd, hs => by
    obtain ⟨hn, hd⟩ := List.nodup_cons.mp hd
    rw [repeated?, if_neg (by simpa using hs n List.mem_cons_self)]
    refine repeated?_none hd fun k hk => ?_
    simp only [List.mem_cons, not_or]
    exact ⟨fun he => hn (he ▸ hk), hs k (List.mem_cons_of_mem n hk)⟩

theorem termProblem?_none (h : f.Fits g c) {w : List Nat} {t : Terminator}
    (ht : t.Fits (f.scheme g c) w) (b : Nat) : f.termProblem? b t = none := by
  cases ht with
  | jump => rfl
  | branch hr => exact registerProblem?_none h hr.1
  | @switch r cases otherwise hr hi hd =>
    have hlabels : repeated? [] (cases.map Prod.fst) = none := repeated?_none hd (by simp)
    simp [termProblem?, registerProblem?_none h hr.1, hi, hlabels]
  | retNone hv =>
    exact if_pos (Ty.isVoid_iff.mpr hv)
  | retSome hr hty hv =>
    have hv : f.returns.isVoid = false := Bool.eq_false_iff.mpr fun he => hv (Ty.isVoid_iff.mp he)
    simp [termProblem?, returnProblem?, hv, show _ = f.returns from hty,
      registerProblem?_none h hr.1]

theorem Fits.problem?_none (h : f.Fits g c) (htrim : f.Trim) : f.problem? = none := by
  obtain ⟨e, he, -⟩ := h.block _ .refl
  have hne : f.blocks.isEmpty = false := by
    cases hb : f.blocks with
    | nil => exact absurd (block?_mem he) (by simp [hb])
    | cons => rfl
  simp only [problem?, hne, he, Bool.false_eq_true, if_false, Option.isNone_some,
    List.findSome?_eq_none_iff]
  intro b hb
  obtain ⟨hreach, hfound⟩ := htrim b hb
  have hfits := h.blockFits hreach hfound
  have hclosed : b.isClosed = true := hfits.term.isClosed
  have htargets : (b.term.targets.findSome? fun t =>
      if (f.block? t).isNone then some (FunctionProblem.missingSuccessor b.id t) else none) =
      none := by
    refine List.findSome?_eq_none_iff.mpr fun t ht => ?_
    have hleads : f.Leads f.entry t := hreach.step (by simpa [successors, hfound] using ht)
    obtain ⟨b', hb', -⟩ := h.block t hleads
    simp [hb']
  have hcode : b.code.findSome? (f.instrProblem? b.id) = none := by
    refine List.findSome?_eq_none_iff.mpr fun i hi => ?_
    obtain ⟨n, hn⟩ := List.mem_iff_getElem?.mp hi
    exact instrProblem?_none h (hfits.code.get hn) _
  simp only [blockProblem?, hclosed, Bool.not_true, Bool.false_eq_true, if_false, htargets,
    hcode, termProblem?_none h hfits.term, Option.or_none]

end Function

namespace Module

/-- A module whose functions are certified against the members of a program. Its functions are
those of the methods and, behind them, others that are never called from code. -/
structure Fits (g : Signature) (m : Module) : Prop where
  fields : m.fields.map Field.ty = g.fields
  numeric : ∀ f ∈ m.fields, f.ty.isNumeric = true
  methods : ∀ {i : Nat} {t : Ty}, g.methods[i]? = some t →
    ∃ f, m.functions[i]? = some f ∧ f.returns = t
  functions : ∀ f ∈ m.functions, f.Trim ∧ ∃ c, f.Fits g c
  initializer : ∃ f, m.functions[m.initializer]? = some f ∧ f.returns = .void
  entry : m.entry < g.methods.length

variable {m : Module} {g : Signature}

theorem referenceProblem?_none (h : m.Fits g) {f : Function} {c : Certificate} {w : List Nat}
    {i : Instr} (hi : i.Fits (f.scheme g c) w) (name : String) (b : Nat) :
    m.referenceProblem? name b i = none := by
  have hfield : ∀ {k : Nat} {t : Ty}, g.fields[k]? = some t → k < m.fields.length := by
    intro k t hk
    rw [← h.fields] at hk
    obtain ⟨hlt, -⟩ := List.getElem?_eq_some_iff.mp hk
    simpa using hlt
  cases hi with
  | loadField _ hf => exact if_pos (hfield hf)
  | storeField _ hf => exact if_pos (hfield hf)
  | callVoid hm =>
    obtain ⟨callee, hc, -⟩ := h.methods hm
    simp [referenceProblem?, hc]
  | callValue _ hm _ =>
    obtain ⟨callee, hc, hret⟩ := h.methods hm
    simp [referenceProblem?, hc, hret]
  | _ => rfl

theorem Fits.isValid (h : m.Fits g) : m.isValid = true := by
  obtain ⟨init, hinit, -⟩ := h.initializer
  obtain ⟨hinit, -⟩ := List.getElem?_eq_some_iff.mp hinit
  have hentry : m.entry < m.functions.length := by
    obtain ⟨f, hf, -⟩ := h.methods (List.getElem?_eq_getElem h.entry)
    exact (List.getElem?_eq_some_iff.mp hf).1
  have hfunctions : m.functions.flatMap m.functionProblems = [] := by
    refine List.flatMap_eq_nil_iff.mpr fun f hf => ?_
    obtain ⟨htrim, c, hc⟩ := h.functions f hf
    have hrefs : f.blocks.flatMap (fun b => b.code.filterMap (m.referenceProblem? f.name b.id)) =
        [] := by
      refine List.flatMap_eq_nil_iff.mpr fun b hb => List.filterMap_eq_nil_iff.mpr fun i hi => ?_
      obtain ⟨hreach, hfound⟩ := htrim b hb
      obtain ⟨n, hn⟩ := List.mem_iff_getElem?.mp hi
      exact referenceProblem?_none h ((hc.blockFits hreach hfound).code.get hn) _ _
    simp only [functionProblems, hc.problem?_none htrim, hrefs]
    rfl
  simp [Module.isValid, Module.problems, hinit, hentry, hfunctions]

end Module

end Cascade.Code
