import Cascade.Proofs.Catalog.Naming
import Cascade.Proofs.Simulation.Numbering

/-!
# Cascade.Proofs.Simulation.Naming

Looking up methods and functions by their dotted names.

* `Code.Module.find?_iff`: where no two functions have one name, a function is found under exactly
  its own name.
* `FoundByName`: what look-ups find in an accepted program and in the module made of it.
* `typeProgram_foundByName`: they find just what has the name, if no name that is declared has a
  dot in it.
-/

namespace Cascade

namespace Code.Module

theorem find?_some {m : Module} {name : String} {k : FunctionId} (h : m.find? name = some k) :
    ∃ f, m.functions[k]? = some f ∧ f.name = name := by
  obtain ⟨⟨f, i⟩, hfind, rfl⟩ := Option.map_eq_some_iff.mp h
  have hmem := List.mem_reverse.mp (List.mem_of_find?_eq_some hfind)
  exact ⟨f, List.mem_zipIdx_iff_getElem?.mp hmem, by simpa using List.find?_some hfind⟩

theorem find?_isSome {m : Module} {k : FunctionId} {f : Function}
    (hf : m.functions[k]? = some f) : ∃ i, m.find? f.name = some i := by
  refine Option.isSome_iff_exists.mp ?_
  rw [find?, Option.isSome_map, List.find?_isSome]
  exact ⟨(f, k), List.mem_reverse.mpr (List.mem_zipIdx_iff_getElem?.mpr hf), by simp⟩

/-- Where names are not repeated, it does not matter that the last function of a name is found. -/
theorem find?_iff {m : Module} (hm : (m.functions.map Function.name).Nodup) {name : String}
    {k : FunctionId} :
    m.find? name = some k ↔ ∃ f, m.functions[k]? = some f ∧ f.name = name := by
  refine ⟨find?_some, ?_⟩
  rintro ⟨f, hf, rfl⟩
  obtain ⟨i, hi⟩ := find?_isSome hf
  obtain ⟨g, hg, hname⟩ := find?_some hi
  have hlt : i < (m.functions.map Function.name).length := by
    simpa using (List.getElem?_eq_some_iff.mp hg).1
  obtain rfl : i = k := (List.getElem?_inj hlt hm).mp (by simp [hf, hg, hname])
  exact hi

end Code.Module

namespace Typed

theorem Program.method?_iff {p : Program} (hp : (p.methods.map Method.name).Nodup) {name : String}
    {i : MethodId} : p.method? name = some i ↔ ∃ t, p.methods[i]? = some t ∧ t.name = name :=
  findIdx?_key hp (fun _ => beq_iff_eq) i

end Typed

namespace Simulation

open Code Codegen

/-- Dotted names stand for the members of an accepted program, and lead to them again. -/
structure FoundByName (a : Typing.Accepted) (m : Module) : Prop where
  named : ∀ {k : MemberKind} {i : Nat}, i < (a.table.members k).length →
    ∃ name, a.table.memberName k i = .ok name
  injective : ∀ {k : MemberKind} {i j : Nat} {name : String},
    a.table.memberName k i = .ok name → a.table.memberName k j = .ok name → i = j
  method? : ∀ {i : MethodId} {name : String}, a.table.memberName .method i = .ok name →
    a.program.method? name = some i ∧ ∃ t, a.program.methods[i]? = some t ∧ t.name = name
  /-- No other text is the name of a method. -/
  method?_none : ∀ {name : String}, (∀ i, a.table.memberName .method i ≠ .ok name) →
    a.program.method? name = none
  find? : ∀ {i : MethodId} {name : String}, a.table.memberName .method i = .ok name →
    m.find? name = some i ∧ ∃ f, m.functions[i]? = some f ∧ f.name = name
  initializer : m.find? initializerName = some m.initializer
  /-- The name of the initializer is not that of a method. -/
  apart : ∀ {i : MethodId} {name : String}, a.table.memberName .method i = .ok name →
    name ≠ initializerName ∧ i ≠ m.initializer

variable {settings : Settings} {p : Syntax.Program} {a : Typing.Accepted} {m : Module}

namespace NumberedAlike

theorem methodName (h : NumberedAlike settings p a m) {i : MethodId} {t : Typed.Method}
    (ht : a.program.methods[i]? = some t) : a.table.memberName .method i = .ok t.name := by
  obtain ⟨⟨c, d, hstands⟩, -⟩ := h.methods ht
  exact hstands.name

theorem initializerName (h : NumberedAlike settings p a m) :
    ∃ f, m.functions[m.initializer]? = some f ∧ f.name = Codegen.initializerName := by
  obtain ⟨b, b', f, -, hfinish, hf⟩ := h.initializer.code
  exact ⟨f, hf, Lower.finish_name hfinish⟩

theorem function (h : NumberedAlike settings p a m) {k : FunctionId} {f : Function}
    (hf : m.functions[k]? = some f) : a.table.memberName .method k = .ok f.name ∨
      (k = m.initializer ∧ f.name = Codegen.initializerName) := by
  have hlt := (List.getElem?_eq_some_iff.mp hf).1
  rw [h.functions] at hlt
  obtain hlt | rfl := Nat.lt_or_eq_of_le (Nat.le_of_lt_succ hlt)
  · have ht := List.getElem?_eq_getElem hlt
    obtain ⟨f', hf', hmade⟩ := (h.methods ht).2
    obtain rfl := Option.some.inj (hf.symm.trans hf')
    exact .inl (hmade.name ▸ h.methodName ht)
  · rw [← h.last] at hf ⊢
    obtain ⟨f', hf', hname⟩ := h.initializerName
    obtain rfl := Option.some.inj (hf.symm.trans hf')
    exact .inr ⟨rfl, hname⟩

/-- The names of functions are told apart as dotted names are, and from that of the initializer by
the dots. -/
theorem names_nodup (h : NumberedAlike settings p a m) (hbuilt : Catalog.build p = .ok a.table)
    (hp : p.Dotless) : (m.functions.map Function.name).Nodup := by
  have hinit : Dotless Codegen.initializerName := by decide
  refine List.pairwise_iff_getElem.mpr fun i j hi hj hij heq => Nat.ne_of_lt hij ?_
  simp only [List.length_map] at hi hj
  simp only [List.getElem_map] at heq
  obtain hname | ⟨rfl, hname⟩ := h.function (List.getElem?_eq_getElem hi) <;>
    obtain hname' | ⟨rfl, hname'⟩ := h.function (List.getElem?_eq_getElem hj)
  · rw [heq] at hname
    exact Catalog.memberName_injective hbuilt hp hname hname'
  · rw [heq, hname'] at hname
    exact absurd hinit (Catalog.memberName_dotted hname)
  · rw [← heq, hname] at hname'
    exact absurd hinit (Catalog.memberName_dotted hname')
  · rfl

theorem typed_names_nodup (h : NumberedAlike settings p a m)
    (hbuilt : Catalog.build p = .ok a.table)
    (hp : p.Dotless) : (a.program.methods.map Typed.Method.name).Nodup := by
  refine List.pairwise_iff_getElem.mpr fun i j hi hj hij heq => Nat.ne_of_lt hij ?_
  simp only [List.length_map] at hi hj
  simp only [List.getElem_map] at heq
  have hname := h.methodName (List.getElem?_eq_getElem hi)
  rw [heq] at hname
  exact Catalog.memberName_injective hbuilt hp hname (h.methodName (List.getElem?_eq_getElem hj))

theorem named (h : NumberedAlike settings p a m) {i : MethodId} {name : String}
    (hname : a.table.memberName .method i = .ok name) :
    ∃ t f, a.program.methods[i]? = some t ∧ t.name = name ∧
      m.functions[i]? = some f ∧ f.name = name := by
  have hi := Catalog.memberName_lt hname
  rw [show (a.table.members .method).length = _ from h.counts.tableMethods,
    ← h.counts.methods] at hi
  have ht := List.getElem?_eq_getElem hi
  obtain ⟨f, hf, hmade⟩ := (h.methods ht).2
  have ht' := Except.ok.inj ((h.methodName ht).symm.trans hname)
  exact ⟨_, f, ht, ht', hf, hmade.name.trans ht'⟩

end NumberedAlike

/-- Look-up by dotted name undoes naming, in an accepted program and in the code that is made of
it, as long as the names that are declared have no dots in them. -/
theorem typeProgram_foundByName (h : Typing.typeProgram settings p = .ok a) (hp : p.Dotless) :
    ∃ m, lowerProgram a.program = .ok m ∧ FoundByName a m := by
  obtain ⟨m, hm, hnum⟩ := typeProgram_numbered h
  have hbuilt := (Typing.typeProgram_ok h).1
  have hcode := hnum.names_nodup hbuilt hp
  have htyped := hnum.typed_names_nodup hbuilt hp
  have hinit : Dotless initializerName := by decide
  refine ⟨m, hm, Catalog.memberName_exists hbuilt, Catalog.memberName_injective hbuilt hp,
    fun hi => ?_, fun {name} hnone => ?_, fun hi => ?_, ?_, fun {i name} hi => ⟨fun heq => ?_, ?_⟩⟩
  · obtain ⟨t, f, ht, hname, -⟩ := hnum.named hi
    exact ⟨(Typed.Program.method?_iff htyped).mpr ⟨t, ht, hname⟩, t, ht, hname⟩
  · refine Option.eq_none_iff_forall_ne_some.mpr fun i hi => ?_
    obtain ⟨t, ht, rfl⟩ := (Typed.Program.method?_iff htyped).mp hi
    exact hnone i (hnum.methodName ht)
  · obtain ⟨t, f, -, -, hf, hname⟩ := hnum.named hi
    exact ⟨(Module.find?_iff hcode).mpr ⟨f, hf, hname⟩, f, hf, hname⟩
  · exact (Module.find?_iff hcode).mpr hnum.initializerName
  · exact Catalog.memberName_dotted hi (heq ▸ hinit)
  · have hlt := Catalog.memberName_lt hi
    rw [show (a.table.members .method).length = _ from hnum.counts.tableMethods,
      ← hnum.counts.methods, ← hnum.last] at hlt
    exact Nat.ne_of_lt hlt

open Syntax.Build in
/-- The names `Main`, `A`, `x` and `f` again and again; but for its dots, `Main.A.Main.f` would be
the same text as `Main.AMain.f`. -/
def echoes : Syntax.Program :=
  let inner := withMethod (withField (emptyClass "Main") (field .int "x" none))
    (method .int "f" [ret (int 1)])
  let side := withMethod (withField (emptyClass "A") (field .int "x" none))
    (method .int "f" [ret (int 2)])
  let twin := withMethod (emptyClass "AMain") (method .int "f" [ret (int 3)])
  let main := withMethod (withMethod (withField (emptyClass "Main") (field .int "x" (some (int 1))))
    (method .int "f" [ret (int 4)]))
    (method .void "main" [print (call ["Main", "A", "Main", "f"] [])])
  withNested (withNested main (withNested side inner)) twin

theorem echoes_foundByName : ∃ a m, Typing.typeProgram .default echoes = .ok a ∧ echoes.Dotless ∧
    lowerProgram a.program = .ok m ∧ a.table.memberName .method 3 = .ok "Main.A.Main.f" ∧
    FoundByName a m := by
  have hdots : echoes.Dotless := ⟨by decide, by decide, by decide⟩
  obtain ⟨m, hm, h⟩ := typeProgram_foundByName (rfl : Typing.typeProgram .default echoes = _) hdots
  exact ⟨_, m, rfl, hdots, hm, rfl, h⟩

end Simulation

end Cascade
