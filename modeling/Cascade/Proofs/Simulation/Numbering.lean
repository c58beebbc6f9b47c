import Cascade.Proofs.Codegen.Numbering
import Cascade.Proofs.Machine.Visits
import Cascade.Proofs.Simulation.Program
import Cascade.Proofs.Typing.Numbering

/-!
# Cascade.Proofs.Simulation.Numbering

Members keep their numbers from the declarations of a program to its code.

* `evalStores`: first values of fields as stores in the order of the numbers of the fields.
* `NumberedAlike`: what stands under the numbers of an accepted program and in the module made of
  it.
* `typeProgram_numbered`: all of it holds, for every accepted program.
-/

namespace Cascade.Simulation

open Code Machine Codegen
open Typed (Answer World Calls evalCall evalExpr evalInits)

variable {m : Module} {p : Typed.Program}

/-! ## The initializer -/

/-- Evaluate expressions, each of which is stored into a field before the next one is looked at. -/
def evalStores (calls : Calls) : List (FieldId × Typed.Expr) → World → Answer World
  | [], w => .done w
  | (i, e) :: rest, w =>
    (evalExpr calls e ⟨[], w⟩).value.andThen fun (v, μ) =>
      evalStores calls rest (μ.write (.field i) v).world

theorem evalInits_stores (calls : Calls) {g : Signature} : ∀ (fs : List Typed.Field)
    {i : FieldId} (w : World), FieldsFrom g i fs →
    evalInits calls i fs w = evalStores calls (initials fs) w
  | [], _, _, _ => rfl
  | f :: fs, i, w, h => by
    unfold evalInits initials
    rw [List.filterMap_cons]
    cases f.init with
    | none => exact evalInits_stores calls fs w h.tail
    | some e =>
      rw [Option.map_some, h.head.1]
      simp only [evalStores, evalInits_stores calls fs _ h.tail]
      rfl

/-- What the initializer of a module is. -/
structure StoresFields (p : Typed.Program) (m : Module) : Prop where
  /-- Its code is that of one store after another. -/
  code : ∃ b b' f, Stores p (.start []) (initials p.fields) b ∧
    Lower.finish p.methods.length initializerName .void .zero b = .ok (f, b') ∧
    m.functions[m.initializer]? = some f
  /-- The fields with initial values are stored, and no others. -/
  exact : ∀ i e, (i, e) ∈ initials p.fields ↔ ∃ f, p.fields[i]? = some f ∧ f.init = some e
  /-- Each is stored once, in the order of their numbers. -/
  ascending : (initials p.fields).Pairwise fun x y => x.1 < y.1
  /-- A call of it on fields that are all zero does what the stores do. -/
  runs : ∀ limits : Limits, ∃ zs, zeroFields m.fields = .ok zs ∧ ∃ e,
    CallEnds m limits m.initializer (.zeroed zs) e ∧
      Initialized (evalStores (evalCall p (limits.maxCallDepth - 1)) (initials p.fields)
        ⟨zs, #[]⟩) e

theorem LoweredFrom.storesFields (h : LoweredFrom m p) : StoresFields p m where
  code := by
    obtain ⟨f, hf, hmade⟩ := h.initializer
    obtain ⟨b, b', hstores, hfinish⟩ := lowerInitializer_stores hmade
    exact ⟨b, b', f, hstores, hfinish, hf⟩
  exact := fun _ _ => mem_initials h.wellTyped.numbered
  ascending := initials_ascending h.wellTyped.numbered
  runs := fun limits => by
    obtain ⟨zs, -, hzeros, hworld⟩ := h.zeroFields
    obtain ⟨e, he, hinit⟩ := initializer_ends h limits hworld
    rw [evalInits_stores _ _ _ (fields_from h.wellTyped.numbered)] at hinit
    exact ⟨zs, hzeros, e, he, hinit⟩

theorem lowerProgram_counts (h : lowerProgram p = .ok m) :
    m.fields.length = p.fields.length ∧ m.functions.length = p.methods.length + 1 ∧
      m.initializer = p.methods.length := by
  rw [lowerProgram] at h
  split at h
  · cases h
  rename_i fs hfs
  split at h
  · cases h
  cases h
  have hlen : fs.length = p.methods.length := by
    simpa using congrArg List.length (lowerMethods_ids hfs)
  simp [hlen]

/-! ## Programs -/

/-- Under one number stand a declaration, an entry of the table, a typed member and what the module
has for it, each of which holds that number. The initializer has the number behind those of all
methods. -/
structure NumberedAlike (settings : Settings) (p : Syntax.Program) (a : Typing.Accepted)
    (m : Module) : Prop where
  counts : Typing.SameCounts p a
  /-- The entries of the table hold the numbers that they stand under. -/
  table : a.table.Indexed p
  fields : ∀ {i : FieldId} {f : Typed.Field}, a.program.fields[i]? = some f →
    (∃ c d, Typing.FieldStands settings p a i c d f ∧ f.init.isSome = d.init.isSome) ∧
      m.fields[i]? = some ⟨f.name, f.ty⟩
  methods : ∀ {i : MethodId} {t : Typed.Method}, a.program.methods[i]? = some t →
    (∃ c d, Typing.MethodStands settings p a i c d t) ∧
      ∃ fn, m.functions[i]? = some fn ∧ MadeOf a.program t fn
  moduleFields : m.fields.length = a.program.fields.length
  functions : m.functions.length = a.program.methods.length + 1
  last : m.initializer = a.program.methods.length
  /-- The numbers that functions hold are those under which the module has them. -/
  ids : ∀ {i : FunctionId} {fn : Function}, m.functions[i]? = some fn → fn.id = i
  initializer : StoresFields a.program m
  entry : m.entry = a.program.entry ∧ ∃ d t,
    Typing.MethodStands settings p a m.entry Catalog.root d t ∧ d.name.name = settings.entryPoint

/-- All members of an accepted program have the same numbers in its declarations, in the table, in
the typed program and in the module. -/
theorem typeProgram_numbered {settings : Settings} {p : Syntax.Program} {a : Typing.Accepted}
    (h : Typing.typeProgram settings p = .ok a) :
    ∃ m, lowerProgram a.program = .ok m ∧ NumberedAlike settings p a m := by
  obtain ⟨hbuilt, -, hw⟩ := Typing.typeProgram_ok h
  obtain ⟨m, hm, -⟩ := lowerProgram_fits hw
  have hlowered := lowerProgram_loweredFrom hw hm
  have hcounts := Typing.typeProgram_counts h
  obtain ⟨hfields, hfunctions, hlast⟩ := lowerProgram_counts hm
  refine ⟨m, hm, hcounts, Catalog.build_indexed hbuilt, fun {i f} hf => ⟨?_, ?_⟩,
    fun {i t} ht => ⟨?_, ?_⟩, hfields, hfunctions, hlast, lowerProgram_ids hw.numbered hm,
    hlowered.storesFields, hlowered.entry, ?_⟩
  · have hi : i < (Syntax.Program.fields p).length :=
      hcounts.fields ▸ (List.getElem?_eq_some_iff.mp hf).1
    obtain ⟨c, f', hstands⟩ := Typing.typeProgram_field h (List.getElem?_eq_getElem hi)
    obtain rfl : f' = f := Option.some.inj (hstands.typed.symm.trans hf)
    exact ⟨c, _, hstands, Typing.typeInit_isSome hstands.init⟩
  · rw [hlowered.fields, List.getElem?_map, hf]
    rfl
  · have hi : i < (Syntax.Program.methods p).length :=
      hcounts.methods ▸ (List.getElem?_eq_some_iff.mp ht).1
    obtain ⟨c, t', hstands⟩ := Typing.typeProgram_method h (List.getElem?_eq_getElem hi)
    obtain rfl : t' = t := Option.some.inj (hstands.typed.symm.trans ht)
    exact ⟨c, _, hstands⟩
  · obtain ⟨fn, hfn, hgen⟩ := hlowered.methods ht
    exact ⟨fn, hfn, lowerMethod_madeOf (hw.methods t (List.mem_of_getElem? ht)) hgen⟩
  · rw [hlowered.entry]
    exact Typing.typeProgram_entry h

open Syntax.Build in
/-- Classes in two levels with fields between which one has no initial value, and methods with local
variables; the entry is not the first of the methods. -/
def shelves : Syntax.Program :=
  let inner := withMethod (withField (emptyClass "Inner") (field .long "depth" (some (int 2))))
    (method .int "twice" [declare .int "k" (some (int 4)), ret (binary .add (name "k") (name "k"))])
  let side := withField (withField (emptyClass "Side") (field .int "left" none))
    (field .int "right" (some (call ["Main", "Outer", "Inner", "twice"] [])))
  let main := withMethod (withMethod (withField (emptyClass "Main") (field .int "x" (some (int 1))))
    (method .void "show" [print (name "x")])) (method .void "main" [expr (call ["show"] [])])
  withNested (withNested main (withNested (emptyClass "Outer") inner)) side

theorem shelves_numbered : ∃ a m, Typing.typeProgram .default shelves = .ok a ∧
    lowerProgram a.program = .ok m ∧ NumberedAlike .default shelves a m := by
  obtain ⟨m, hm, h⟩ := typeProgram_numbered (rfl : Typing.typeProgram .default shelves = _)
  exact ⟨_, m, rfl, hm, h⟩

end Cascade.Simulation
