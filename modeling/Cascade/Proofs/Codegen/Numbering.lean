import Cascade.Proofs.Codegen.Program

/-!
# Cascade.Proofs.Codegen.Numbering

The function of a method has the number of the method and its local variables under their own
numbers, and the one behind all methods stores the first values of fields in the order of the
numbers of the fields.

* `Makes.unnamed`: local variables that code generation adds come last and have no names.
* `MadeOf`: the function that is made of a method.
* `initials`: the fields that have initial values, under their numbers.
* `lowerInits_stores`: code is made for exactly these, one after another.
* `lowerProgram_ids`: each function has its place in the module as its number.
-/

namespace Cascade.Codegen

open Code

variable {g : Signature} {returns : Ty} {p : Typed.Program}

/-! ## Local variables -/

theorem Op.unnamed {d d' : Draft} (h : Op g returns d d') :
    ∃ more, d'.b.locals = d.b.locals ++ more ∧ ∀ l ∈ more, l.name = none := by
  cases h with
  | @newLocal ty => exact ⟨[⟨none, ty⟩], rfl, by simp⟩
  | emit | write | newBlock | close | goto => exact ⟨[], (List.append_nil _).symm, by simp⟩

theorem Makes.unnamed {d d' : Draft} (h : Makes g returns d d') :
    ∃ more, d'.b.locals = d.b.locals ++ more ∧ ∀ l ∈ more, l.name = none := by
  induction h with
  | refl => exact ⟨[], (List.append_nil _).symm, by simp⟩
  | step _ hop ih =>
    obtain ⟨first, hfirst, hnone⟩ := ih
    obtain ⟨more, hmore, hnone'⟩ := hop.unnamed
    refine ⟨first ++ more, by rw [hmore, hfirst, List.append_assoc], fun l hl => ?_⟩
    exact (List.mem_append.mp hl).elim (hnone l) (hnone' l)

theorem finish_locals (b : Builder) (id : FunctionId) (name : String) (returns : Ty) (span : Span) :
    (finish b id name returns span).locals = b.locals := by
  unfold finish
  dsimp only
  split <;> rfl

/-- The function that is made of a method: its local variables are those of the method, and behind
them some without names. -/
structure MadeOf (p : Typed.Program) (t : Typed.Method) (f : Function) : Prop where
  id : f.id = t.id
  name : f.name = t.name
  returns : f.returns = t.returns
  span : f.span = t.span
  locals : ∃ more, f.locals = t.locals.map namedLocal ++ more ∧ ∀ l ∈ more, l.name = none
  made : lowerMethod p t = .ok f

theorem lowerMethod_madeOf {t : Typed.Method} (ht : t.WellTyped p.signature) {f : Function}
    (h : lowerMethod p t = .ok f) : MadeOf p t f := by
  obtain ⟨d, hrun, hpass⟩ := genBody_passes (p := p) rfl ht
  have hgen := h
  rw [lowerMethod_eq, genMethod, hrun] at hgen
  cases hgen
  obtain ⟨more, hmore, hnone⟩ := hpass.makes.unnamed
  exact ⟨rfl, rfl, rfl, rfl, ⟨more, (finish_locals _ _ _ _ _).trans hmore, hnone⟩, h⟩

/-! ## First values of fields -/

/-- The fields that have initial values, under their numbers. -/
def initials (fs : List Typed.Field) : List (FieldId × Typed.Expr) :=
  fs.filterMap fun f => f.init.map fun e => (f.id, e)

theorem mem_initials (hp : p.Numbered) {i : FieldId} {e : Typed.Expr} :
    (i, e) ∈ initials p.fields ↔ ∃ f, p.fields[i]? = some f ∧ f.init = some e := by
  rw [initials, List.mem_filterMap]
  constructor
  · rintro ⟨f, hf, he⟩
    obtain ⟨e', hinit, heq⟩ := Option.map_eq_some_iff.mp he
    cases heq
    obtain ⟨k, hk⟩ := List.getElem?_of_mem hf
    exact ⟨f, by rw [hp.fields hk, hk], hinit⟩
  · rintro ⟨f, hf, hinit⟩
    exact ⟨f, List.mem_of_getElem? hf, by rw [hinit, hp.fields hf]; rfl⟩

theorem initials_ascending (hp : p.Numbered) :
    (initials p.fields).Pairwise fun x y => x.1 < y.1 := by
  have hids : p.fields.Pairwise fun f f' => f.id < f'.id := by
    rw [List.pairwise_iff_getElem]
    intro i j hi hj hij
    rw [hp.fields (List.getElem?_eq_getElem hi), hp.fields (List.getElem?_eq_getElem hj)]
    exact hij
  refine hids.filterMap _ fun f f' hlt x hx y hy => ?_
  obtain ⟨_, -, rfl⟩ := Option.map_eq_some_iff.mp hx
  obtain ⟨_, -, rfl⟩ := Option.map_eq_some_iff.mp hy
  exact hlt

/-- Code for the values of expressions, each of which is stored into a field when it is there. -/
inductive Stores (p : Typed.Program) : Builder → List (FieldId × Typed.Expr) → Builder → Prop where
  | nil {b : Builder} : Stores p b [] b
  | cons {b b1 b2 b3 : Builder} {i : FieldId} {e : Typed.Expr} {r : Register}
      {rest : List (FieldId × Typed.Expr)} : lowerValue p e b = .ok (r, b1) →
      Lower.emit (.storeField i r) b1 = .ok ((), b2) → Stores p b2 rest b3 →
      Stores p b ((i, e) :: rest) b3

theorem lowerInits_stores {fs : List Typed.Field} {b b' : Builder}
    (h : lowerInits p fs b = .ok ((), b')) : Stores p b (initials fs) b' := by
  induction fs generalizing b with
  | nil =>
    cases h
    exact .nil
  | cons f fs ih =>
    rw [lowerInits] at h
    rw [initials, List.filterMap_cons]
    cases hinit : f.init with
    | none =>
      rw [hinit] at h
      exact ih h
    | some e =>
      rw [hinit] at h
      obtain ⟨r, b1, hvalue, h⟩ := Lower.bind_ok h
      obtain ⟨_, b2, hemit, h⟩ := Lower.bind_ok h
      exact .cons hvalue hemit (ih h)

theorem Lower.finish_name {id : FunctionId} {name : String} {returns : Ty} {span : Span}
    {b b' : Builder} {f : Function} (h : Lower.finish id name returns span b = .ok (f, b')) :
    f.name = name := by
  have hnamed : ∀ b : Builder, (b.blocks.foldl Function.addBlock
      ⟨id, name, returns, b.locals, b.registers, [], 0, [], span⟩).prune.name = name := fun b => by
    rw [Function.foldl_addBlock]
    rfl
  obtain ⟨closed, b1, -, h⟩ := Lower.bind_ok h
  dsimp only at h
  split at h
  · obtain ⟨_, b2, -, h⟩ := Lower.bind_ok h
    cases h
    exact hnamed _
  · cases h
    exact hnamed _

/-- The function that is made for the first values of fields. -/
theorem lowerInitializer_stores {id : FunctionId} {f : Function}
    (h : lowerInitializer p id = .ok f) : ∃ b b', Stores p (.start []) (initials p.fields) b ∧
      Lower.finish id initializerName .void .zero b = .ok (f, b') := by
  obtain ⟨b', hrun⟩ := Lower.result_ok h
  obtain ⟨_, b, hinits, hfinish⟩ := Lower.bind_ok hrun
  exact ⟨b, b', lowerInits_stores hinits, hfinish⟩

/-! ## Numbers of functions -/

theorem lowerMethods_ids {ms : List Typed.Method} {fs : List Function}
    (h : lowerMethods p ms = .ok fs) : fs.map Function.id = ms.map Typed.Method.id := by
  induction ms generalizing fs with
  | nil =>
    cases h
    rfl
  | cons m ms ih =>
    rw [lowerMethods] at h
    split at h
    · cases h
    rename_i f hf
    split at h
    · cases h
    rename_i rest hrest
    cases h
    rw [lowerMethod_eq] at hf
    unfold genMethod at hf
    split at hf
    · cases hf
    cases hf
    rw [List.map_cons, List.map_cons, ih hrest]
    rfl

/-- Functions are added to a module under the numbers that they hold. -/
theorem lowerProgram_ids (hp : p.Numbered) {m : Module} (h : lowerProgram p = .ok m)
    {i : FunctionId} {f : Function} (hf : m.functions[i]? = some f) : f.id = i := by
  rw [lowerProgram] at h
  split at h
  · cases h
  rename_i fs hfs
  split at h
  · cases h
  rename_i init hinit
  cases h
  have hids := lowerMethods_ids hfs
  have hlen : fs.length = p.methods.length := by simpa using congrArg List.length hids
  obtain hi | hi := Nat.lt_or_ge i fs.length
  · rw [List.getElem?_append_left hi] at hf
    have hid := congrArg (·[i]?) hids
    simp only [List.getElem?_map, hf, Option.map_some] at hid
    obtain ⟨m, hm, hid⟩ := Option.map_eq_some_iff.mp hid.symm
    rw [← hid, hp.methods hm]
  · rw [List.getElem?_append_right hi] at hf
    obtain ⟨hlt, -⟩ := List.getElem?_eq_some_iff.mp hf
    obtain rfl := List.mem_singleton.mp (List.mem_of_getElem? hf)
    rw [List.length_singleton] at hlt
    rw [lowerInitializer_eq] at hinit
    unfold genInitializer at hinit
    split at hinit
    · cases hinit
    cases hinit
    exact show p.methods.length = i by omega

end Cascade.Codegen
