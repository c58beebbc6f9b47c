import Cascade.Proofs.Catalog
import Cascade.Proofs.Typing.Stmt
import Cascade.Proofs.Typing.Workers
import Cascade.Syntax.Build
import Cascade.Typing.Program

/-!
# Cascade.Proofs.Typing.Program

An accepted program is well typed.

* `typeField_ok`, `typeMethod_ok`, `typeProgram_stages`: what typing did where it accepts.
* `typeField_wellTyped`, `typeMethod_wellTyped`: one member against the class table.
* `typeMethods_eq`, `typeMethods_results`: the methods are typed as if one after another.
* `typeProgram_wellTyped`: the whole program, whose members have the types they were declared with.
-/

namespace Cascade.Typing

open Syntax

section

variable {table : Catalog} {settings : Settings} {id : Nat}

theorem typeField_ok {d : FieldDecl} {f : Typed.Field}
    (h : typeField table settings id d = .ok f) :
    ∃ info name init, table.memberAt .field id = .ok info ∧
      table.memberName .field id = .ok name ∧ info.ty.isVoid = false ∧
      typeInit ⟨table, settings, info.owner, .void⟩ (.start settings.switchRedeclaration) info.ty
        d.init = .ok init ∧
      f = ⟨id, name, info.ty, init, d.span⟩ := by
  unfold typeField at h
  split at h
  · cases h
  rename_i info hinfo
  split at h
  · cases h
  rename_i hv
  dsimp only at h
  split at h
  · cases h
  rename_i init hinit
  split at h
  · cases h
  rename_i name hname
  cases h
  exact ⟨info, name, init, hinfo, hname, Bool.eq_false_iff.mpr hv, hinit, rfl⟩

theorem typeMethod_ok {d : MethodDecl} {m : Typed.Method} {ws : List Warning}
    (h : typeMethod table settings id d = .ok (m, ws)) :
    ∃ info name body st, table.memberAt .method id = .ok info ∧
      table.memberName .method id = .ok name ∧
      typeBody ⟨table, settings, info.owner, info.ty⟩ (.start settings) d.body = (.ok body, st) ∧
      (info.ty ≠ .void → Typed.allComplete body = false) ∧
      m = ⟨id, name, info.ty, st.scopes.locals, body, d.span⟩ ∧ ws = st.warnings := by
  unfold typeMethod at h
  split at h
  · cases h
  rename_i info hinfo
  split at h
  · cases h
  rename_i body st hbody
  split at h
  · cases h
  rename_i name hname
  split at h
  · cases h
  rename_i hleaves
  cases h
  refine ⟨info, name, body, st, hinfo, hname, hbody, fun hne => ?_, rfl, rfl⟩
  cases hc : Typed.allComplete body with
  | false => rfl
  | true => exact absurd (by simp [hc, Bool.eq_false_iff, Ty.isVoid_iff, hne]) hleaves

theorem typeField_wellTyped (hnum : table.Numbered) {d : FieldDecl} {f : Typed.Field}
    (h : typeField table settings id d = .ok f) :
    table.signature.fields[id]? = some f.ty ∧ f.WellTyped table.signature := by
  obtain ⟨info, name, init, hinfo, -, hv, hinit, rfl⟩ := typeField_ok h
  refine ⟨Catalog.signature_field hinfo, Ty.isNumeric_iff.mpr fun hvoid => ?_,
    typeInit_fills hnum (Scopes.start_sound _) hinit⟩
  exact absurd (Ty.isVoid_iff.mpr hvoid) (Bool.eq_false_iff.mp hv)

theorem typeMethod_wellTyped (hnum : table.Numbered) {d : MethodDecl} {m : Typed.Method}
    {ws : List Warning} (h : typeMethod table settings id d = .ok (m, ws)) :
    table.signature.methods[id]? = some m.returns ∧ m.WellTyped table.signature := by
  obtain ⟨info, name, body, st, hinfo, -, hbody, hleaves, rfl, -⟩ := typeMethod_ok h
  obtain ⟨ha, hw⟩ := typeList_wellTyped hnum d.body .live _ _ _ false (Scopes.start_sound _)
    (by simp [State.start]) hbody
  exact ⟨Catalog.signature_method hinfo, (ha.sound (Scopes.start_sound _)).numeric, hw, hleaves⟩

/-- The verdict on a method, as the workers come to it. -/
def verdict (table : Catalog) (settings : Settings) (job : MethodDecl × MethodId) : Verdict :=
  typeMethod table settings job.2 job.1

/-- With either choice of workers the methods are typed as one worker types them. -/
theorem typeMethods_eq (table : Catalog) (settings : Settings)
    (jobs : List (MethodDecl × MethodId)) :
    (typeMethods table settings jobs).1 = (inOrder (verdict table settings) 0 .empty jobs).1 ∧
      (typeMethods table settings jobs).2.sorted =
        (inOrder (verdict table settings) 0 .empty jobs).2.sorted := by
  unfold typeMethods
  dsimp only
  split
  · rename_i h
    have hpos : 0 < workers jobs.length := by
      simp only [Bool.and_eq_true, decide_eq_true_eq] at h
      simp only [workers]
      omega
    exact (shared_yields _ jobs hpos).eq
  · exact ⟨rfl, rfl⟩

/-- The methods are typed as if one after another, whoever types them. -/
theorem typeMethods_results (table : Catalog) (settings : Settings)
    (jobs : List (MethodDecl × MethodId)) :
    (typeMethods table settings jobs).1 =
      jobs.map fun job => (verdict table settings job).result :=
  (typeMethods_eq table settings jobs).1.trans
    (inOrder_results (verdict table settings) jobs 0 .empty)

theorem Verdict.result_ok {v : Verdict} {m : Typed.Method} (h : v.result = .ok m) :
    ∃ ws, v = .ok (m, ws) := by
  unfold Verdict.result at h
  split at h
  · cases h; exact ⟨_, rfl⟩
  · cases h

/-! ## Lists of members -/

theorem firstError_ok {rs : List (Except (Failure Rejection) Typed.Method)} :
    ∀ {ms : List Typed.Method}, firstError rs = .ok ms ↔ rs = ms.map .ok := by
  induction rs with
  | nil =>
    intro ms
    simp [firstError, eq_comm]
  | cons r rs ih =>
    intro ms
    cases r with
    | error e => cases ms <;> simp [firstError]
    | ok m =>
      cases hrest : firstError rs with
      | error e => cases ms <;> simp [firstError, hrest, ← ih]
      | ok ms' => cases ms <;> simp [firstError, hrest, ← ih]

theorem typeFields_ok {jobs : List (FieldDecl × FieldId)} : ∀ {fs : List Typed.Field},
    typeFields table settings jobs = .ok fs ↔
      jobs.map (fun job => typeField table settings job.2 job.1) = fs.map .ok := by
  induction jobs with
  | nil =>
    intro fs
    simp [typeFields, eq_comm]
  | cons job rest ih =>
    obtain ⟨d, id⟩ := job
    intro fs
    cases hf : typeField table settings id d with
    | error e => cases fs <;> simp [typeFields, hf]
    | ok f =>
      cases hrest : typeFields table settings rest with
      | error e => cases fs <;> simp [typeFields, hf, hrest, ← ih]
      | ok fs' => cases fs <;> simp [typeFields, hf, hrest, ← ih]

end

theorem accepted_get {δ ε τ : Type} {f : Nat → δ → Except ε τ} {ds : List δ} {rs : List τ}
    (h : ds.zipIdx.map (fun job => f job.2 job.1) = rs.map .ok) :
    rs.length = ds.length ∧ ∀ {i : Nat} {d : δ}, ds[i]? = some d →
      ∃ r, rs[i]? = some r ∧ f i d = .ok r := by
  refine ⟨by simpa using (congrArg List.length h).symm, fun {i d} hd => ?_⟩
  have hi := congrArg (·[i]?) h
  simp only [List.getElem?_map, List.getElem?_zipIdx, hd, Option.map_some, Nat.zero_add] at hi
  obtain ⟨r, hr, heq⟩ := Option.map_eq_some_iff.mp hi.symm
  exact ⟨r, hr, heq.symm⟩

/-! ## Programs -/

/-- Each member of an accepted program comes from the declaration of its number. -/
structure FromDecls (settings : Settings) (p : Program) (a : Accepted) : Prop where
  built : Catalog.build p = .ok a.table
  fields : a.program.fields.length = (Program.fields p).length
  field : ∀ {i : Nat} {d : FieldDecl}, (Program.fields p)[i]? = some d →
    ∃ f, a.program.fields[i]? = some f ∧ typeField a.table settings i d = .ok f
  methods : a.program.methods.length = (Program.methods p).length
  method : ∀ {i : Nat} {d : MethodDecl}, (Program.methods p)[i]? = some d →
    ∃ m ws, a.program.methods[i]? = some m ∧ typeMethod a.table settings i d = .ok (m, ws)

/-- What the stages of typing gave for an accepted program. -/
structure Stages (settings : Settings) (p : Program) (a : Accepted) : Prop where
  built : Catalog.build p = .ok a.table
  name : ∃ root, a.table.classAt Catalog.root = .ok root ∧ a.program.name = root.name
  entry : ∃ e, a.table.lookup .method Catalog.root settings.entryPoint = .ok (some e) ∧
    a.program.entry = e.id
  fields : typeFields a.table settings (Program.fields p).zipIdx = .ok a.program.fields
  methods : firstError ((Program.methods p).zipIdx.map fun job =>
    (verdict a.table settings job).result) = .ok a.program.methods
  warnings : a.warnings = (typeMethods a.table settings (Program.methods p).zipIdx).2.sorted

theorem typeProgram_stages {settings : Settings} {p : Program} {a : Accepted}
    (h : typeProgram settings p = .ok a) : Stages settings p a := by
  unfold typeProgram at h
  split at h
  · cases h
  rename_i table htable
  split at h
  · cases h
  rename_i root hroot
  split at h
  · cases h
  · cases h
  rename_i entry hentry
  split at h
  · cases h
  rename_i fields hfields
  dsimp only at h
  split at h
  · cases h
  rename_i methods hmethods
  cases h
  exact ⟨htable, ⟨root, hroot, rfl⟩, ⟨entry, hentry, rfl⟩, hfields,
    typeMethods_results table settings _ ▸ hmethods, rfl⟩

theorem typeProgram_members {settings : Settings} {p : Program} {a : Accepted}
    (h : typeProgram settings p = .ok a) : FromDecls settings p a := by
  have hstages := typeProgram_stages h
  obtain ⟨hflen, hfield⟩ := accepted_get (typeFields_ok.mp hstages.fields)
  obtain ⟨hmlen, hmethod⟩ := accepted_get
    (f := fun i d => (typeMethod a.table settings i d).result) (firstError_ok.mp hstages.methods)
  refine ⟨hstages.built, hflen, hfield, hmlen, fun hd => ?_⟩
  obtain ⟨m, hm, hok⟩ := hmethod hd
  obtain ⟨ws, hws⟩ := Verdict.result_ok hok
  exact ⟨m, ws, hm, hws⟩

theorem typeProgram_ids {settings : Settings} {p : Program} {a : Accepted}
    (h : typeProgram settings p = .ok a) : a.program.Numbered := by
  have hdecls := typeProgram_members h
  refine ⟨fun {i f} hf => ?_, fun {i m} hm => ?_⟩
  · have hi : i < (Program.fields p).length :=
      hdecls.fields ▸ (List.getElem?_eq_some_iff.mp hf).1
    obtain ⟨f', hf', hok⟩ := hdecls.field (List.getElem?_eq_getElem hi)
    obtain rfl := Option.some.inj (hf.symm.trans hf')
    obtain ⟨-, -, -, -, -, -, -, rfl⟩ := typeField_ok hok
    rfl
  · have hi : i < (Program.methods p).length :=
      hdecls.methods ▸ (List.getElem?_eq_some_iff.mp hm).1
    obtain ⟨m', ws, hm', hok⟩ := hdecls.method (List.getElem?_eq_getElem hi)
    obtain rfl := Option.some.inj (hm.symm.trans hm')
    obtain ⟨-, -, -, -, -, -, -, -, rfl, -⟩ := typeMethod_ok hok
    rfl

def declared (p : Program) : Signature :=
  ⟨(Program.fields p).map FieldDecl.ty, (Program.methods p).map MethodDecl.returns⟩

theorem signature_declared {p : Program} {table : Catalog}
    (h : Catalog.build p = .ok table) : table.signature = declared p := by
  rw [declared, Catalog.signature, Catalog.build_fields h, Catalog.build_methods h]

theorem map_eq_of_get {τ δ : Type} {ty : τ → Ty} {rs : List τ} {ds : List δ} {ts : List Ty}
    (hlen : rs.length = ds.length) (hts : ts.length = ds.length)
    (h : ∀ {i : Nat} {d : δ}, ds[i]? = some d → ∃ r, rs[i]? = some r ∧ ts[i]? = some (ty r)) :
    rs.map ty = ts := by
  refine List.ext_getElem? fun i => ?_
  rw [List.getElem?_map]
  cases hd : ds[i]? with
  | none =>
    have hi := List.getElem?_eq_none_iff.mp hd
    rw [List.getElem?_eq_none_iff.mpr (hlen ▸ hi), List.getElem?_eq_none_iff.mpr (hts ▸ hi)]
    rfl
  | some d =>
    obtain ⟨r, hr, ht⟩ := h hd
    rw [hr, ht]
    rfl

/-- The parts of an accepted program. -/
theorem typeProgram_ok {settings : Settings} {p : Program} {a : Accepted}
    (h : typeProgram settings p = .ok a) :
    Catalog.build p = .ok a.table ∧ a.program.signature = declared p ∧ a.program.WellTyped := by
  have hstages := typeProgram_stages h
  have hdecls := typeProgram_members h
  have htable := hstages.built
  have hi := Catalog.build_indexed htable
  have hfields : a.program.fields.map Typed.Field.ty = a.table.signature.fields := by
    refine map_eq_of_get hdecls.fields (by simpa [Catalog.signature] using hi.fields) fun hd => ?_
    obtain ⟨f, hf, hok⟩ := hdecls.field hd
    exact ⟨f, hf, (typeField_wellTyped hi.memberIds hok).1⟩
  have hmethods : a.program.methods.map Typed.Method.returns = a.table.signature.methods := by
    refine map_eq_of_get hdecls.methods (by simpa [Catalog.signature] using hi.methods)
      fun hd => ?_
    obtain ⟨m, ws, hm, hok⟩ := hdecls.method hd
    exact ⟨m, hm, (typeMethod_wellTyped hi.memberIds hok).1⟩
  have hsig : a.program.signature = a.table.signature := by
    rw [Typed.Program.signature, hfields, hmethods]
  refine ⟨htable, hsig.trans (signature_declared htable), fun f hf => ?_, fun m hm => ?_,
    typeProgram_ids h, ?_⟩
  · obtain ⟨i, hlt, rfl⟩ := List.getElem_of_mem hf
    obtain ⟨f', hf', hok⟩ := hdecls.field (List.getElem?_eq_getElem (hdecls.fields ▸ hlt))
    rw [List.getElem?_eq_getElem hlt] at hf'
    cases hf'
    exact hsig ▸ (typeField_wellTyped hi.memberIds hok).2
  · obtain ⟨i, hlt, rfl⟩ := List.getElem_of_mem hm
    obtain ⟨m', ws, hm', hok⟩ := hdecls.method (List.getElem?_eq_getElem (hdecls.methods ▸ hlt))
    rw [List.getElem?_eq_getElem hlt] at hm'
    cases hm'
    exact hsig ▸ (typeMethod_wellTyped hi.memberIds hok).2
  · obtain ⟨e, he, hentry⟩ := hstages.entry
    rw [hentry, hdecls.methods, ← hi.methods]
    exact hi.member? (Catalog.lookup_entry hi.memberIds he).1

/-- Every typed tree that comes out of typing is well typed, against the members that its program
declares. -/
theorem typeProgram_wellTyped {settings : Settings} {p : Program} {a : Accepted}
    (h : typeProgram settings p = .ok a) :
    a.program.WellTyped ∧ a.program.signature = declared p :=
  ⟨(typeProgram_ok h).2.2, (typeProgram_ok h).2.1⟩

open Syntax.Build in
def tally : Program :=
  let next := method .int "next" [ret (int 4)]
  let main := method .void "main"
    [declare .short "k" (some (int 1)),
      switch (name "k")
        [case (int 1) [expr (assign (name "total") (call ["next"] [])), leave], otherwise []],
      print (path ["Main", "total"])]
  withMethod (withMethod (withField (emptyClass "Main") (field .long "total" (some (int 3)))) next)
    main

theorem tally_wellTyped : ∃ a, typeProgram .default tally = .ok a ∧
    a.program.WellTyped ∧ a.program.signature = declared tally := by
  refine ⟨_, rfl, ?_⟩
  exact typeProgram_wellTyped (rfl : typeProgram .default tally = _)

end Cascade.Typing
