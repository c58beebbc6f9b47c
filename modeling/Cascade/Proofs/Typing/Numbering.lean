import Cascade.Proofs.Catalog.Paths
import Cascade.Proofs.Typing.Program

/-!
# Cascade.Proofs.Typing.Numbering

The number of a member of an accepted program is the same in its declaration, in the table and in
the typed program.

* `FieldStands`, `MethodStands`: what stands under one number, from the declaration to the typed
  member that was made of it in its own class.
* `typeProgram_field`, `typeProgram_method`: it stands there for every declaration, and
  `typeProgram_counts`: for nothing else.
* `typeProgram_entry`: which method is the entry.
-/

namespace Cascade.Typing

open Syntax

variable {settings : Settings} {p : Program} {a : Accepted}

/-- In the table, number `i` stands for the member that is declared by `d` in class `c`. -/
structure MemberStands (k : MemberKind) (p : Program) (t : Catalog) (i : Nat) (c : ClassId)
    (d : Heading) : Prop where
  inClass : Catalog.Declares (·.headings k) p c d i
  /-- The entry holds the number that it stands under. -/
  entry : t.memberAt k i = .ok ⟨i, d.name.name, d.ty, c, d.name.span⟩
  found : t.lookup k c d.name.name = .ok (some ⟨i, d.name.name, d.ty, c, d.name.span⟩)

/-- Number `i` stands for the field that is declared by `d` in class `c`, in the table and in the
typed program. -/
structure FieldStands (settings : Settings) (p : Program) (a : Accepted) (i : FieldId)
    (c : ClassId) (d : FieldDecl) (f : Typed.Field) : Prop where
  declared : (Program.fields p)[i]? = some d
  table : MemberStands .field p a.table i c ⟨d.name, d.ty⟩
  typed : a.program.fields[i]? = some f
  id : f.id = i
  name : a.table.memberName .field i = .ok f.name
  ty : f.ty = d.ty
  span : f.span = d.span
  /-- The initial value is typed where the members of `c` can be named alone. -/
  init : typeInit ⟨a.table, settings, c, .void⟩ (.start settings.switchRedeclaration) d.ty
    d.init = .ok f.init

/-- Number `i` stands for the method that is declared by `d` in class `c`, in the table and in the
typed program. -/
structure MethodStands (settings : Settings) (p : Program) (a : Accepted) (i : MethodId)
    (c : ClassId) (d : MethodDecl) (t : Typed.Method) : Prop where
  declared : (Program.methods p)[i]? = some d
  table : MemberStands .method p a.table i c ⟨d.name, d.returns⟩
  typed : a.program.methods[i]? = some t
  id : t.id = i
  name : a.table.memberName .method i = .ok t.name
  returns : t.returns = d.returns
  span : t.span = d.span
  /-- The body is typed where the members of `c` can be named alone, and it declares the local
  variables. -/
  body : ∃ st, typeBody ⟨a.table, settings, c, d.returns⟩ (.start settings) d.body =
    (.ok t.body, st) ∧ t.locals = st.scopes.locals

theorem typeInit_isSome {cx : Context} {scopes : Scopes} {ty : Ty} {init : Option Expr}
    {v : Option Typed.Expr} (h : typeInit cx scopes ty init = .ok v) :
    v.isSome = init.isSome := by
  cases init with
  | none =>
    cases h
    rfl
  | some e =>
    simp only [typeInit] at h
    split at h
    · cases h
    split at h
    · cases h
    cases h
    rfl

/-- What a class declares stands in the table, under its number among all members. -/
theorem build_stands {t : Catalog} (h : Catalog.build p = .ok t) {k : MemberKind} {c : ClassId}
    {d : Heading} {i : Nat} (hd : Catalog.Declares (·.headings k) p c d i) :
    MemberStands k p t i c d := by
  have hat := (Catalog.build_declared h).mpr ⟨c, d, hd, rfl⟩
  have hc : c < t.classes.length := (Catalog.build_indexed h).owners hat
  exact ⟨hd, Catalog.memberAt_ok.mpr hat,
    (Catalog.lookup_iff h hc).mpr ⟨(Catalog.build_member? h).mpr ⟨d, hd, rfl⟩, hat⟩⟩

theorem typeProgram_field (h : typeProgram settings p = .ok a) {i : FieldId} {d : FieldDecl}
    (hd : (Program.fields p)[i]? = some d) : ∃ c f, FieldStands settings p a i c d f := by
  have hmembers := typeProgram_members h
  obtain ⟨c, hc⟩ := Catalog.declares_iff.mp hd
  have hstands := build_stands hmembers.built hc.field
  obtain ⟨f, hf, hok⟩ := hmembers.field hd
  obtain ⟨info, name, init, hinfo, hname, -, hinit, rfl⟩ := typeField_ok hok
  obtain rfl := Except.ok.inj (hstands.entry.symm.trans hinfo)
  exact ⟨c, _, hd, hstands, hf, rfl, hname, rfl, rfl, hinit⟩

theorem typeProgram_method (h : typeProgram settings p = .ok a) {i : MethodId} {d : MethodDecl}
    (hd : (Program.methods p)[i]? = some d) : ∃ c t, MethodStands settings p a i c d t := by
  have hmembers := typeProgram_members h
  obtain ⟨c, hc⟩ := Catalog.declares_iff.mp hd
  have hstands := build_stands hmembers.built hc.method
  obtain ⟨t, ws, ht, hok⟩ := hmembers.method hd
  obtain ⟨info, name, body, st, hinfo, hname, hbody, -, rfl, -⟩ := typeMethod_ok hok
  obtain rfl := Except.ok.inj (hstands.entry.symm.trans hinfo)
  exact ⟨c, _, hd, hstands, ht, rfl, hname, rfl, rfl, st, hbody, rfl⟩

/-- As many fields and methods stand in the table and in the typed program as are declared. -/
structure SameCounts (p : Program) (a : Accepted) : Prop where
  tableFields : a.table.fields.length = (Program.fields p).length
  tableMethods : a.table.methods.length = (Program.methods p).length
  fields : a.program.fields.length = (Program.fields p).length
  methods : a.program.methods.length = (Program.methods p).length

theorem typeProgram_counts (h : typeProgram settings p = .ok a) : SameCounts p a := by
  have hmembers := typeProgram_members h
  have hindexed := Catalog.build_indexed hmembers.built
  exact ⟨hindexed.fields, hindexed.methods, hmembers.fields, hmembers.methods⟩

theorem typeProgram_entry (h : typeProgram settings p = .ok a) : ∃ d t,
    MethodStands settings p a a.program.entry Catalog.root d t ∧
      d.name.name = settings.entryPoint := by
  have hstages := typeProgram_stages h
  have hindexed := Catalog.build_indexed hstages.built
  obtain ⟨e, hlookup, hid⟩ := hstages.entry
  obtain ⟨hmember, hat⟩ := Catalog.lookup_entry hindexed.memberIds hlookup
  rw [← hid] at hmember hat
  have hlt : a.program.entry < (Program.methods p).length :=
    hindexed.methods ▸ hindexed.member? hmember
  obtain ⟨c, t, hstands⟩ := typeProgram_method h (List.getElem?_eq_getElem hlt)
  obtain rfl := Except.ok.inj (hstands.table.entry.symm.trans hat)
  obtain ⟨e', he', howner, hname⟩ := (Catalog.build_member?_entry hstages.built).mp hmember
  obtain rfl := Except.ok.inj (hat.symm.trans (Catalog.memberAt_ok.mpr he'))
  obtain rfl : c = Catalog.root := howner
  exact ⟨_, t, hstands, hname⟩

end Cascade.Typing
