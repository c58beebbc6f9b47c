import Cascade.Proofs.Typing.Program
import Cascade.Proofs.Typing.Trimmed
import Cascade.Proofs.Typing.Unreachable

/-!
# Cascade.Proofs.Typing.Untrimmed

The typed program with all statements that typing checks and drops, each in its place. Every
accepted program has one, and the accepted program is its trimmed form.

* `keepProgram`: the untrimmed program.
* `Typed.Program.trim`: the program with the bodies of its methods trimmed.
* `keepProgram_ok`: what holds of the untrimmed program, and which warnings are raised.
-/

namespace Cascade

namespace Typed

def Method.trim (m : Method) : Method :=
  ⟨m.id, m.name, m.returns, m.locals, trimList m.body, m.span⟩

def Program.trim (p : Program) : Program := ⟨p.name, p.fields, p.methods.map Method.trim, p.entry⟩

theorem Program.trim_signature (p : Program) : p.trim.signature = p.signature := by
  simp only [signature, trim, List.map_map]
  rfl

/-- Trimming leaves the numbers of members alone. -/
theorem Program.Numbered.of_trim {p : Program} (h : p.trim.Numbered) : p.Numbered :=
  ⟨h.fields, fun {i m} hm => h.methods (m := m.trim) (by simp [trim, hm])⟩

structure Method.Checked (g : Signature) (m : Method) : Prop where
  slots : ∀ t ∈ m.slots, t.isNumeric = true
  body : ListWellTyped g m.slots m.returns false m.body

/-- What a well-typed program has to satisfy, but that control may reach the end of a method that
has to give a value. -/
structure Program.Checked (p : Program) : Prop where
  fields : ∀ f ∈ p.fields, f.WellTyped p.signature
  methods : ∀ m ∈ p.methods, m.Checked p.signature
  numbered : p.Numbered

end Typed

namespace Typing

open Syntax
open Typed (trimList)

/-- Type a method as `typeMethod` does, and drop nothing. -/
def keepMethod (table : Catalog) (settings : Settings) (id : MethodId) (d : MethodDecl) :
    Except (Failure Rejection) Typed.Method :=
  match table.memberAt .method id with
  | .error s => .error (.stray s)
  | .ok info =>
    match keepList ⟨table, settings, info.owner, info.ty⟩ (.start settings) .live d.body with
    | (.error e, _) => .error e
    | (.ok whole, st) =>
      match table.memberName .method id with
      | .error s => .error (.stray s)
      | .ok name => .ok ⟨id, name, info.ty, st.scopes.locals, whole, d.span⟩

/-- The accepted program with all statements that typing checks. -/
def keepProgram (settings : Settings) (p : Program) : Except (Failure Rejection) Typed.Program :=
  match typeProgram settings p with
  | .error e => .error e
  | .ok a =>
    match firstError ((Program.methods p).zipIdx.map fun job =>
        keepMethod a.table settings job.2 job.1) with
    | .error e => .error e
    | .ok methods => .ok ⟨a.program.name, a.program.fields, methods, a.program.entry⟩

def bodyLists (d : MethodDecl) : List (List Stmt) := d.body :: listsIn d.body

def methodPairs (m : MethodDecl × Typed.Method) : List (List Stmt × List Typed.Stmt) :=
  (m.1.body, m.2.body) :: innerLists m.1.body m.2.body

def programPairs (p : Program) (whole : Typed.Program) : List (List Stmt × List Typed.Stmt) :=
  ((Program.methods p).zip whole.methods).flatMap methodPairs

/-- The warnings about some lists of statements, each paired with what typing would keep of it. As
far as unreachable code goes, there is one for each list that something is dropped from which is not
empty, at the first such statement; or there are none, if they are not reported. -/
structure Warned (settings : Settings) (warnings : List Warning)
    (pairs : List (List Stmt × List Typed.Stmt)) (lists : List (List Stmt)) : Prop where
  covers : Covers pairs lists
  warnings : (warnings.filterMap Warning.unreachable?).Perm
    (if settings.warnings.isReported .unreachableCode then pairs.filterMap firstDropped else [])

theorem Warned.append {settings : Settings} {ws ws' : List Warning}
    {ps ps' : List (List Stmt × List Typed.Stmt)} {ls ls' : List (List Stmt)}
    (h : Warned settings ws ps ls) (h' : Warned settings ws' ps' ls') :
    Warned settings (ws ++ ws') (ps ++ ps') (ls ++ ls') where
  covers := h.covers.append h'.covers
  warnings := by
    rw [List.filterMap_append, List.filterMap_append]
    refine (h.warnings.append h'.warnings).trans (.of_eq ?_)
    split <;> rfl

/-! ## Methods -/

theorem keepMethod_ok {table : Catalog} {settings : Settings} (hnum : table.Numbered)
    {id : MethodId} {d : MethodDecl} {m : Typed.Method} {ws : List Warning}
    (h : typeMethod table settings id d = .ok (m, ws)) :
    ∃ q, keepMethod table settings id d = .ok q ∧ q.trim = m ∧ q.Checked table.signature ∧
      Warned settings ws (methodPairs (d, q)) (bodyLists d) := by
  obtain ⟨info, name, body, st, hinfo, hname, hbody, -, rfl, rfl⟩ := typeMethod_ok h
  obtain ⟨whole, hwhole, rfl⟩ := typeList_of_ok hbody
  obtain ⟨ha, hw⟩ := keepList_wellTyped hnum d.body .live _ _ _ false (Scopes.start_sound _)
    (by simp [State.start]) hwhole
  obtain ⟨hcovers, more, hmore, hperm⟩ := keepBody_listed hwhole
  refine ⟨⟨id, name, info.ty, st.scopes.locals, whole, d.span⟩,
    by simp only [keepMethod, hinfo, hwhole, hname], rfl,
    ⟨(ha.sound (Scopes.start_sound _)).numeric, hw⟩, ?_⟩
  rw [hmore]
  exact ⟨hcovers, hperm⟩

theorem keepMethods_ok {table : Catalog} {settings : Settings} (hnum : table.Numbered) :
    ∀ {jobs : List (MethodDecl × MethodId)} {ms : List Typed.Method},
      firstError (jobs.map fun job => (verdict table settings job).result) = .ok ms →
      ∃ qs, firstError (jobs.map fun job => keepMethod table settings job.2 job.1) = .ok qs ∧
        qs.map Typed.Method.trim = ms ∧ (∀ q ∈ qs, q.Checked table.signature) ∧
        Warned settings (jobs.flatMap fun job => (verdict table settings job).warnings)
          (((jobs.map Prod.fst).zip qs).flatMap methodPairs)
          ((jobs.map Prod.fst).flatMap bodyLists)
  | [], ms, h => by
    cases h
    exact ⟨[], rfl, rfl, by simp, .nil, .of_eq (ite_self _).symm⟩
  | (d, id) :: jobs, ms, h => by
    simp only [List.map_cons] at h
    cases hm : (verdict table settings (d, id)).result with
    | error e =>
      rw [hm] at h
      cases h
    | ok m =>
      rw [hm] at h
      simp only [firstError] at h
      split at h
      · cases h
      rename_i hrest
      cases h
      obtain ⟨ws, hok⟩ := Verdict.result_ok hm
      obtain ⟨q, hq, htrim, hchecked, hwarns⟩ := keepMethod_ok hnum hok
      obtain ⟨qs, hqs, htrims, hall, hrests⟩ := keepMethods_ok hnum hrest
      refine ⟨q :: qs, ?_, ?_, List.forall_mem_cons.mpr ⟨hchecked, hall⟩, ?_⟩
      · simp only [List.map_cons, hq, firstError, hqs]
      · rw [List.map_cons, htrim, htrims]
      · have hv : (verdict table settings (d, id)).warnings = ws := by
          rw [hok]
          rfl
        simp only [List.flatMap_cons, List.map_cons, List.zip_cons_cons, hv]
        exact hwarns.append hrests

/-! ## Programs -/

/-- An accepted program is what trimming leaves of the untrimmed one, and typing warned of each list
that is trimmed. -/
theorem keepProgram_ok {settings : Settings} {p : Program} {a : Accepted}
    (h : typeProgram settings p = .ok a) :
    ∃ q, keepProgram settings p = .ok q ∧ q.trim = a.program ∧ q.Checked ∧
      Warned settings a.warnings (programPairs p q) ((Program.methods p).flatMap bodyLists) := by
  obtain ⟨htable, hdeclared, hwell⟩ := typeProgram_ok h
  have hstages := typeProgram_stages h
  have hi := Catalog.build_indexed htable
  obtain ⟨qs, hqs, htrim, hall, hwarns⟩ := keepMethods_ok hi.memberIds hstages.methods
  have hsig : a.table.signature = declared p := signature_declared htable
  let q : Typed.Program := ⟨a.program.name, a.program.fields, qs, a.program.entry⟩
  have hq : q.trim = a.program := by
    rw [Typed.Program.trim, htrim]
  have hqsig : q.signature = a.program.signature := by
    rw [← hq, Typed.Program.trim_signature]
  refine ⟨q, by simp only [keepProgram, h, hqs, q], hq, ⟨?_, ?_, ?_⟩, ?_⟩
  · rw [hqsig]
    exact hwell.fields
  · rw [hqsig, hdeclared, ← hsig]
    exact hall
  · exact Typed.Program.Numbered.of_trim (hq ▸ hwell.numbered)
  · rw [List.zipIdx_map_fst] at hwarns
    rw [hstages.warnings, (typeMethods_eq a.table settings _).2, inOrder_sorted]
    exact hwarns

end Typing
end Cascade
