import Cascade.Typing.Stmt
import Cascade.Typing.Workers

/-!
# Cascade.Typing.Program

Typing of a whole program: the table of its classes, then all fields, then all methods against
that table. The first error in this order ends it.

* The result does not depend on how the methods are shared among workers.
-/

namespace Cascade.Typing

open Syntax

def typeField (table : Catalog) (settings : Settings) (id : FieldId) (d : FieldDecl) :
    Except (Failure Rejection) Typed.Field :=
  match table.memberAt .field id with
  | .error s => .error (.stray s)
  | .ok info =>
    if info.ty.isVoid then
      .error (.rejected (.typeMismatch "a numeric field type" Ty.void.text d.name.span))
    else
      let cx : Context := ⟨table, settings, info.owner, .void⟩
      match typeInit cx (.start settings.switchRedeclaration) info.ty d.init with
      | .error e => .error e
      | .ok init =>
        match table.memberName .field id with
        | .error s => .error (.stray s)
        | .ok name => .ok ⟨id, name, info.ty, init, d.span⟩

def typeFields (table : Catalog) (settings : Settings) :
    List (FieldDecl × FieldId) → Except (Failure Rejection) (List Typed.Field)
  | [] => .ok []
  | (d, id) :: rest =>
    match typeField table settings id d with
    | .error e => .error e
    | .ok f =>
      match typeFields table settings rest with
      | .error e => .error e
      | .ok fs => .ok (f :: fs)

/-- Type method number `id`, in its own class. Control may not reach the end of a method that has
to give a value. -/
def typeMethod (table : Catalog) (settings : Settings) (id : MethodId) (d : MethodDecl) : Verdict :=
  match table.memberAt .method id with
  | .error s => .error (.stray s)
  | .ok info =>
    match typeBody ⟨table, settings, info.owner, info.ty⟩ (.start settings) d.body with
    | (.error e, _) => .error e
    | (.ok body, st) =>
      match table.memberName .method id with
      | .error s => .error (.stray s)
      | .ok name =>
        if !info.ty.isVoid && Typed.allComplete body then
          .error (.rejected (.missingReturn name info.ty d.name.span))
        else .ok (⟨id, name, info.ty, st.scopes.locals, body, d.span⟩, st.warnings)

def firstError : List (Except (Failure Rejection) Typed.Method) →
    Except (Failure Rejection) (List Typed.Method)
  | [] => .ok []
  | .error e :: _ => .error e
  | .ok m :: rs =>
    match firstError rs with
    | .error e => .error e
    | .ok ms => .ok (m :: ms)

def workers (jobs : Nat) : Nat := min 4 jobs

def typeMethods (table : Catalog) (settings : Settings) (jobs : List (MethodDecl × MethodId)) :
    List (Except (Failure Rejection) Typed.Method) × Sink :=
  let check := fun job : MethodDecl × MethodId => typeMethod table settings job.2 job.1
  if settings.parallel && 1 < jobs.length then shared (workers jobs.length) check jobs
  else inOrder check 0 .empty jobs

/-- An accepted program, the table of its classes and its warnings in the order of the methods. -/
structure Accepted where
  program : Typed.Program
  table : Catalog
  warnings : List Warning

/-- Members are typed in the order in which the table numbers them. -/
def typeProgram (settings : Settings) (p : Program) : Except (Failure Rejection) Accepted :=
  match Catalog.build p with
  | .error e => .error e
  | .ok table =>
    match table.classAt Catalog.root with
    | .error s => .error (.stray s)
    | .ok root =>
      match table.lookup .method Catalog.root settings.entryPoint with
      | .error s => .error (.stray s)
      | .ok none => .error (.rejected (.missingEntry root.name settings.entryPoint p.name.span))
      | .ok (some entry) =>
        match typeFields table settings (Program.fields p).zipIdx with
        | .error e => .error e
        | .ok fields =>
          let checked := typeMethods table settings (Program.methods p).zipIdx
          match firstError checked.1 with
          | .error e => .error e
          | .ok methods =>
            .ok ⟨⟨root.name, fields, methods, entry.id⟩, table, checked.2.sorted⟩

end Cascade.Typing
