import Cascade.Catalog.Basic

/-!
# Cascade.Catalog.Path

Resolution of dotted paths. A path starts at the root class, steps through nested classes one at a
time and ends in a member declared on exactly the last class; nothing is searched beyond that.
-/

namespace Cascade.Catalog

open Syntax

/-- An error that mentions the dotted name of a class. -/
def naming {α : Type} (t : Catalog) (c : ClassId) (e : String → Rejection) :
    Except (Failure Rejection) α :=
  match t.className c with
  | .error s => .error (.stray s)
  | .ok name => .error (.rejected (e name))

/-- Step through nested classes, telling where the path leaves the tree. -/
def stepThrough (t : Catalog) (p : Path) (c : ClassId) :
    List Ident → Except (Failure Rejection) ClassId
  | [] => .ok c
  | s :: ss =>
    match t.classAt c with
    | .error s => .error (.stray s)
    | .ok _ =>
      match t.nested c s.name with
      | some d => t.stepThrough p d ss
      | none =>
        t.naming c fun name =>
          .unresolvedAccess p.dotted ("'" ++ name ++ "' has no nested class '" ++ s.name ++ "'")
            p.span

/-- The class that all segments but the last spell. -/
def pathOwner (t : Catalog) (p : Path) : Except (Failure Rejection) ClassId :=
  match p.segments with
  | [] => .error (.rejected (.unresolvedAccess p.dotted "empty path" p.span))
  | [_] =>
    .error (.rejected
      (.unresolvedAccess p.dotted "a qualified path needs a class and a member" p.span))
  | first :: second :: rest =>
    match t.classAt root with
    | .error s => .error (.stray s)
    | .ok e =>
      if first.name = e.name then t.stepThrough p root (second :: rest).dropLast
      else
        .error (.rejected (.unresolvedAccess p.dotted
          ("qualified access must start at the root class '" ++ e.name ++ "'") p.span))

def lastSegment (p : Path) : Ident := p.segments.getLastD ⟨"", p.span⟩

/-- The number of the member of a kind that a path spells. -/
def pathMember (t : Catalog) (k : MemberKind) (p : Path) : Except (Failure Rejection) Nat :=
  match t.pathOwner p with
  | .error e => .error e
  | .ok c =>
    match t.lookup k c (lastSegment p).name with
    | .error s => .error (.stray s)
    | .ok (some e) => .ok e.id
    | .ok none =>
      t.naming c fun name => .memberNotFound name (lastSegment p).name k (lastSegment p).span

end Cascade.Catalog
