import Cascade.Failure
import Cascade.Syntax.Class

/-!
# Cascade.Catalog.Basic

The table of the classes of a program and of their members. Classes, fields and methods are
numbered in the order of the tree, the root class first, and each entry holds its number. A look-up
finds what is declared directly on a class and never goes to an enclosing or a nested class.

* `nested` and `member?` find numbers, `classAt` and `memberAt` read entries; `lookup` does both.
* `Catalog.build` fails exactly on two sibling classes, two fields or two methods of one name;
  a clash of classes anywhere is found before any clash of members.
-/

namespace Cascade

open Syntax

abbrev ClassId := Nat
abbrev FieldId := Nat
abbrev MethodId := Nat

structure ClassEntry where
  id : ClassId
  name : String
  /-- The class around it. -/
  parent : Option ClassId
  span : Span
  deriving DecidableEq, Repr, Inhabited

/-- A field with its type, or a method with the type of its result. -/
structure MemberEntry where
  id : Nat
  name : String
  ty : Ty
  owner : ClassId
  span : Span
  deriving DecidableEq, Repr, Inhabited

structure Catalog where
  classes : List ClassEntry
  fields : List MemberEntry
  methods : List MemberEntry
  deriving DecidableEq, Repr, Inhabited

/-- What a declaration of a member says to the outside. -/
structure Heading where
  name : Ident
  ty : Ty

def Syntax.ClassDecl.headings (d : ClassDecl) : MemberKind → List Heading
  | .field => d.fields.map fun f => ⟨f.name, f.ty⟩
  | .method => d.methods.map fun m => ⟨m.name, m.returns⟩

namespace Catalog

def root : ClassId := 0

def members (t : Catalog) : MemberKind → List MemberEntry
  | .field => t.fields
  | .method => t.methods

/-! ## Look-up -/

def isNested (c : ClassId) (name : String) (e : ClassEntry) : Bool :=
  e.parent == some c && e.name == name

def isMember (c : ClassId) (name : String) (e : MemberEntry) : Bool :=
  e.owner == c && e.name == name

def nested (t : Catalog) (c : ClassId) (name : String) : Option ClassId :=
  (t.classes.find? (isNested c name)).map ClassEntry.id

def member? (t : Catalog) (k : MemberKind) (c : ClassId) (name : String) : Option Nat :=
  ((t.members k).find? (isMember c name)).map MemberEntry.id

def classAt (t : Catalog) (c : ClassId) : Except Stray ClassEntry :=
  match t.classes[c]? with
  | some e => .ok e
  | none => .error (.cls c)

def memberAt (t : Catalog) (k : MemberKind) (i : Nat) : Except Stray MemberEntry :=
  match (t.members k)[i]? with
  | some e => .ok e
  | none => .error (.member k i)

/-- The entry of a member that a class declares. -/
def lookup (t : Catalog) (k : MemberKind) (c : ClassId) (name : String) :
    Except Stray (Option MemberEntry) :=
  match t.classAt c with
  | .error s => .error s
  | .ok _ =>
    match t.member? k c name with
    | none => .ok none
    | some i =>
      match t.memberAt k i with
      | .error s => .error s
      | .ok e => .ok (some e)

/-- Go down from a class through nested classes, one name at a time. -/
def descend (t : Catalog) (c : ClassId) : List String → Option ClassId
  | [] => some c
  | n :: ns =>
    match t.nested c n with
    | none => none
    | some d => t.descend d ns

def rootName (t : Catalog) : String :=
  match t.classes[root]? with
  | some e => e.name
  | none => ""

/-- The class that a list of simple names from the root class down spells. -/
def class? (t : Catalog) : List String → Option ClassId
  | [] => none
  | n :: ns => if n = t.rootName then t.descend root ns else none

/-! ## Dotted names -/

/-- The names from the root down to a class, read upwards in front of those that are known, in at
most so many steps. -/
def climb (t : Catalog) : Nat → ClassId → List String → Except Stray (List String)
  | 0, _, known => .ok known
  | n + 1, c, known =>
    match t.classAt c with
    | .error s => .error s
    | .ok e =>
      match e.parent with
      | none => .ok (e.name :: known)
      | some q => t.climb n q (e.name :: known)

def className (t : Catalog) (c : ClassId) : Except Stray String :=
  match t.climb t.classes.length c [] with
  | .error s => .error s
  | .ok names => .ok (String.intercalate "." names)

def memberName (t : Catalog) (k : MemberKind) (i : Nat) : Except Stray String :=
  match t.memberAt k i with
  | .error s => .error s
  | .ok e =>
    match t.className e.owner with
    | .error s => .error s
    | .ok owner => .ok (owner ++ "." ++ e.name)

/-! ## Construction -/

def addClass (t : Catalog) (e : ClassEntry) : Catalog := ⟨t.classes ++ [e], t.fields, t.methods⟩

def addMember (t : Catalog) (k : MemberKind) (e : MemberEntry) : Catalog :=
  match k with
  | .field => ⟨t.classes, t.fields ++ [e], t.methods⟩
  | .method => ⟨t.classes, t.fields, t.methods ++ [e]⟩

mutual

def enterClass (t : Catalog) (parent : Option ClassId) :
    ClassDecl → Except (Failure Rejection) Catalog
  | ⟨name, _, _, nested, _⟩ =>
    let c := t.classes.length
    (t.addClass ⟨c, name.name, parent, name.span⟩).enterNested c nested

/-- Enter the classes nested directly in class `c`; each name may be used once among them. -/
def enterNested (t : Catalog) (c : ClassId) :
    List ClassDecl → Except (Failure Rejection) Catalog
  | [] => .ok t
  | d :: ds =>
    match t.classAt c with
    | .error s => .error (.stray s)
    | .ok _ =>
      match t.nested c d.name.name with
      | some i =>
        match t.classAt i with
        | .error s => .error (.stray s)
        | .ok earlier => .error (.rejected (.duplicateClass d.name.name earlier.span d.name.span))
      | none =>
        match t.enterClass (some c) d with
        | .error e => .error e
        | .ok t => t.enterNested c ds

end

def enterMember (t : Catalog) (k : MemberKind) (c : ClassId) (d : Heading) :
    Except (Failure Rejection) Catalog :=
  match t.classAt c with
  | .error s => .error (.stray s)
  | .ok owner =>
    match t.member? k c d.name.name with
    | some i =>
      match t.memberAt k i with
      | .error s => .error (.stray s)
      | .ok earlier =>
        .error (.rejected (.duplicateMember owner.name d.name.name earlier.span d.name.span))
    | none => .ok (t.addMember k ⟨(t.members k).length, d.name.name, d.ty, c, d.name.span⟩)

def enterMembers (t : Catalog) (k : MemberKind) (c : ClassId) :
    List Heading → Except (Failure Rejection) Catalog
  | [] => .ok t
  | d :: ds =>
    match t.enterMember k c d with
    | .error e => .error e
    | .ok t => t.enterMembers k c ds

/-- Enter the members of classes numbered from `c` on, for each class its fields first. -/
def enterBodies (t : Catalog) (c : ClassId) :
    List ClassDecl → Except (Failure Rejection) Catalog
  | [] => .ok t
  | d :: ds =>
    match t.enterMembers .field c (d.headings .field) with
    | .error e => .error e
    | .ok t =>
      match t.enterMembers .method c (d.headings .method) with
      | .error e => .error e
      | .ok t => t.enterBodies (c + 1) ds

def build (p : Program) : Except (Failure Rejection) Catalog :=
  match enterClass ⟨[], [], []⟩ none p with
  | .error e => .error e
  | .ok t => t.enterBodies root p.preorder

end Catalog

end Cascade
