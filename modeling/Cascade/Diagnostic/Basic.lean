import Cascade.Finding

/-!
# Cascade.Diagnostic.Basic

Findings made ready to be shown: a message with labels on places in the source and with notes.

* A finding has exactly one primary label, at its own place, and a secondary label exactly where it
  refers to an earlier declaration.
-/

namespace Cascade

inductive Severity where
  | bug
  | error
  | warning
  | note
  | help
  deriving DecidableEq, Repr, Inhabited

def Severity.text : Severity → String
  | .bug => "bug"
  | .error => "error"
  | .warning => "warning"
  | .note => "note"
  | .help => "help"

inductive LabelStyle where
  | primary
  | secondary
  deriving DecidableEq, Repr, Inhabited

def LabelStyle.text : LabelStyle → String
  | .primary => "primary"
  | .secondary => "secondary"

/-- A remark on a byte range of a file, which is known by its number. -/
structure Label where
  style : LabelStyle
  file : Nat
  start : Nat
  stop : Nat
  message : String
  deriving DecidableEq, Repr, Inhabited

structure Diagnostic where
  severity : Severity
  code : Option String
  message : String
  labels : List Label
  notes : List String
  deriving DecidableEq, Repr, Inhabited

namespace Diagnostic

def new (severity : Severity) (message : String) : Diagnostic := ⟨severity, none, message, [], []⟩

def withCode (d : Diagnostic) (code : String) : Diagnostic :=
  ⟨d.severity, some code, d.message, d.labels, d.notes⟩

def withLabel (d : Diagnostic) (style : LabelStyle) (file : Nat) (span : Span)
    (message : String) : Diagnostic :=
  ⟨d.severity, d.code, d.message, d.labels ++ [⟨style, file, span.start, span.stop, message⟩],
    d.notes⟩

def withNote (d : Diagnostic) (note : String) : Diagnostic :=
  ⟨d.severity, d.code, d.message, d.labels, d.notes ++ [note]⟩

def withHelp (d : Diagnostic) (help : String) : Diagnostic := d.withNote ("help: " ++ help)

def asError (d : Diagnostic) : Diagnostic := ⟨.error, d.code, d.message, d.labels, d.notes⟩

def ofWarning (w : Warning) (file : Nat) : Diagnostic :=
  let d := (new .warning w.message).withCode w.kind.code
  match w with
  | .unreachableCode s =>
    d.withLabel .primary file s "this statement is never executed"
  | .shadowedVariable _ earlier shadow =>
    (d.withLabel .primary file shadow "shadowing declaration").withLabel .secondary file earlier
      "outer declaration here"

def located (e : Rejection) (file : Nat) (here : String) : Diagnostic :=
  ((new .error e.message).withCode e.code).withLabel .primary file e.span here

def paired (e : Rejection) (file : Nat) (here : String) (earlier : Span) (there : String) :
    Diagnostic :=
  (located e file here).withLabel .secondary file earlier there

def ofError (e : Rejection) (file : Nat) : Diagnostic :=
  match e with
  | .duplicateDeclaration _ earlier _ =>
    paired e file "duplicate declaration" earlier "first declaration here"
  | .duplicateClass _ earlier _ | .duplicateMember _ _ earlier _ =>
    paired e file "declared again here" earlier "first declaration here"
  | .unresolvedAccess _ reason _ =>
    (located e file reason).withHelp
      "qualify the path from the root class, one nested class at a time"
  | .memberNotFound owner _ _ _ =>
    (located e file "not declared on this class").withNote
      ("members of enclosing or nested classes are not searched from '" ++ owner ++ "'")
  | .methodNotFound .. =>
    (located e file "not found in the current class").withHelp
      "methods of other classes need a qualified path such as Main.Nested.method()"
  | .typeMismatch expected actual _ =>
    located e file ("expected " ++ expected ++ ", found " ++ actual)
  | .undefinedVariable .. => located e file "not found in this scope"
  | .duplicateLabel _ earlier _ | .duplicateDefault earlier _ =>
    paired e file "repeated here" earlier "first used here"
  | .breakOutsideSwitch _ => located e file "not inside a switch"
  | .missingReturn .. => located e file "end of method is reachable"
  | .denied w => (ofWarning w file).asError.withNote "this warning is configured as an error"
  | .invalidTarget _ | .argumentCount .. | .invalidLabel _ | .missingEntry .. =>
    located e file ""

end Diagnostic

end Cascade
