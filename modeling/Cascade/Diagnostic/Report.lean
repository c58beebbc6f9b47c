import Cascade.Diagnostic.Basic
import Cascade.Diagnostic.Location
import Cascade.Json

/-!
# Cascade.Diagnostic.Report

Diagnostics for editors: offsets are resolved to lines and columns, and the whole is written as
JSON.

* A label on a file that is not there, or on an offset that cannot be located, is left out; all
  other labels keep their order.
-/

namespace Cascade

/-- A label with resolved places. An empty message counts as none. -/
structure ReportLabel where
  file : String
  start : Location
  stop : Location
  message : Option String
  style : LabelStyle
  deriving DecidableEq, Repr, Inhabited

structure Report where
  code : Option String
  severity : Severity
  message : String
  labels : List ReportLabel
  notes : List String
  deriving DecidableEq, Repr, Inhabited

namespace Report

def label? {φ : Type} (files : FileLibrary φ) (l : Label) : Option ReportLabel :=
  match files.file? l.file with
  | none => none
  | some f =>
    match files.location? f l.start with
    | none => none
    | some start =>
      match files.location? f l.stop with
      | none => none
      | some stop =>
        some ⟨files.name f, start, stop, if l.message.isEmpty then none else some l.message,
          l.style⟩

def ofDiagnostic {φ : Type} (files : FileLibrary φ) (d : Diagnostic) : Report :=
  ⟨d.code, d.severity, d.message, d.labels.filterMap (label? files), d.notes⟩

def labelJson (l : ReportLabel) : String :=
  Json.object 2 [
    ("file", Json.quote l.file),
    ("start_line", toString l.start.line),
    ("start_column", toString l.start.column),
    ("end_line", toString l.stop.line),
    ("end_column", toString l.stop.column),
    ("message", Json.quote? l.message),
    ("style", Json.quote l.style.text)]

def json (r : Report) : String :=
  Json.object 0 [
    ("code", Json.quote? r.code),
    ("severity", Json.quote r.severity.text),
    ("message", Json.quote r.message),
    ("labels", Json.array 1 (r.labels.map labelJson)),
    ("notes", Json.array 1 (r.notes.map Json.quote))]

end Report

end Cascade
