import Cascade.Diagnostic.Report
import Mathlib.Data.List.Forall2

/-!
# Cascade.Proofs.Diagnostic

Where diagnostics point, and what reports keep of them.

* `Diagnostic.Shows`: a finding is shown with its severity and code, with one primary label at its
  place, and with a secondary label just where it refers to an earlier declaration.
* `Report.Tells`: a report tells what was added to a diagnostic, in the order of the additions.
* `findings_shown`: all errors and warnings are shown so, and whatever is built is told so.
-/

namespace Cascade

/-- The earlier declaration that a warning refers to. -/
def Warning.earlier? : Warning → Option Span
  | .unreachableCode _ => none
  | .shadowedVariable _ earlier _ => some earlier

/-- The earlier declaration that an error refers to, by itself or through the warning that it makes
fatal. -/
def Rejection.related? : Rejection → Option Span
  | .denied w => w.earlier?
  | e => e.earlier?

namespace Diagnostic

/-! ## Labels of findings -/

def range (file : Nat) (s : Span) : Nat × Nat × Nat := (file, s.start, s.stop)

def ranges (d : Diagnostic) (style : LabelStyle) : List (Nat × Nat × Nat) :=
  (d.labels.filter fun l => l.style = style).map fun l => (l.file, l.start, l.stop)

/-- The diagnostic is about a place in a file, and perhaps an earlier one. -/
structure Shows (d : Diagnostic) (severity : Severity) (code : String) (file : Nat) (here : Span)
    (earlier : Option Span) : Prop where
  severity : d.severity = severity
  code : d.code = some code
  primary : d.ranges .primary = [range file here]
  secondary : d.ranges .secondary = earlier.toList.map (range file)

section Shows

variable {d : Diagnostic} {severity : Severity} {code : String} {file : Nat} {here : Span}
  {earlier : Option Span}

theorem Shows.withNote (h : d.Shows severity code file here earlier) (note : String) :
    (d.withNote note).Shows severity code file here earlier :=
  ⟨h.severity, h.code, h.primary, h.secondary⟩

theorem Shows.asError (h : d.Shows severity code file here earlier) :
    d.asError.Shows .error code file here earlier :=
  ⟨rfl, h.code, h.primary, h.secondary⟩

end Shows

theorem ofWarning_shows (w : Warning) (file : Nat) :
    (ofWarning w file).Shows .warning w.kind.code file w.span w.earlier? := by
  cases w <;> exact ⟨rfl, rfl, rfl, rfl⟩

theorem located_shows (e : Rejection) (file : Nat) (here : String) :
    (located e file here).Shows .error e.code file e.span none :=
  ⟨rfl, rfl, rfl, rfl⟩

theorem paired_shows (e : Rejection) (file : Nat) (here : String) (earlier : Span)
    (there : String) :
    (paired e file here earlier there).Shows .error e.code file e.span (some earlier) :=
  ⟨rfl, rfl, rfl, rfl⟩

/-- The label at an earlier place is made error by error, and agrees with what `earlier?` says. -/
theorem ofError_shows (e : Rejection) (file : Nat) :
    (ofError e file).Shows .error e.code file e.span e.related? := by
  cases e with
  | duplicateDeclaration | duplicateClass | duplicateMember | duplicateLabel
  | duplicateDefault => exact paired_shows _ file _ _ _
  | denied w => exact (ofWarning_shows w file).asError.withNote _
  | unresolvedAccess | memberNotFound | methodNotFound =>
    exact (located_shows _ file _).withNote _
  | typeMismatch | invalidTarget | undefinedVariable | argumentCount | invalidLabel
  | breakOutsideSwitch | missingReturn | missingEntry => exact located_shows _ file _

/-! ## Building a diagnostic -/

inductive Addition where
  | code (code : String)
  | label (style : LabelStyle) (file : Nat) (span : Span) (message : String)
  | note (note : String)
  | help (help : String)

def add (d : Diagnostic) : Addition → Diagnostic
  | .code c => d.withCode c
  | .label style file span message => d.withLabel style file span message
  | .note n => d.withNote n
  | .help h => d.withHelp h

def build (severity : Severity) (message : String) (as : List Addition) : Diagnostic :=
  as.foldl add (new severity message)

namespace Addition

def code? : Addition → Option String
  | .code c => some c
  | .label .. | .note _ | .help _ => none

def label? : Addition → Option Label
  | .label style file span message => some ⟨style, file, span.start, span.stop, message⟩
  | .code _ | .note _ | .help _ => none

def note? : Addition → Option String
  | .note n => some n
  | .help h => some ("help: " ++ h)
  | .code _ | .label .. => none

end Addition

/-- A later code replaces an earlier one; labels and notes are kept in order. -/
theorem foldl_add (as : List Addition) (d : Diagnostic) :
    as.foldl add d = ⟨d.severity, (as.reverse.findSome? Addition.code?).or d.code, d.message,
      d.labels ++ as.filterMap Addition.label?, d.notes ++ as.filterMap Addition.note?⟩ := by
  induction as generalizing d with
  | nil => simp
  | cons a as ih =>
    rw [List.foldl_cons, ih]
    cases a <;> simp [add, withCode, withLabel, withNote, withHelp, List.filterMap_cons,
      Addition.code?, Addition.label?, Addition.note?]

end Diagnostic

/-! ## Reports -/

namespace Report

open Diagnostic (Addition)

variable {φ : Type} {files : FileLibrary φ}

/-- Every offset of every file has a location. -/
def LocatesAll (files : FileLibrary φ) : Prop :=
  ∀ i f, files.file? i = some f → ∀ offset, (files.location? f offset).isSome

/-- The entry tells what the label marks, in a file that is there. -/
structure Resolves (files : FileLibrary φ) (l : Label) (e : ReportLabel) : Prop where
  file : ∃ f, files.file? l.file = some f ∧ e.file = files.name f ∧
    files.location? f l.start = some e.start ∧ files.location? f l.stop = some e.stop
  style : e.style = l.style
  message : e.message.getD "" = l.message
  /-- An empty message counts as none. -/
  nonempty : e.message ≠ some ""

/-- What a report says about a diagnostic that was built by additions. -/
structure Tells (files : FileLibrary φ) (severity : Severity) (message : String)
    (as : List Addition) (r : Report) : Prop where
  severity : r.severity = severity
  /-- The code that was added last. -/
  code : r.code = as.reverse.findSome? Addition.code?
  message : r.message = message
  labels : List.Forall₂ (Resolves files)
    ((as.filterMap Addition.label?).filter fun l => (files.file? l.file).isSome) r.labels
  notes : r.notes = as.filterMap Addition.note?

theorem label?_missing {l : Label} (h : files.file? l.file = none) : label? files l = none := by
  rw [label?, h]

theorem label?_resolves (hfiles : LocatesAll files) {l : Label} {f : φ}
    (h : files.file? l.file = some f) : ∃ e, label? files l = some e ∧ Resolves files l e := by
  obtain ⟨start, hstart⟩ := Option.isSome_iff_exists.mp (hfiles _ f h l.start)
  obtain ⟨stop, hstop⟩ := Option.isSome_iff_exists.mp (hfiles _ f h l.stop)
  simp only [label?, h, hstart, hstop]
  refine ⟨_, rfl, ⟨f, h, rfl, hstart, hstop⟩, rfl, ?_, ?_⟩
  · split <;> simp_all
  · split <;> simp_all

/-- Labels on files that are there are resolved one by one, and the others are left out. -/
theorem filterMap_label? (hfiles : LocatesAll files) (ls : List Label) :
    List.Forall₂ (Resolves files) (ls.filter fun l => (files.file? l.file).isSome)
      (ls.filterMap (label? files)) := by
  induction ls with
  | nil => exact .nil
  | cons l ls ih =>
    cases h : files.file? l.file with
    | some f =>
      obtain ⟨e, he, hl⟩ := label?_resolves hfiles h
      rw [List.filter_cons_of_pos (by simp [h]), List.filterMap_cons_some he]
      exact .cons hl ih
    | none =>
      rw [List.filter_cons_of_neg (by simp [h]), List.filterMap_cons_none (label?_missing h)]
      exact ih

theorem ofDiagnostic_tells (hfiles : LocatesAll files) (severity : Severity) (message : String)
    (as : List Addition) :
    Tells files severity message as (ofDiagnostic files (.build severity message as)) := by
  rw [Diagnostic.build, Diagnostic.foldl_add]
  exact ⟨rfl, Option.or_none, rfl, filterMap_label? hfiles _, rfl⟩

theorem locatesAll_library (files : List SourceFile) : LocatesAll (SourceFile.library files) :=
  fun _ _ _ _ => rfl

end Report

/-- Diagnostics point where the findings are, and at the earlier declarations that these refer to.
Where files locate all offsets, reports keep all that was added to a diagnostic, except for labels
on files that are not there. -/
theorem findings_shown :
    (∀ (e : Rejection) (file : Nat),
      (Diagnostic.ofError e file).Shows .error e.code file e.span e.related?) ∧
    (∀ (w : Warning) (file : Nat),
      (Diagnostic.ofWarning w file).Shows .warning w.kind.code file w.span w.earlier?) ∧
    ∀ {φ : Type} (files : FileLibrary φ), Report.LocatesAll files →
      ∀ (severity : Severity) (message : String) (as : List Diagnostic.Addition),
        Report.Tells files severity message as
          (Report.ofDiagnostic files (.build severity message as)) :=
  ⟨Diagnostic.ofError_shows, Diagnostic.ofWarning_shows,
    fun _ hfiles => Report.ofDiagnostic_tells hfiles⟩

/-- Two labels, of which one is on a file that is not there. -/
def remarks : List Diagnostic.Addition :=
  [.label .secondary 1 ⟨0, 1, 1, 1⟩ "elsewhere", .code "E3001",
    .label .primary 0 ⟨3, 4, 2, 2⟩ "here", .help "look again"]

theorem remarks_shown :
    Report.Tells (SourceFile.library [⟨"Main.q", "a\nbc"⟩]) .error "no" remarks
      (Report.ofDiagnostic (SourceFile.library [⟨"Main.q", "a\nbc"⟩])
        (.build .error "no" remarks)) ∧
    (Report.ofDiagnostic (SourceFile.library [⟨"Main.q", "a\nbc"⟩])
        (.build .error "no" remarks)).labels =
      [⟨"Main.q", ⟨2, 2⟩, ⟨2, 3⟩, some "here", .primary⟩] :=
  ⟨findings_shown.2.2 _ (Report.locatesAll_library _) .error "no" remarks, by decide⟩

end Cascade
