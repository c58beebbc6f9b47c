import Cascade.Settings.Basic
import Cascade.Toml.Document

/-!
# Cascade.Settings.File

Settings and limits from the tables `check` and `vm` of a configuration file. Whatever the file
does not mention keeps its default, and keys that are not known are ignored.

* A group of settings is a table, or a list of its values in the order in which they are declared
  here; a date is a group without any.
* A choice among names is one of the names as a string, or as the one key of a table with nothing
  behind it.
-/

namespace Cascade

open Toml

inductive ConfigFailure where
  /-- The text is no document, or a value in it is not of the kind that its setting needs. -/
  | parse
  | invalid (problem : String)
  deriving DecidableEq, Repr

def ConfigFailure.message : ConfigFailure → String
  | .parse => "Failed to parse configuration"
  | .invalid p => "Invalid configuration: " ++ p

namespace Config

abbrev Reader (α : Type) := Value → Option α

def text : Reader String
  | .text s => some s
  | _ => none

def bool : Reader Bool
  | .bool b => some b
  | _ => none

def natural : Reader Nat
  | .integer n => if 0 ≤ n then some n.toNat else none
  | _ => none

def list : Reader (List Value)
  | .array vs => some vs
  | .tables ts => some (ts.map (.table .header))
  | _ => none

def isNothing : Value → Bool
  | .table _ es => es.isEmpty
  | .array vs => vs.isEmpty
  | .tables ts => ts.isEmpty
  | _ => false

def choice (ofName : String → Option α) : Reader α
  | .text s => ofName s
  | .table _ [(k, v)] => if isNothing v then ofName k else none
  | _ => none

/-- A list of choices, which stand for a set. -/
def choices (ofName : String → Option α) (v : Value) : Option (List α) :=
  match list v with
  | some vs => vs.mapM (choice ofName)
  | none => none

/-- How a group of settings is written. -/
inductive Group where
  | named (es : Entries)
  | listed (vs : List Value)

def group : Reader Group
  | .table _ es => some (.named es)
  | .date _ => some (.named [])
  | v => (list v).map .listed

def Group.find? (g : Group) (name : String) (place : Nat) : Option Value :=
  match g with
  | .named es => es.lookup name
  | .listed vs => vs[place]?

/-- A setting of a group, or its default if the group does not mention it. -/
def setting (g : Group) (read : Reader α) (name : String) (place : Nat) (default : α) :
    Option α :=
  match g.find? name place with
  | some v => read v
  | none => some default

def redeclaration? (s : String) : Option Redeclaration :=
  if s = "reject" then some .reject else if s = "rebind" then some .rebind else none

def warnings (v : Value) : Option WarningSettings := do
  let g ← group v
  let disabled ← setting g (choices WarningKind.ofName?) "disabled" 0 []
  let fatal ← setting g (choices WarningKind.ofName?) "deny" 1 []
  let strict ← setting g bool "strict" 2 false
  some ⟨disabled, fatal, strict⟩

def settings (v : Value) : Option Settings := do
  let d := Settings.default
  let g ← group v
  let entryPoint ← setting g text "entry-point" 0 d.entryPoint
  let redeclaration ←
    setting g (choice redeclaration?) "switch-redeclaration" 1 d.switchRedeclaration
  let narrowing ← setting g bool "constant-narrowing" 2 d.constantNarrowing
  let parallel ← setting g bool "parallel" 3 d.parallel
  let warnings ← setting g warnings "warnings" 4 d.warnings
  some ⟨entryPoint, redeclaration, narrowing, parallel, warnings⟩

def limits (v : Value) : Option Limits := do
  let d := Limits.default
  let g ← group v
  let depth ← setting g natural "max-call-depth" 0 d.maxCallDepth
  let registers ← setting g natural "max-registers" 1 d.maxRegisters
  some ⟨depth, registers⟩

def read (file key : String) (read : Reader α) (default : α) (problem? : α → Option String) :
    Except ConfigFailure α :=
  match document? file with
  | none => .error .parse
  | some es =>
    match setting (.named es) read key 0 default with
    | none => .error .parse
    | some a =>
      match problem? a with
      | some p => .error (.invalid p)
      | none => .ok a

end Config

def Settings.ofFile (file : String) : Except ConfigFailure Settings :=
  Config.read file "check" Config.settings .default Settings.problem?

def Limits.ofFile (file : String) : Except ConfigFailure Limits :=
  Config.read file "vm" Config.limits .default Limits.problem?

/-- Settings given by hand are checked like those of a file. -/
def Settings.checked (s : Settings) : Except ConfigFailure Unit :=
  match s.problem? with
  | some p => .error (.invalid p)
  | none => .ok ()

end Cascade
