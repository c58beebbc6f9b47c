import Cascade.Toml.Scan
import Cascade.Toml.Value

/-!
# Cascade.Toml.Document

Reading of whole TOML documents. The result is one table; any fault in the text, a key or a table
that is defined twice among them, leaves nothing.
-/

namespace Cascade.Toml

/-- The text in front of what is left of it. -/
def consumed (s rest : List Char) : String := String.ofList (s.take (s.length - rest.length))

/-- A value that is neither a string nor built from other values. -/
def scalar (s : List Char) : Scanned Value :=
  match s with
  | 't' :: 'r' :: 'u' :: 'e' :: r => some (.bool true, r)
  | 'f' :: 'a' :: 'l' :: 's' :: 'e' :: r => some (.bool false, r)
  | s =>
    match date s with
    | some r => some (.date (consumed s r), r)
    | none =>
      match number s with
      | some (.integer n, r) => some (.integer n, r)
      | some (.float, r) => some (.float (consumed s r), r)
      | none => none

def splitKey (ks : List String) : List String × String := (ks.dropLast, ks.getLastD "")

mutual

/-- A value inside `depth` arrays and tables in braces. Each step of fuel goes one character or one
bracket on. -/
def value : Nat → Nat → List Char → Scanned Value
  | 0, _, _ => none
  | fuel + 1, depth, s =>
    match s with
    | '"' :: _ => (string? s).map fun r => (.text (String.ofList r.1), r.2)
    | '\'' :: _ => (string? s).map fun r => (.text (String.ofList r.1), r.2)
    | '[' :: s =>
      if depth + 1 < nestingLimit then
        (items fuel (depth + 1) s).map fun r => (.array r.1, r.2)
      else none
    | '\x7b' :: s =>
      if depth + 1 < nestingLimit then
        match skipBlanks s with
        | '\x7d' :: s => some (.table .inline [], s)
        | s => (pairs fuel (depth + 1) [] s).map fun r => (.table .inline r.1, r.2)
      else none
    | s => scalar s

def items : Nat → Nat → List Char → Scanned (List Value)
  | 0, _, _ => none
  | fuel + 1, depth, s =>
    match skipFill false s with
    | none => none
    | some (']' :: s) => some ([], s)
    | some s =>
      match value fuel depth s with
      | none => none
      | some (v, s) =>
        match skipFill false s with
        | some (']' :: s) => some ([v], s)
        | some (',' :: s) => (items fuel depth s).map fun r => (v :: r.1, r.2)
        | _ => none

/-- The rest of a table in braces, where some entries are read already. -/
def pairs : Nat → Nat → Entries → List Char → Scanned Entries
  | 0, _, _, _ => none
  | fuel + 1, depth, es, s =>
    match dottedKey s with
    | some (ks, '=' :: s) =>
      match value fuel depth (skipBlanks s) with
      | none => none
      | some (v, s) =>
        match Entries.addDotted (splitKey ks).2 v (splitKey ks).1 es with
        | none => none
        | some es =>
          match skipBlanks s with
          | '\x7d' :: s => some (es, s)
          | ',' :: s => pairs fuel depth es s
          | _ => none
    | _ => none

end

/-- What has been read of a document: its table, and the names of the header that holds now. -/
structure Reading where
  root : Entries
  header : List String

def header (p : Reading) (s : List Char) : Scanned Reading :=
  match dottedKey s with
  | some (ks, ']' :: s) =>
    let k := splitKey ks
    (Entries.within (Entries.openTable k.2) k.1 p.root).map fun root => (⟨root, ks⟩, s)
  | _ => none

def elementHeader (p : Reading) (s : List Char) : Scanned Reading :=
  match dottedKey s with
  | some (ks, ']' :: ']' :: s) =>
    let k := splitKey ks
    (Entries.within (Entries.openElement k.2) k.1 p.root).map fun root => (⟨root, ks⟩, s)
  | _ => none

def entry (p : Reading) (s : List Char) : Scanned Reading :=
  match dottedKey s with
  | some (ks, '=' :: s) =>
    match value (2 * s.length + 2) 0 (skipBlanks s) with
    | none => none
    | some (v, s) =>
      let k := splitKey ks
      (Entries.within (Entries.addDotted k.2 v k.1) p.header p.root).map fun root =>
        (⟨root, p.header⟩, s)
  | _ => none

/-- Read lines to the end of the text. Each step of fuel reads one. -/
def lines : Nat → Reading → List Char → Option Entries
  | 0, _, _ => none
  | fuel + 1, p, s =>
    match skipBlanks s with
    | [] => some p.root
    | '#' :: _ => (restOfLine s).bind (lines fuel p)
    | '\n' :: s => lines fuel p s
    | '\r' :: '\n' :: s => lines fuel p s
    | '[' :: '[' :: s =>
      match elementHeader p s with
      | none => none
      | some (p, s) => (restOfLine s).bind (lines fuel p)
    | '[' :: s =>
      match header p s with
      | none => none
      | some (p, s) => (restOfLine s).bind (lines fuel p)
    | s =>
      match entry p s with
      | none => none
      | some (p, s) => (restOfLine s).bind (lines fuel p)

def dropMark : List Char → List Char
  | c :: s => if c.toNat = 65279 then s else c :: s
  | [] => []

def document? (text : String) : Option Entries :=
  let s := dropMark text.toList
  lines (s.length + 1) ⟨[], []⟩ s

end Cascade.Toml
