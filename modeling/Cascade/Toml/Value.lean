/-!
# Cascade.Toml.Value

Values of TOML documents. A table remembers how it came to be, since that decides what may still be
added to it:

* a table from a header, or one written in braces, is complete and takes no more dotted keys;
* a table that a dotted key made takes more dotted keys, but no header;
* a table that stands only in front of a header's last name takes one header of its own.
-/

namespace Cascade.Toml

inductive Origin where
  | inline
  | header
  | dotted
  | implied
  deriving DecidableEq, Repr

/-- A value. Numbers with a fraction and dates are kept as they are written. -/
inductive Value where
  | text (s : String)
  | integer (n : Int)
  | float (s : String)
  | bool (b : Bool)
  | date (s : String)
  | array (items : List Value)
  | table (origin : Origin) (entries : List (String × Value))
  /-- Tables from headers in double brackets. -/
  | tables (items : List (List (String × Value)))
  deriving Inhabited

abbrev Entries := List (String × Value)

namespace Entries

def put (es : Entries) (key : String) (v : Value) : Entries :=
  match es with
  | [] => [(key, v)]
  | (k, w) :: rest => if k = key then (k, v) :: rest else (k, w) :: put rest key v

def add (es : Entries) (key : String) (v : Value) : Option Entries :=
  match es.lookup key with
  | none => some (es ++ [(key, v)])
  | some _ => none

def inLast (change : Entries → Option Entries) : List Entries → Option (List Entries)
  | [] => none
  | [es] => (change es).map fun es => [es]
  | es :: rest => (inLast change rest).map fun rest => es :: rest

/-- Add a value under a dotted key: `path` leads to the table, and `key` is the last name. -/
def addDotted (key : String) (v : Value) : List String → Entries → Option Entries
  | [], es => es.add key v
  | k :: ks, es =>
    match es.lookup k with
    | none => (addDotted key v ks []).map fun inner => es ++ [(k, .table .dotted inner)]
    | some (.table .dotted inner) =>
      (addDotted key v ks inner).map fun inner => es.put k (.table .dotted inner)
    | some (.table .implied inner) =>
      if ks.isEmpty then none
      else (addDotted key v ks inner).map fun inner => es.put k (.table .implied inner)
    | some (.tables items) =>
      if ks.isEmpty then none
      else (inLast (addDotted key v ks) items).map fun items => es.put k (.tables items)
    | some _ => none

/-- Change the table that `path` leads to, making the tables in front of it where they are missing.
Of tables in double brackets, the last one is meant. -/
def within (change : Entries → Option Entries) : List String → Entries → Option Entries
  | [], es => change es
  | k :: ks, es =>
    match es.lookup k with
    | none => (within change ks []).map fun inner => es ++ [(k, .table .implied inner)]
    | some (.table .inline _) => none
    | some (.table o inner) =>
      (within change ks inner).map fun inner => es.put k (.table o inner)
    | some (.tables items) =>
      (inLast (within change ks) items).map fun items => es.put k (.tables items)
    | some _ => none

/-- A header in brackets opens a table; an implied table of that name becomes it. -/
def openTable (name : String) (es : Entries) : Option Entries :=
  match es.lookup name with
  | none => some (es ++ [(name, .table .header [])])
  | some (.table .implied inner) => some (es.put name (.table .header inner))
  | some _ => none

def openElement (name : String) (es : Entries) : Option Entries :=
  match es.lookup name with
  | none => some (es ++ [(name, .tables [[]])])
  | some (.tables items) => some (es.put name (.tables (items ++ [[]])))
  | some _ => none

end Entries

end Cascade.Toml
