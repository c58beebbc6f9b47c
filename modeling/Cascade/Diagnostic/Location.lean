/-!
# Cascade.Diagnostic.Location

Lines and columns of byte offsets, and libraries of files in which offsets are located. Both are
counted from one. A line begins at the start of the text and after each line feed, and a column is
counted in characters.

* A character counts as passed once all of its bytes lie before the offset, so an offset inside a
  character has the column of its start, and an offset past the end has that of the end.
-/

namespace Cascade

structure Location where
  line : Nat
  column : Nat
  deriving DecidableEq, Repr, Inhabited

/-- Files that are known by numbers. A number may be that of no file, and an offset may have no
location in a file. -/
structure FileLibrary (φ : Type) where
  file? : Nat → Option φ
  name : φ → String
  location? : φ → Nat → Option Location

namespace Location

def after (l : Location) (c : Char) : Location :=
  if c = '\n' then ⟨l.line + 1, 1⟩ else ⟨l.line, l.column + 1⟩

/-- Go on from byte `position`, which has a known location, to an offset. -/
def advance (offset : Nat) (position : Nat) (l : Location) : List Char → Location
  | [] => l
  | c :: cs =>
    if position + c.utf8Size ≤ offset then advance offset (position + c.utf8Size) (l.after c) cs
    else l

def ofOffset (text : String) (offset : Nat) : Location := advance offset 0 ⟨1, 1⟩ text.toList

end Location

structure SourceFile where
  name : String
  text : String
  deriving DecidableEq, Repr, Inhabited

def SourceFile.library (files : List SourceFile) : FileLibrary SourceFile where
  file? i := files[i]?
  name := SourceFile.name
  location? f offset := some (.ofOffset f.text offset)

end Cascade
