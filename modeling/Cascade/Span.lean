/-!
# Cascade.Span

Source locations. A span is a half-open byte range with the line and column of its start; every
node of a tree carries one so that a finding can point at the text it is about.
-/

namespace Cascade

/-- Byte range `start` to `stop`, and where it starts. -/
structure Span where
  start : Nat
  stop : Nat
  line : Nat
  column : Nat
  deriving DecidableEq, Repr, Inhabited

namespace Span

/-- The span of a node that stands for no text. -/
def zero : Span := ⟨0, 0, 0, 0⟩

def length (s : Span) : Nat := s.stop - s.start

def isEmpty (s : Span) : Bool := s.start == s.stop

/-- Smallest range over both; line and column are the smaller ones, each on its own. -/
def merge (s t : Span) : Span where
  start := min s.start t.start
  stop := max s.stop t.stop
  line := min s.line t.line
  column := min s.column t.column

def slice (s : Span) (source : String) : String :=
  String.Pos.Raw.extract source ⟨s.start⟩ ⟨s.stop⟩

def text (s : Span) : String := toString s.line ++ ":" ++ toString s.column

end Span

end Cascade
