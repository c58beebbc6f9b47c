import Cascade.Code.Instr

/-!
# Cascade.Code.Function

Functions as graphs of blocks. A block is found through an index, which holds the place of each
number. Adding a block enters it there, so that of two blocks of one number the later one counts.

* `Function.reachable` holds the numbers that control can get to from the entry, whether or not a
  block has that number.
* `Function.prune` keeps exactly the blocks with such numbers, and makes the index anew.
-/

namespace Cascade.Code

/-- Instructions that run one after another, and what happens then. The label tells a reader what
the block was made for. -/
structure Block where
  id : BlockId
  label : Option String
  code : List Instr
  term : Terminator
  deriving DecidableEq, Inhabited

namespace Block

def empty (id : BlockId) (label : Option String) : Block := ⟨id, label, [], .unreachable⟩

def emit (b : Block) (i : Instr) : Block := ⟨b.id, b.label, b.code ++ [i], b.term⟩

/-- Set the terminator, in place of an earlier one. -/
def close (b : Block) (t : Terminator) : Block := ⟨b.id, b.label, b.code, t⟩

def isClosed (b : Block) : Bool := b.term.isClosed

end Block

/-- Storage of a local variable. What code keeps for itself has no name. -/
structure Local where
  name : Option String
  ty : Ty
  deriving DecidableEq, Repr, Inhabited

/-- A function: its local variables, how many registers it uses, and its blocks in the order in
which they are written out. -/
structure Function where
  id : FunctionId
  name : String
  returns : Ty
  locals : List Local
  registers : Nat
  blocks : List Block
  entry : BlockId
  /-- The places of blocks by their numbers. Of two entries for a number the first one counts. -/
  index : List (BlockId × Nat)
  span : Span
  deriving DecidableEq, Inhabited

/-- An index for some blocks, in which later ones come first. -/
def indexOf (blocks : List Block) : List (BlockId × Nat) :=
  (blocks.zipIdx.map fun p => (p.1.id, p.2)).reverse

namespace Function

def addBlock (f : Function) (b : Block) : Function :=
  ⟨f.id, f.name, f.returns, f.locals, f.registers, f.blocks ++ [b], f.entry,
    (b.id, f.blocks.length) :: f.index, f.span⟩

/-- The block that the index has for a number. -/
def block? (f : Function) (id : BlockId) : Option Block :=
  match f.index.lookup id with
  | some i => f.blocks[i]?
  | none => none

def instrCount (f : Function) : Nat := f.blocks.foldr (fun b n => b.code.length + n) 0

/-- Where control may go on from a number; nowhere, if no block has it. -/
def successors (f : Function) (id : BlockId) : List BlockId :=
  match f.block? id with
  | some b => b.term.targets
  | none => []

/-- Visit the numbers on a list of work, and whatever they lead to, except those seen before. Each
step of fuel takes one number from the list. -/
def visit (f : Function) : Nat → List BlockId → List BlockId → List BlockId
  | 0, _, seen => seen
  | _ + 1, [], seen => seen
  | n + 1, id :: work, seen =>
    if seen.contains id then f.visit n work seen
    else f.visit n (f.successors id ++ work) (id :: seen)

/-- How often the work list can be taken from: once for the entry and once for each edge. -/
def edgeCount (f : Function) : Nat :=
  1 + f.index.foldr (fun e n => (f.successors e.1).length + n) 0

/-- The numbers that control can get to from the entry. -/
def reachable (f : Function) : List BlockId := f.visit f.edgeCount [f.entry] []

/-- Drop the blocks that control cannot get to. -/
def prune (f : Function) : Function :=
  let seen := f.reachable
  let kept := f.blocks.filter fun b => seen.contains b.id
  ⟨f.id, f.name, f.returns, f.locals, f.registers, kept, f.entry, indexOf kept, f.span⟩

def prunedCount (f : Function) : Nat := f.blocks.length - f.prune.blocks.length

end Function

end Cascade.Code
