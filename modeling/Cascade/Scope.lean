import Cascade.Span
import Cascade.Ty

/-!
# Cascade.Scope

Scopes of local variables. The open scopes of a method form a stack; a closed scope is gone.
Every declaration gets a storage slot of its own, so a variable never shares storage with one that
it hides.

* `Scopes.lookup` goes from the innermost scope outwards.
* `Scopes.declare` fails exactly when the innermost scope binds the name already and may not
  rebind it; it changes nothing then.
-/

namespace Cascade

abbrev Slot := Nat

abbrev ScopeId := Nat

/-- What a scope belongs to: a method body, a block, or all cases of one switch together. -/
inductive ScopeKind where
  | method
  | block
  | switch
  deriving DecidableEq, Repr, Inhabited

/-- What to do when one case of a switch declares a name again that another case declared. -/
inductive Redeclaration where
  | reject
  | rebind
  deriving DecidableEq, Repr, Inhabited

structure Binding where
  name : String
  ty : Ty
  slot : Slot
  scope : ScopeId
  span : Span
  deriving DecidableEq, Repr, Inhabited

structure Local where
  name : String
  ty : Ty
  span : Span
  deriving DecidableEq, Repr, Inhabited

/-- An open scope. No two bindings of it have one name. -/
structure Scope where
  id : ScopeId
  kind : ScopeKind
  bindings : List Binding
  deriving DecidableEq, Repr, Inhabited

namespace Scope

def find? (s : Scope) (name : String) : Option Binding :=
  s.bindings.find? fun b => b.name == name

def names (s : Scope) : List String := (s.bindings.map Binding.name).mergeSort fun a b => a ≤ b

def bind (s : Scope) (b : Binding) : Scope :=
  ⟨s.id, s.kind, b :: s.bindings.filter fun c => c.name != b.name⟩

end Scope

def lookupIn (name : String) : List Scope → Option Binding
  | [] => none
  | s :: ss =>
    match s.find? name with
    | some b => some b
    | none => lookupIn name ss

/-- The open scopes of a method, innermost first, and the storage of its local variables. `made`
counts the scopes opened so far, the method's own included. -/
structure Scopes where
  policy : Redeclaration
  inner : Scope
  outer : List Scope
  made : Nat
  locals : List Local
  deriving DecidableEq, Repr

/-- A successful declaration: its slot, and the span of the outer binding that it hides. -/
structure Declaration where
  slot : Slot
  hides : Option Span
  deriving DecidableEq, Repr

namespace Scopes

/-- Only the scope of the method is open, and it is empty. -/
def start (policy : Redeclaration) : Scopes := ⟨policy, ⟨0, .method, []⟩, [], 1, []⟩

def push (s : Scopes) (kind : ScopeKind) : Scopes :=
  ⟨s.policy, ⟨s.made, kind, []⟩, s.inner :: s.outer, s.made + 1, s.locals⟩

/-- Close the innermost scope. The scope of the method stays open. -/
def pop (s : Scopes) : Scopes :=
  match s.outer with
  | [] => s
  | o :: os => ⟨s.policy, o, os, s.made, s.locals⟩

def lookup (s : Scopes) (name : String) : Option Binding := lookupIn name (s.inner :: s.outer)

def parent? (s : Scopes) : Option ScopeId := s.outer.head?.map Scope.id

def mayRebind (s : Scopes) : Bool := s.inner.kind == .switch && s.policy == .rebind

/-- Declare in the innermost scope, whatever it binds already. -/
def add (s : Scopes) (name : String) (ty : Ty) (span : Span) : Scopes × Declaration :=
  (⟨s.policy, s.inner.bind ⟨name, ty, s.locals.length, s.inner.id, span⟩, s.outer, s.made,
      s.locals ++ [⟨name, ty, span⟩]⟩,
    ⟨s.locals.length, (lookupIn name s.outer).map Binding.span⟩)

/-- Declare a local variable in the innermost scope; on failure, the binding it collides with. -/
def declare (s : Scopes) (name : String) (ty : Ty) (span : Span) :
    Except Binding (Scopes × Declaration) :=
  match s.inner.find? name with
  | none => .ok (s.add name ty span)
  | some earlier => if s.mayRebind then .ok (s.add name ty span) else .error earlier

end Scopes

end Cascade
