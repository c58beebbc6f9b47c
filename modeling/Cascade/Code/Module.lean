import Cascade.Code.Function

/-!
# Cascade.Code.Module

A compiled program: storage for fields, and functions that are numbered by their places. One of
them gives the fields their first values and another is where a run starts.
-/

namespace Cascade.Code

structure Field where
  name : String
  ty : Ty
  deriving DecidableEq, Repr, Inhabited

structure Module where
  name : String
  fields : List Field
  functions : List Function
  initializer : FunctionId
  entry : FunctionId
  deriving DecidableEq, Inhabited

namespace Module

/-- The number of the last function with a name. -/
def find? (m : Module) (name : String) : Option FunctionId :=
  (m.functions.zipIdx.reverse.find? fun p => p.1.name == name).map Prod.snd

def modify (m : Module) (f : FunctionId) (change : Function → Function) : Module :=
  ⟨m.name, m.fields, m.functions.modify f change, m.initializer, m.entry⟩

end Module

end Cascade.Code
