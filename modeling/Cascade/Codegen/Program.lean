import Cascade.Codegen.Stmt

/-!
# Cascade.Codegen.Program

Code for a whole program: one function for each method, with the number of the method, and behind
them one that gives the fields their first values in the order of the fields.
-/

namespace Cascade.Codegen

open Code Lower

def initializerName : String := "<init>"

/-- The finished function. A `void` function may run off its end; blocks that nothing leads to are
dropped. -/
def Lower.finish (id : FunctionId) (name : String) (returns : Ty) (span : Span) :
    Lower Function := do
  if !(← isClosed) && returns.isVoid then
    close (.ret none)
  let b ← get
  let f : Function := ⟨id, name, returns, b.locals, b.registers, [], 0, [], span⟩
  return (b.blocks.foldl Function.addBlock f).prune

def namedLocal (l : Cascade.Local) : Code.Local := ⟨some l.name, l.ty⟩

/-- The result of a step of code generation on a function with some local variables. -/
def Lower.result {α : Type} (act : Lower α) (locals : List Code.Local) :
    Except (Failure Error) α :=
  (act (.start locals)).map Prod.fst

def lowerMethod (p : Typed.Program) (m : Typed.Method) : Except (Failure Error) Function :=
  Lower.result (do
    lowerList p [] m.body
    finish m.id m.name m.returns m.span) (m.locals.map namedLocal)

def lowerMethods (p : Typed.Program) :
    List Typed.Method → Except (Failure Error) (List Function)
  | [] => .ok []
  | m :: ms =>
    match lowerMethod p m with
    | .error e => .error e
    | .ok f =>
      match lowerMethods p ms with
      | .error e => .error e
      | .ok fs => .ok (f :: fs)

def lowerInits (p : Typed.Program) : List Typed.Field → Lower Unit
  | [] => return
  | f :: fs => do
    if let some e := f.init then
      let r ← lowerValue p e
      emit (.storeField f.id r)
    lowerInits p fs

def lowerInitializer (p : Typed.Program) (id : FunctionId) : Except (Failure Error) Function :=
  Lower.result (do
    lowerInits p p.fields
    finish id initializerName .void .zero) []

def fieldOf (f : Typed.Field) : Code.Field := ⟨f.name, f.ty⟩

/-- Functions are numbered by their places; what they hold as their numbers is not looked at. -/
def lowerProgram (p : Typed.Program) : Except (Failure Error) Module :=
  match lowerMethods p p.methods with
  | .error e => .error e
  | .ok fs =>
    match lowerInitializer p p.methods.length with
    | .error e => .error e
    | .ok init => .ok ⟨p.name, p.fields.map fieldOf, fs ++ [init], fs.length, p.entry⟩

end Cascade.Codegen
