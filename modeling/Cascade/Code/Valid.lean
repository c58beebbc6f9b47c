import Cascade.Code.Text

/-!
# Cascade.Code.Valid

The checks that code has to pass before it runs.

* `Function.problem?` gives the first thing wrong with a function by itself.
* `Module.problems` collects, for the whole module, what is wrong with each function and each
  reference from one function to another or to a field.
-/

namespace Cascade.Code

inductive FunctionProblem where
  | noBlocks
  | missingEntry (entry : BlockId)
  | openBlock (block : BlockId)
  | missingSuccessor (block target : BlockId)
  | valueFromVoid (block : BlockId) (value : Register)
  | nothingReturned (block : BlockId) (returns : Ty)
  | wrongReturn (block : BlockId) (value : Register) (returns : Ty)
  | registerRange (block : BlockId) (register : Register) (count : Nat)
  | unknownLocal (block : BlockId) (index : LocalIndex)
  | switchType (block : BlockId) (value : Register)
  | repeatedLabel (block : BlockId) (label : Int)
  deriving DecidableEq, Repr

def FunctionProblem.message : FunctionProblem → String
  | .noBlocks => "Function has no blocks"
  | .missingEntry b => "Entry block " ++ blockName b ++ " does not exist"
  | .openBlock b => "Block " ++ blockName b ++ " is not terminated"
  | .missingSuccessor b t =>
    "Block " ++ blockName b ++ " references non-existent successor " ++ blockName t
  | .valueFromVoid b r =>
    "Block " ++ blockName b ++ " returns " ++ r.text ++ " from a void function"
  | .nothingReturned b t =>
    "Block " ++ blockName b ++ " returns no value from a function returning " ++ t.text
  | .wrongReturn b r t =>
    "Block " ++ blockName b ++ " returns " ++ r.text ++ " but the function returns " ++ t.text
  | .registerRange b r n =>
    "Block " ++ blockName b ++ " uses " ++ r.text ++ " beyond register count " ++ toString n
  | .unknownLocal b i => "Block " ++ blockName b ++ " uses undeclared local " ++ toString i
  | .switchType b r => "Block " ++ blockName b ++ " switches on non-integral " ++ r.text
  | .repeatedLabel b n =>
    "Block " ++ blockName b ++ " has duplicate switch label " ++ toString n

inductive Problem where
  | missingInitializer (module : String) (id : FunctionId)
  | missingEntry (module : String) (id : FunctionId)
  | inFunction (function : String) (problem : FunctionProblem)
  | unknownField (function : String) (block : BlockId) (field : FieldId)
  | unknownCallee (function : String) (block : BlockId) (callee : FunctionId)
  | wrongResult (function : String) (block : BlockId) (callee : String) (returns : Ty)
      (dest : Register)
  deriving DecidableEq, Repr

def inBlock (function : String) (block : BlockId) : String :=
  "Function " ++ function ++ " block " ++ blockName block ++ ": "

def Problem.message : Problem → String
  | .missingInitializer m f =>
    "Module " ++ m ++ " initializer " ++ functionName f ++ " does not exist"
  | .missingEntry m f => "Module " ++ m ++ " entry point " ++ functionName f ++ " does not exist"
  | .inFunction f p => "Function " ++ f ++ ": " ++ p.message
  | .unknownField f b i => inBlock f b ++ "unknown field " ++ toString i
  | .unknownCallee f b c => inBlock f b ++ "call to unknown function " ++ functionName c
  | .wrongResult f b c t d =>
    inBlock f b ++ "call to " ++ c ++ " stores " ++ t.text ++ " into " ++ d.text

namespace Function

def registerProblem? (f : Function) (b : BlockId) (r : Register) : Option FunctionProblem :=
  if r.id < f.registers then none else some (.registerRange b r f.registers)

def localProblem? (f : Function) (b : BlockId) (i : LocalIndex) : Option FunctionProblem :=
  if i < f.locals.length then none else some (.unknownLocal b i)

/-- An instruction is checked for the register that it writes and the local variable that it
touches. -/
def instrProblem? (f : Function) (b : BlockId) (i : Instr) : Option FunctionProblem :=
  (i.dest?.bind (f.registerProblem? b)).or
    (match i with
      | .loadLocal _ n => f.localProblem? b n
      | .storeLocal n _ => f.localProblem? b n
      | _ => none)

def repeated? : List Int → List Int → Option Int
  | _, [] => none
  | seen, n :: ns => if seen.contains n then some n else repeated? (n :: seen) ns

def returnProblem? (f : Function) (b : BlockId) : Option Register → Option FunctionProblem
  | none => if f.returns.isVoid then none else some (.nothingReturned b f.returns)
  | some r =>
    if f.returns.isVoid then some (.valueFromVoid b r)
    else if r.ty ≠ f.returns then some (.wrongReturn b r f.returns)
    else f.registerProblem? b r

def termProblem? (f : Function) (b : BlockId) : Terminator → Option FunctionProblem
  | .ret value => f.returnProblem? b value
  | .branch cond _ _ => f.registerProblem? b cond
  | .switch value cases _ =>
    (f.registerProblem? b value).or
      (if value.ty.isIntegral then
        (repeated? [] (cases.map Prod.fst)).map (.repeatedLabel b)
      else some (.switchType b value))
  | .jump _ => none
  | .unreachable => none

/-- The first problem of a block: an open end, then a missing successor, then its instructions in
order, then its terminator. -/
def blockProblem? (f : Function) (b : Block) : Option FunctionProblem :=
  if !b.isClosed then some (.openBlock b.id)
  else
    (b.term.targets.findSome? fun t =>
        if (f.block? t).isNone then some (.missingSuccessor b.id t) else none).or
      ((b.code.findSome? (f.instrProblem? b.id)).or (f.termProblem? b.id b.term))

def problem? (f : Function) : Option FunctionProblem :=
  if f.blocks.isEmpty then some .noBlocks
  else if (f.block? f.entry).isNone then some (.missingEntry f.entry)
  else f.blocks.findSome? f.blockProblem?

end Function

namespace Module

/-- What an instruction refers to outside of its function has to be there. -/
def referenceProblem? (m : Module) (f : String) (b : BlockId) : Instr → Option Problem
  | .loadField _ i => if i < m.fields.length then none else some (.unknownField f b i)
  | .storeField i _ => if i < m.fields.length then none else some (.unknownField f b i)
  | .call dest callee =>
    match m.functions[callee]? with
    | none => some (.unknownCallee f b callee)
    | some g =>
      match dest with
      | none => none
      | some d => if d.ty = g.returns then none else some (.wrongResult f b g.name g.returns d)
  | _ => none

def functionProblems (m : Module) (f : Function) : List Problem :=
  (f.problem?.map (.inFunction f.name)).toList ++
    f.blocks.flatMap fun b => b.code.filterMap (m.referenceProblem? f.name b.id)

/-- All problems of a module; there are none exactly if it may run. -/
def problems (m : Module) : List Problem :=
  (if m.initializer < m.functions.length then []
    else [.missingInitializer m.name m.initializer]) ++
  (if m.entry < m.functions.length then [] else [.missingEntry m.name m.entry]) ++
  m.functions.flatMap m.functionProblems

def isValid (m : Module) : Bool := m.problems.isEmpty

end Module

end Cascade.Code
