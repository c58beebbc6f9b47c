import Cascade.Typing.Program
import Cascade.Code.Valid
import Cascade.Codegen.Program

/-!
# Cascade.Compile

From a program to code that may run: typing, code generation, and the checks on the code. Only
typing has anything to say about the program; the two other ways to fail are for trees that typing
lets through by mistake.
-/

namespace Cascade

/-- Why no code is made from a program. -/
inductive CompileFailure where
  | semantic (e : Rejection)
  | internal (e : Codegen.Error)
  | verification (problems : List Code.Problem)

def CompileFailure.message : CompileFailure → String
  | .semantic e => e.message
  | .internal e => "Internal compiler error: " ++ e.message
  | .verification ps =>
    "IR verification failed: " ++ String.intercalate "; " (ps.map Code.Problem.message)

/-- Code with the typed tree it was made from, and the warnings of typing. -/
structure Compiled where
  typed : Typed.Program
  code : Code.Module
  warnings : List Warning

def compile (settings : Settings) (p : Syntax.Program) :
    Except (Failure CompileFailure) Compiled :=
  match Typing.typeProgram settings p with
  | .error e => .error (e.map .semantic)
  | .ok a =>
    match Codegen.lowerProgram a.program with
    | .error e => .error (e.map .internal)
    | .ok code =>
      if code.isValid then .ok ⟨a.program, code, a.warnings⟩
      else .error (.rejected (.verification code.problems))

end Cascade
