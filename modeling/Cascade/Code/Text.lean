import Cascade.Code.Module

/-!
# Cascade.Code.Text

Code as text: one line for each instruction and terminator.

* A constant is followed by `s` if it is `short` and by `L` if it is `long`, so that the line tells
  its type.
-/

namespace Cascade.Code

def blockName (b : BlockId) : String := "bb" ++ toString b

def functionName (f : FunctionId) : String := "fn" ++ toString f

def Register.text (r : Register) : String := "r" ++ toString r.id ++ ":" ++ r.ty.text

def constantMark : Ty → String
  | .short => "s"
  | .long => "L"
  | .int | .double | .void => ""

def constantText (v : Scalar) : String := v.text ++ constantMark v.ty

def Instr.text : Instr → String
  | .const d v => d.text ++ " = " ++ constantText v
  | .copy d r => d.text ++ " = " ++ r.text
  | .binary d op l r => d.text ++ " = " ++ l.text ++ " " ++ op.symbol ++ " " ++ r.text
  | .unary d op r => d.text ++ " = " ++ op.symbol ++ r.text
  | .convert d r => d.text ++ " = convert " ++ r.text
  | .loadLocal d i => d.text ++ " = load_local l" ++ toString i
  | .storeLocal i r => "store_local l" ++ toString i ++ ", " ++ r.text
  | .loadField d f => d.text ++ " = load_field f" ++ toString f
  | .storeField f r => "store_field f" ++ toString f ++ ", " ++ r.text
  | .call (some d) f => d.text ++ " = call " ++ functionName f ++ "()"
  | .call none f => "call " ++ functionName f ++ "()"
  | .print (some r) => "println " ++ r.text
  | .print none => "println"

def caseText (c : Int × BlockId) : String :=
  " " ++ toString c.1 ++ " -> " ++ blockName c.2 ++ ","

def Terminator.text : Terminator → String
  | .jump b => "goto " ++ blockName b
  | .branch c y n => "if " ++ c.text ++ " then " ++ blockName y ++ " else " ++ blockName n
  | .ret (some r) => "return " ++ r.text
  | .ret none => "return"
  | .switch r cases d =>
    "switch " ++ r.text ++ " \x7b" ++ String.join (cases.map caseText) ++ " default -> " ++
      blockName d ++ " \x7d"
  | .unreachable => "unreachable"

def Block.text (b : Block) : String :=
  "  " ++ blockName b.id ++ ":" ++
    (match b.label with
      | some l => " ; " ++ l
      | none => "") ++ "\n" ++
    String.join (b.code.map fun i => "    " ++ i.text ++ "\n") ++
    "    " ++ b.term.text ++ "\n"

def localText (l : Local) (i : Nat) : String :=
  match l.name with
  | some n => "l" ++ toString i ++ " " ++ n ++ ": " ++ l.ty.text
  | none => "l" ++ toString i ++ ": " ++ l.ty.text

def Function.text (f : Function) : String :=
  "fn " ++ functionName f.id ++ " " ++ f.name ++ "() -> " ++ f.returns.text ++ " \x7b\n" ++
    (if f.locals.isEmpty then ""
      else "  ; locals: " ++
        String.intercalate ", " (f.locals.zipIdx.map fun p => localText p.1 p.2) ++ "\n") ++
    String.join (f.blocks.map Block.text) ++ "\x7d\n"

def fieldText (f : Field) (i : Nat) : String :=
  "; field " ++ toString i ++ " " ++ f.name ++ ": " ++ f.ty.text ++ "\n"

def Module.text (m : Module) : String :=
  "; module " ++ m.name ++ "\n; entry " ++ functionName m.entry ++ ", initializer " ++
    functionName m.initializer ++ "\n" ++
    String.join (m.fields.zipIdx.map fun p => fieldText p.1 p.2) ++ "\n" ++
    String.join (m.functions.map fun f => f.text ++ "\n")

end Cascade.Code
