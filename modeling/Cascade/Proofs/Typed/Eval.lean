import Cascade.Typed.Tree

/-!
# Cascade.Proofs.Typed.Eval

What a typed program means, told by evaluating its trees directly: no code, no blocks, no
registers.

* Operands are evaluated from the left; a logical operator leaves its right operand alone where the
  left one decides.
* Every call has local variables of its own, all zero; fields and printed lines are shared.
* `Evaluates`: the answer of a program. Calls may nest to any depth, so evaluation takes a bound on
  the depth, and the answer is the one that all large bounds agree on.
-/

namespace Cascade.Typed

inductive Stop where
  | divisionByZero
  /-- More calls are active than the bound allows. -/
  | tooDeep
  /-- The tree makes no sense here. Well-typed trees never get to this. -/
  | stuck
  deriving DecidableEq, Repr

/-- What all calls share: the values of the fields, and the lines printed so far. -/
structure World where
  fields : List Scalar
  output : Array String
  deriving DecidableEq

/-- What a call can see: its local variables and the world. -/
structure Memory where
  locals : List Scalar
  world : World
  deriving DecidableEq

/-- An evaluation ends with a result, or it stops in some world. -/
inductive Answer (α : Type) where
  | done (a : α)
  | stop (why : Stop) (world : World)
  deriving DecidableEq

namespace Answer

variable {α β : Type}

def andThen (x : Answer α) (f : α → Answer β) : Answer β :=
  match x with
  | .done a => f a
  | .stop why w => .stop why w

def value : Answer (Option Scalar × Memory) → Answer (Scalar × Memory)
  | .done (some v, μ) => .done (v, μ)
  | .done (none, μ) => .stop .stuck μ.world
  | .stop why w => .stop why w

end Answer

def World.print (w : World) (line : String) : World := ⟨w.fields, w.output.push line⟩

namespace Memory

def read (μ : Memory) : Place → Option Scalar
  | .slot n => μ.locals[n]?
  | .field f => μ.world.fields[f]?

def write (μ : Memory) (place : Place) (v : Scalar) : Memory :=
  match place with
  | .slot n => ⟨μ.locals.set n v, μ.world⟩
  | .field f => ⟨μ.locals, ⟨μ.world.fields.set f v, μ.world.output⟩⟩

def print (μ : Memory) (line : String) : Memory := ⟨μ.locals, μ.world.print line⟩

end Memory

/-- What calls of methods lead to: a result, if there is one, and the world behind the call. -/
abbrev Calls := MethodId → World → Answer (Option Scalar × World)

/-- The value of an expression, unless it is `void`, and the memory behind it. -/
def evalExpr (calls : Calls) : Expr → Memory → Answer (Option Scalar × Memory)
  | .const v _ _, μ => .done (some v, μ)
  | .load place _ _, μ =>
    match μ.read place with
    | none => .stop .stuck μ.world
    | some v => .done (some v, μ)
  | .convert e ty _, μ =>
    (evalExpr calls e μ).value.andThen fun (v, μ) =>
      match v.convert ty with
      | none => .stop .stuck μ.world
      | some w => .done (some w, μ)
  | .unary op e _ _, μ =>
    (evalExpr calls e μ).value.andThen fun (v, μ) => .done (some (Scalar.unary op v), μ)
  | .binary op left right _ _, μ =>
    (evalExpr calls left μ).value.andThen fun (a, μ) =>
      (evalExpr calls right μ).value.andThen fun (b, μ) =>
        match Scalar.binary op a b with
        | .error .divisionByZero => .stop .divisionByZero μ.world
        | .error (.operandMismatch ..) => .stop .stuck μ.world
        | .ok v => .done (some v, μ)
  | .logical op left right _ _, μ =>
    (evalExpr calls left μ).value.andThen fun (a, μ) =>
      if a.isTrue = (op == .or) then .done (some (.ofBool a.isTrue), μ)
      else
        (evalExpr calls right μ).value.andThen fun (b, μ) => .done (some (.ofBool b.isTrue), μ)
  | .update place delta before _ _, μ =>
    match μ.read place with
    | none => .stop .stuck μ.world
    | some v => .done (some (if before then v.step delta else v), μ.write place (v.step delta))
  | .assign place e _ _, μ =>
    (evalExpr calls e μ).value.andThen fun (v, μ) => .done (some v, μ.write place v)
  | .call m _ _, μ => (calls m μ.world).andThen fun (v, w) => .done (v, ⟨μ.locals, w⟩)
  | .print e _ _, μ =>
    (evalExpr calls e μ).value.andThen fun (v, μ) => .done (none, μ.print v.text)
  | .printBlank _ _, μ => .done (none, μ.print "")

/-- How a statement ends. -/
inductive Flow where
  | normal
  /-- By a `break` of the switch around it. -/
  | leave
  | ret (value : Option Scalar)
  deriving DecidableEq

/-- Behind a switch, a `break` of it has had its effect. -/
def Flow.behindSwitch : Flow → Flow
  | .leave => .normal
  | flow => flow

/-- The place of the case that a switch enters: the one with an equal label, or else the default,
if there is one. -/
def chosen? (n : Int) (cases : List Case) : Option Nat :=
  match cases.findIdx? fun c => c.label == some n with
  | some i => some i
  | none => cases.findIdx? Case.isDefault

/-- What a switch leads to on a value, where `cases` runs them from a place on. -/
def evalSwitch (cases : List Case) (run : Nat → Memory → Answer (Flow × Memory)) (v : Scalar)
    (μ : Memory) : Answer (Flow × Memory) :=
  match v.toInt? with
  | none => .stop .stuck μ.world
  | some n =>
    match chosen? n cases with
    | none => .done (.normal, μ)
    | some i => (run i μ).andThen fun (flow, μ) => .done (flow.behindSwitch, μ)

section

variable (calls : Calls) (slots : List Ty)

def evalDeclare (slot : Slot) (init : Option Expr) (μ : Memory) : Answer (Flow × Memory) :=
  match init with
  | some e =>
    (evalExpr calls e μ).value.andThen fun (v, μ) => .done (.normal, μ.write (.slot slot) v)
  | none =>
    match slots[slot]?.bind Scalar.zero? with
    | none => .stop .stuck μ.world
    | some z => .done (.normal, μ.write (.slot slot) z)

def evalReturn (value : Option Expr) (μ : Memory) : Answer (Flow × Memory) :=
  match value with
  | none => .done (.ret none, μ)
  | some e => (evalExpr calls e μ).value.andThen fun (v, μ) => .done (.ret (some v), μ)

mutual

def evalStmt : Stmt → Memory → Answer (Flow × Memory)
  | .block body, μ => evalList body μ
  | .declare slot init, μ => evalDeclare calls slots slot init μ
  | .expr e, μ => (evalExpr calls e μ).andThen fun (_, μ) => .done (.normal, μ)
  | .switch scrutinee _ cases, μ =>
    (evalExpr calls scrutinee μ).value.andThen fun (v, μ) =>
      evalSwitch cases (evalCases cases) v μ
  | .leave, μ => .done (.leave, μ)
  | .ret value, μ => evalReturn calls value μ

def evalList : List Stmt → Memory → Answer (Flow × Memory)
  | [], μ => .done (.normal, μ)
  | s :: ss, μ =>
    (evalStmt s μ).andThen fun (flow, μ) =>
      match flow with
      | .normal => evalList ss μ
      | flow => .done (flow, μ)

/-- The bodies of cases one after another, but for some that are skipped. -/
def evalCases : List Case → Nat → Memory → Answer (Flow × Memory)
  | [], _, μ => .done (.normal, μ)
  | _ :: cs, skip + 1, μ => evalCases cs skip μ
  | .mk _ body :: cs, 0, μ =>
    (evalList body μ).andThen fun (flow, μ) =>
      match flow with
      | .normal => evalCases cs 0 μ
      | flow => .done (flow, μ)

end

end

def zeros? : List Ty → Option (List Scalar)
  | [] => some []
  | t :: ts =>
    match Scalar.zero? t, zeros? ts with
    | some z, some zs => some (z :: zs)
    | _, _ => none

def evalEnd (returns : Ty) (flow : Flow) (w : World) : Answer (Option Scalar × World) :=
  match flow with
  | .normal => if returns.isVoid then .done (none, w) else .stop .stuck w
  | .leave => .stop .stuck w
  | .ret v => .done (v, w)

def evalBody (calls : Calls) (m : Method) (w : World) : Answer (Option Scalar × World) :=
  match zeros? (m.locals.map Local.ty) with
  | none => .stop .stuck w
  | some zs =>
    (evalList calls (m.locals.map Local.ty) m.body ⟨zs, w⟩).andThen fun (flow, μ) =>
      evalEnd m.returns flow μ.world

/-- Calls that nest at most to a depth. -/
def evalCall (p : Program) : Nat → Calls
  | 0, _, w => .stop .tooDeep w
  | depth + 1, id, w =>
    match p.methods[id]? with
    | none => .stop .stuck w
    | some m => evalBody (evalCall p depth) m w

/-- First values of fields numbered from `i` on, in the order of their numbers. -/
def evalInits (calls : Calls) : Nat → List Field → World → Answer World
  | _, [], w => .done w
  | i, f :: fs, w =>
    match f.init with
    | none => evalInits calls (i + 1) fs w
    | some e =>
      (evalExpr calls e ⟨[], w⟩).value.andThen fun (v, μ) =>
        evalInits calls (i + 1) fs (μ.write (.field i) v).world

/-- A program, where calls nest at most to a depth: all fields are zero and get their first values,
and then the entry is called. -/
def evalProgram (p : Program) (depth : Nat) : Answer (Option Scalar × World) :=
  match zeros? (p.fields.map Field.ty) with
  | none => .stop .stuck ⟨[], #[]⟩
  | some zs =>
    (evalInits (evalCall p depth) 0 p.fields ⟨zs, #[]⟩).andThen fun w =>
      evalCall p depth p.entry w

/-- The answer of a program: the one that evaluation gives for every large enough bound. -/
def Evaluates (p : Program) (x : Answer (Option Scalar × World)) : Prop :=
  ∃ depth, ∀ n, depth ≤ n → evalProgram p n = x

/-- A program has one answer. -/
theorem Evaluates.unique {p : Program} {x y : Answer (Option Scalar × World)}
    (hx : Evaluates p x) (hy : Evaluates p y) : x = y := by
  obtain ⟨m, hm⟩ := hx
  obtain ⟨n, hn⟩ := hy
  rw [← hm (max m n) (Nat.le_max_left m n), hn (max m n) (Nat.le_max_right m n)]

end Cascade.Typed
