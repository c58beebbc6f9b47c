import Cascade.Codegen.Program
import Cascade.Proofs.Code.Index

/-!
# Cascade.Proofs.Codegen.Functional

Code generation as functions of the builder that they start with. An operation on a block that there
is not changes nothing here, and the case of a switch that there is not is taken to be the place
behind it. So no look-up can fail, and a proof about code does not have to look at any of them; that
the two ways of code generation are one is shown in `Cascade.Proofs.Codegen.Lowering`.

* `genExpr`, `genStmt`, `genList`, `genCases`: code for expressions and for statements.
* `genMethod`, `genInitializer`, `genProgram`: functions and modules.
-/

namespace Cascade.Codegen

open Code

namespace Builder

def emit (b : Builder) (i : Instr) : Builder :=
  ⟨b.locals, b.blocks.modify b.current (·.emit i), b.current, b.registers⟩

def close (b : Builder) (t : Terminator) : Builder :=
  ⟨b.locals, b.blocks.modify b.current (·.close t), b.current, b.registers⟩

def constant (b : Builder) (v : Scalar) : Register × Builder :=
  let r := b.newRegister v.ty
  (r.1, r.2.emit (.const r.1 v))

@[simp] theorem emit_length (b : Builder) (i : Instr) :
    (b.emit i).blocks.length = b.blocks.length := by simp [emit]

@[simp] theorem close_length (b : Builder) (t : Terminator) :
    (b.close t).blocks.length = b.blocks.length := by simp [close]

@[simp] theorem newBlock_id (b : Builder) (label : String) :
    (b.newBlock label).1 = b.blocks.length := rfl

@[simp] theorem goto_length (b : Builder) (k : BlockId) :
    (b.goto k).blocks.length = b.blocks.length := rfl

@[simp] theorem newBlock_length (b : Builder) (label : String) :
    (b.newBlock label).2.blocks.length = b.blocks.length + 1 := by simp [newBlock]

@[simp] theorem constant_length (b : Builder) (v : Scalar) :
    (b.constant v).2.blocks.length = b.blocks.length :=
  emit_length _ _

end Builder

/-! ## Expressions -/

def load (b : Builder) (place : Typed.Place) (ty : Ty) : Register × Builder :=
  let r := b.newRegister ty
  match place with
  | .slot n => (r.1, r.2.emit (.loadLocal r.1 n))
  | .field f => (r.1, r.2.emit (.loadField r.1 f))

def store (b : Builder) (place : Typed.Place) (value : Register) : Builder :=
  match place with
  | .slot n => b.emit (.storeLocal n value)
  | .field f => b.emit (.storeField f value)

def zero (b : Builder) (ty : Ty) (span : Span) : Except (Failure Error) (Register × Builder) :=
  match Scalar.zero? ty with
  | some v => .ok (b.constant v)
  | none => .error (.rejected (.noZero ty span))

def needValue (span : Span) :
    Except (Failure Error) (Option Register × Builder) → Except (Failure Error) (Register × Builder)
  | .error e => .error e
  | .ok (none, _) => .error (.rejected (.voidValue span))
  | .ok (some r, b) => .ok (r, b)

def convert (b : Builder) (value : Register) (ty : Ty) : Register × Builder :=
  if value.ty = ty then (value, b)
  else
    let r := b.newRegister ty
    (r.1, r.2.emit (.convert r.1 value))

def step (b : Builder) (place : Typed.Place) (delta : Int) (before : Bool) (ty : Ty)
    (span : Span) : Except (Failure Error) (Register × Builder) :=
  let old := load b place ty
  match Scalar.ofInt? ty delta with
  | none => .error (.rejected (.stepType ty span))
  | some d =>
    let amount := old.2.constant d
    let new := amount.2.newRegister ty
    let b := store (new.2.emit (.binary new.1 .add old.1 amount.1)) place new.1
    .ok (if before then new.1 else old.1, b)

/-- The block where both ways of a logical operator meet, and the builder in the block of the right
operand. -/
def openLogical (b : Builder) (op : LogicalOp) (result : LocalIndex) (left : Register) :
    BlockId × Builder :=
  let right := b.newBlock "logical.rhs"
  let decided := right.2.newBlock "logical.short"
  let merge := decided.2.newBlock "logical.merge"
  let b := match op with
    | .and => merge.2.close (.branch left right.1 decided.1)
    | .or => merge.2.close (.branch left decided.1 right.1)
  let value := (b.goto decided.1).constant (Scalar.ofBool (op == .or))
  let b := (value.2.emit (.storeLocal result value.1)).close (.jump merge.1)
  (merge.1, b.goto right.1)

def closeLogical (b : Builder) (merge : BlockId) (result : LocalIndex) (right : Register)
    (span : Span) : Except (Failure Error) (Register × Builder) :=
  match zero b right.ty span with
  | .error e => .error e
  | .ok (z, b) =>
    let truth := b.newRegister .truth
    let b := truth.2.emit (.binary truth.1 .ne right z)
    let b := (b.emit (.storeLocal result truth.1)).close (.jump merge)
    let r := (b.goto merge).newRegister .truth
    .ok (r.1, r.2.emit (.loadLocal r.1 result))

def call (p : Typed.Program) (b : Builder) (m : MethodId) :
    Except (Failure Error) (Option Register × Builder) :=
  match p.methods[m]? with
  | none => .error (.stray (.member .method m))
  | some callee =>
    if callee.returns.isVoid then .ok (none, b.emit (.call none m))
    else
      let r := b.newRegister callee.returns
      .ok (some r.1, r.2.emit (.call (some r.1) m))

def valued (r : Register × Builder) : Option Register × Builder := (some r.1, r.2)

def genExpr (p : Typed.Program) (b : Builder) :
    Typed.Expr → Except (Failure Error) (Option Register × Builder)
  | .const v _ _ => .ok (valued (b.constant v))
  | .load place ty _ => .ok (valued (load b place ty))
  | .convert e ty _ =>
    match needValue e.span (genExpr p b e) with
    | .error err => .error err
    | .ok (r, b) => .ok (valued (convert b r ty))
  | .unary op e ty _ =>
    match needValue e.span (genExpr p b e) with
    | .error err => .error err
    | .ok (r, b) =>
      let d := b.newRegister ty
      .ok (some d.1, d.2.emit (.unary d.1 op r))
  | .binary op left right ty _ =>
    match needValue left.span (genExpr p b left) with
    | .error err => .error err
    | .ok (l, b) =>
      match needValue right.span (genExpr p b right) with
      | .error err => .error err
      | .ok (r, b) =>
        let d := b.newRegister ty
        .ok (some d.1, d.2.emit (.binary d.1 op l r))
  | .logical op left right _ _ =>
    let result := b.newLocal .truth
    match needValue left.span (genExpr p result.2 left) with
    | .error err => .error err
    | .ok (l, b) =>
      let opened := openLogical b op result.1 l
      match needValue right.span (genExpr p opened.2 right) with
      | .error err => .error err
      | .ok (r, b) =>
        match closeLogical b opened.1 result.1 r right.span with
        | .error err => .error err
        | .ok r => .ok (valued r)
  | .update place delta before ty span =>
    match step b place delta before ty span with
    | .error err => .error err
    | .ok r => .ok (valued r)
  | .assign place e _ _ =>
    match needValue e.span (genExpr p b e) with
    | .error err => .error err
    | .ok (r, b) => .ok (some r, store b place r)
  | .call m _ _ => call p b m
  | .print e _ _ =>
    match needValue e.span (genExpr p b e) with
    | .error err => .error err
    | .ok (r, b) => .ok (none, b.emit (.print (some r)))
  | .printBlank _ _ => .ok (none, b.emit (.print none))

def genValue (p : Typed.Program) (b : Builder) (e : Typed.Expr) :
    Except (Failure Error) (Register × Builder) :=
  needValue e.span (genExpr p b e)

/-! ## Statements -/

def reopen (b : Builder) : Builder :=
  if b.isClosed then
    let dead := b.newBlock "dead"
    dead.2.goto dead.1
  else b

def declare (p : Typed.Program) (b : Builder) (slot : Slot) (init : Option Typed.Expr) :
    Except (Failure Error) Builder :=
  match init with
  | some e =>
    match genValue p b e with
    | .error err => .error err
    | .ok (r, b) => .ok (b.emit (.storeLocal slot r))
  | none =>
    match b.locals[slot]? with
    | none => .error (.rejected (.undeclaredSlot slot))
    | some l =>
      match zero b l.ty .zero with
      | .error err => .error err
      | .ok (r, b) => .ok (b.emit (.storeLocal slot r))

def leaveFunction (p : Typed.Program) (b : Builder) (value : Option Typed.Expr) :
    Except (Failure Error) Builder :=
  match value with
  | none => .ok (b.close (.ret none))
  | some e =>
    match genValue p b e with
    | .error err => .error err
    | .ok (r, b) => .ok (b.close (.ret (some r)))

def newCaseBlocks (b : Builder) (i : Nat) : Nat → List BlockId × Builder
  | 0 => ([], b)
  | n + 1 =>
    let c := b.newBlock ("switch.case" ++ toString i)
    let rest := newCaseBlocks c.2 (i + 1) n
    (c.1 :: rest.1, rest.2)

def OpenSwitch.caseBlock (s : OpenSwitch) (i : Nat) : BlockId := s.cases.getD i s.behind

theorem OpenSwitch.fallThrough_eq (s : OpenSwitch) (i : Nat) :
    s.fallThrough i = s.caseBlock (i + 1) := rfl

def defaultBlock (cases : List Typed.Case) (s : OpenSwitch) : BlockId :=
  match cases.findIdx? Typed.Case.isDefault with
  | some i => s.caseBlock i
  | none => s.behind

def openSwitch (b : Builder) (scrutinee : Register) (cases : List Typed.Case) :
    OpenSwitch × Builder :=
  let blocks := newCaseBlocks b 0 cases.length
  let behind := blocks.2.newBlock "switch.exit"
  let s : OpenSwitch := ⟨behind.1, blocks.1⟩
  (s, behind.2.close
    (.switch scrutinee (labelled cases blocks.1) (defaultBlock cases s)))

mutual

def genStmt (p : Typed.Program) (switches : Switches) (b : Builder) :
    Typed.Stmt → Except (Failure Error) Builder
  | .block body => genList p switches (reopen b) body
  | .declare slot init => declare p (reopen b) slot init
  | .expr e =>
    match genExpr p (reopen b) e with
    | .error err => .error err
    | .ok (_, b) => .ok b
  | .switch scrutinee _ cases =>
    match genValue p (reopen b) scrutinee with
    | .error err => .error err
    | .ok (r, b) =>
      let opened := openSwitch b r cases
      match genCases p (switches.push opened.1) opened.1 0 opened.2 cases with
      | .error err => .error err
      | .ok b => .ok (b.goto opened.1.behind)
  | .leave =>
    match switches.exit? with
    | none => .error (.rejected .breakOutsideSwitch)
    | some target => .ok ((reopen b).close (.jump target))
  | .ret value => leaveFunction p (reopen b) value

def genList (p : Typed.Program) (switches : Switches) (b : Builder) :
    List Typed.Stmt → Except (Failure Error) Builder
  | [] => .ok b
  | s :: ss =>
    match genStmt p switches b s with
    | .error err => .error err
    | .ok b => genList p switches b ss

def genCases (p : Typed.Program) (switches : Switches) (s : OpenSwitch) (i : Nat)
    (b : Builder) : List Typed.Case → Except (Failure Error) Builder
  | [] => .ok b
  | .mk _ body :: cs =>
    match genList p switches (b.goto (s.caseBlock i)) body with
    | .error err => .error err
    | .ok b =>
      genCases p switches s (i + 1)
        (if b.isClosed then b else b.close (.jump (s.fallThrough i))) cs

end

/-! ## Programs -/

/-- The function that a builder has made so far. -/
def Builder.function (b : Builder) (id : FunctionId) (name : String) (returns : Ty) (span : Span) :
    Function :=
  .of id name returns b.locals b.registers b.blocks 0 span

theorem Builder.function_coherent {b : Builder} {id : FunctionId} {name : String} {returns : Ty}
    {span : Span} : (b.function id name returns span).Coherent :=
  Function.of_coherent

def finish (b : Builder) (id : FunctionId) (name : String) (returns : Ty) (span : Span) :
    Function :=
  let b := if !b.isClosed && returns.isVoid then b.close (.ret none) else b
  (b.function id name returns span).prune

def genMethod (p : Typed.Program) (m : Typed.Method) : Except (Failure Error) Function :=
  match genList p [] (.start (m.locals.map namedLocal)) m.body with
  | .error e => .error e
  | .ok b => .ok (finish b m.id m.name m.returns m.span)

def genMethods (p : Typed.Program) :
    List Typed.Method → Except (Failure Error) (List Function)
  | [] => .ok []
  | m :: ms =>
    match genMethod p m with
    | .error e => .error e
    | .ok f =>
      match genMethods p ms with
      | .error e => .error e
      | .ok fs => .ok (f :: fs)

def genInits (p : Typed.Program) (b : Builder) :
    List Typed.Field → Except (Failure Error) Builder
  | [] => .ok b
  | f :: fs =>
    match f.init with
    | none => genInits p b fs
    | some e =>
      match genValue p b e with
      | .error err => .error err
      | .ok (r, b) => genInits p (b.emit (.storeField f.id r)) fs

def genInitializer (p : Typed.Program) (id : FunctionId) : Except (Failure Error) Function :=
  match genInits p (.start []) p.fields with
  | .error e => .error e
  | .ok b => .ok (finish b id initializerName .void .zero)

def genProgram (p : Typed.Program) : Except (Failure Error) Module :=
  match genMethods p p.methods with
  | .error e => .error e
  | .ok fs =>
    match genInitializer p p.methods.length with
    | .error e => .error e
    | .ok init => .ok ⟨p.name, p.fields.map fieldOf, fs ++ [init], fs.length, p.entry⟩

end Cascade.Codegen
