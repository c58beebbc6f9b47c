import Cascade.Codegen.Builder
import Cascade.Typed.Tree

/-!
# Cascade.Codegen.Expr

Code for expressions. Each operation puts its result into a register of its own.

* A logical operator branches: its right operand has a block of its own, and the truth value that
  both ways arrive at meets in a local variable without a name.
-/

namespace Cascade.Codegen

open Code

namespace Lower

def load (place : Typed.Place) (ty : Ty) : Lower Register := do
  let r ← newRegister ty
  match place with
  | .slot n => emit (.loadLocal r n)
  | .field f => emit (.loadField r f)
  return r

def store (place : Typed.Place) (value : Register) : Lower Unit :=
  match place with
  | .slot n => emit (.storeLocal n value)
  | .field f => emit (.storeField f value)

def needValue (span : Span) (act : Lower (Option Register)) : Lower Register := do
  match ← act with
  | some r => return r
  | none => fail (.voidValue span)

/-- Convert a register to a type that it may have already. -/
def convert (value : Register) (ty : Ty) : Lower Register :=
  if value.ty = ty then return value
  else do
    let r ← newRegister ty
    emit (.convert r value)
    return r

/-- Add to a place and give its old or its new value. -/
def step (place : Typed.Place) (delta : Int) (before : Bool) (ty : Ty) (span : Span) :
    Lower Register := do
  let old ← load place ty
  match Scalar.ofInt? ty delta with
  | none => fail (.stepType ty span)
  | some d =>
    let amount ← constant d
    let new ← newRegister ty
    emit (.binary new .add old amount)
    store place new
    return if before then new else old

/-- Branch on the left operand and write down the truth value where it decides; go on with the
right operand. The block where both ways meet is given. -/
def openLogical (op : LogicalOp) (result : LocalIndex) (left : Register) : Lower BlockId := do
  let right ← newBlock "logical.rhs"
  let decided ← newBlock "logical.short"
  let merge ← newBlock "logical.merge"
  match op with
  | .and => close (.branch left right decided)
  | .or => close (.branch left decided right)
  goto decided
  let value ← constant (Scalar.ofBool (op == .or))
  emit (.storeLocal result value)
  close (.jump merge)
  goto right
  return merge

/-- Write down whether the right operand differs from zero, and read the truth value where both
ways meet. -/
def closeLogical (merge : BlockId) (result : LocalIndex) (right : Register) (span : Span) :
    Lower Register := do
  let z ← zero right.ty span
  let truth ← newRegister .truth
  emit (.binary truth .ne right z)
  emit (.storeLocal result truth)
  close (.jump merge)
  goto merge
  let r ← newRegister .truth
  emit (.loadLocal r result)
  return r

def call (p : Typed.Program) (m : MethodId) : Lower (Option Register) :=
  match p.methods[m]? with
  | none => stray (.member .method m)
  | some callee =>
    if callee.returns.isVoid then do
      emit (.call none m)
      return none
    else do
      let r ← newRegister callee.returns
      emit (.call (some r) m)
      return some r

end Lower

open Lower

/-- Code for an expression; the register of its value is given, unless it is `void`. -/
def lowerExpr (p : Typed.Program) : Typed.Expr → Lower (Option Register)
  | .const v _ _ => some <$> constant v
  | .load place ty _ => some <$> load place ty
  | .convert e ty _ => do
    let r ← needValue e.span (lowerExpr p e)
    some <$> convert r ty
  | .unary op e ty _ => do
    let r ← needValue e.span (lowerExpr p e)
    let d ← newRegister ty
    emit (.unary d op r)
    return some d
  | .binary op left right ty _ => do
    let l ← needValue left.span (lowerExpr p left)
    let r ← needValue right.span (lowerExpr p right)
    let d ← newRegister ty
    emit (.binary d op l r)
    return some d
  | .logical op left right _ _ => do
    let result ← newLocal .truth
    let l ← needValue left.span (lowerExpr p left)
    let merge ← openLogical op result l
    let r ← needValue right.span (lowerExpr p right)
    some <$> closeLogical merge result r right.span
  | .update place delta before ty span => some <$> step place delta before ty span
  | .assign place e _ _ => do
    let r ← needValue e.span (lowerExpr p e)
    store place r
    return some r
  | .call m _ _ => call p m
  | .print e _ _ => do
    let r ← needValue e.span (lowerExpr p e)
    emit (.print (some r))
    return none
  | .printBlank _ _ => do
    emit (.print none)
    return none

def lowerValue (p : Typed.Program) (e : Typed.Expr) : Lower Register :=
  needValue e.span (lowerExpr p e)

end Cascade.Codegen
