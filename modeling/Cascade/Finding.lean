import Cascade.Span
import Cascade.Ty

/-!
# Cascade.Finding

What typing can find in a program: errors, which end it, and warnings, which a configuration may
switch off or turn into errors. Each cause has one constructor; codes and wordings are functions
of it.

* `Rejection.span` is the place of the error, and `Rejection.earlier?` the place of the
  earlier declaration that it collides with, if there is one.
* `WarningSettings` decides for each kind of warning whether it is reported and whether it is fatal.
-/

namespace Cascade

/-- The two kinds of members of a class, which have name spaces of their own. -/
inductive MemberKind where
  | field
  | method
  deriving DecidableEq, Repr

def MemberKind.text : MemberKind → String
  | .field => "field"
  | .method => "method"

inductive WarningKind where
  | unreachableCode
  | shadowedVariable
  deriving DecidableEq, Repr

namespace WarningKind

def code : WarningKind → String
  | .unreachableCode => "W1004"
  | .shadowedVariable => "W1005"

def name : WarningKind → String
  | .unreachableCode => "unreachable-code"
  | .shadowedVariable => "shadowed-variable"

def ofName? (s : String) : Option WarningKind :=
  if s = "unreachable-code" then some .unreachableCode
  else if s = "shadowed-variable" then some .shadowedVariable
  else none

end WarningKind

inductive Warning where
  | unreachableCode (span : Span)
  /-- A local variable that hides one of an enclosing scope. -/
  | shadowedVariable (name : String) (earlier shadow : Span)
  deriving DecidableEq, Repr

namespace Warning

def kind : Warning → WarningKind
  | .unreachableCode _ => .unreachableCode
  | .shadowedVariable _ _ _ => .shadowedVariable

def span : Warning → Span
  | .unreachableCode s => s
  | .shadowedVariable _ _ s => s

def message : Warning → String
  | .unreachableCode _ => "Unreachable code"
  | .shadowedVariable n _ _ => "Variable '" ++ n ++ "' shadows an outer declaration"

end Warning

/-- Which warnings are reported, and which of those are fatal. -/
structure WarningSettings where
  disabled : List WarningKind
  fatal : List WarningKind
  /-- Every reported warning is fatal. -/
  strict : Bool
  deriving DecidableEq, Repr

namespace WarningSettings

/-- Every warning is reported and none is fatal. -/
def default : WarningSettings := ⟨[], [], false⟩

def isReported (w : WarningSettings) (k : WarningKind) : Bool := !w.disabled.contains k

def isFatal (w : WarningSettings) (k : WarningKind) : Bool := w.strict || w.fatal.contains k

end WarningSettings

inductive Rejection where
  | duplicateDeclaration (name : String) (earlier span : Span)
  | duplicateClass (name : String) (earlier span : Span)
  | duplicateMember (owner name : String) (earlier span : Span)
  | unresolvedAccess (path reason : String) (span : Span)
  | memberNotFound (owner name : String) (kind : MemberKind) (span : Span)
  | methodNotFound (owner name : String) (span : Span)
  | typeMismatch (expected actual : String) (span : Span)
  | invalidTarget (span : Span)
  | undefinedVariable (name : String) (span : Span)
  | argumentCount (name expected : String) (actual : Nat) (span : Span)
  | duplicateLabel (value : Int) (earlier span : Span)
  | duplicateDefault (earlier span : Span)
  | invalidLabel (span : Span)
  | breakOutsideSwitch (span : Span)
  | missingReturn (name : String) (expected : Ty) (span : Span)
  | missingEntry (owner name : String) (span : Span)
  /-- A warning that the configuration makes fatal. -/
  | denied (warning : Warning)
  deriving DecidableEq, Repr

namespace Rejection

def span : Rejection → Span
  | .duplicateDeclaration _ _ s => s
  | .duplicateClass _ _ s => s
  | .duplicateMember _ _ _ s => s
  | .unresolvedAccess _ _ s => s
  | .memberNotFound _ _ _ s => s
  | .methodNotFound _ _ s => s
  | .typeMismatch _ _ s => s
  | .invalidTarget s => s
  | .undefinedVariable _ s => s
  | .argumentCount _ _ _ s => s
  | .duplicateLabel _ _ s => s
  | .duplicateDefault _ s => s
  | .invalidLabel s => s
  | .breakOutsideSwitch s => s
  | .missingReturn _ _ s => s
  | .missingEntry _ _ s => s
  | .denied w => w.span

/-- Where the earlier declaration is that this error collides with. -/
def earlier? : Rejection → Option Span
  | .duplicateDeclaration _ o _ => some o
  | .duplicateClass _ o _ => some o
  | .duplicateMember _ _ o _ => some o
  | .duplicateLabel _ o _ => some o
  | .duplicateDefault o _ => some o
  | _ => none

def code : Rejection → String
  | .duplicateDeclaration _ _ _ => "E3001"
  | .duplicateClass _ _ _ => "E3002"
  | .duplicateMember _ _ _ _ => "E3003"
  | .unresolvedAccess _ _ _ => "E3004"
  | .memberNotFound _ _ _ _ => "E3005"
  | .methodNotFound _ _ _ => "E3006"
  | .typeMismatch _ _ _ => "E3007"
  | .invalidTarget _ => "E3008"
  | .undefinedVariable _ _ => "E3009"
  | .argumentCount _ _ _ _ => "E3010"
  | .duplicateLabel _ _ _ => "E3011"
  | .duplicateDefault _ _ => "E3012"
  | .invalidLabel _ => "E3013"
  | .breakOutsideSwitch _ => "E3014"
  | .missingReturn _ _ _ => "E3015"
  | .missingEntry _ _ _ => "E3016"
  | .denied w => w.kind.code

def message : Rejection → String
  | .duplicateDeclaration n _ _ => "Duplicate declaration of '" ++ n ++ "'"
  | .duplicateClass n _ _ => "Duplicate class '" ++ n ++ "'"
  | .duplicateMember c n _ _ => "Duplicate member '" ++ n ++ "' in class '" ++ c ++ "'"
  | .unresolvedAccess p r _ => "Cannot resolve qualified access '" ++ p ++ "': " ++ r
  | .memberNotFound c n k _ => "Class '" ++ c ++ "' has no " ++ k.text ++ " named '" ++ n ++ "'"
  | .methodNotFound c n _ => "Method '" ++ n ++ "' not found in class '" ++ c ++ "'"
  | .typeMismatch e a _ => "Type mismatch: expected " ++ e ++ ", found " ++ a
  | .invalidTarget _ => "Invalid assignment target"
  | .undefinedVariable n _ => "Undefined variable '" ++ n ++ "'"
  | .argumentCount n e a _ =>
    "'" ++ n ++ "' expects " ++ e ++ " argument(s), got " ++ toString a
  | .duplicateLabel v _ _ => "Duplicate case label " ++ toString v
  | .duplicateDefault _ _ => "Multiple default labels in one switch"
  | .invalidLabel _ => "Case label must be an integral constant"
  | .breakOutsideSwitch _ => "'break' outside of a switch"
  | .missingReturn n t _ =>
    "Method '" ++ n ++ "' can complete without returning a " ++ t.text ++ " value"
  | .missingEntry c n _ => "Class '" ++ c ++ "' has no entry point '" ++ n ++ "'"
  | .denied w => w.message ++ " (denied)"

end Rejection

end Cascade
