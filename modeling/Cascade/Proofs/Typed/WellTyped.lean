import Cascade.Proofs.Scalar
import Cascade.Typed.Constant
import Cascade.Typed.Flow

/-!
# Cascade.Proofs.Typed.WellTyped

The judgement on typed trees: what code generation and evaluation may rely on.

* `Expr.WellTyped`: every node carries the type that its parts give it, names storage and methods
  that exist, and converts only where no integer changes.
* `Stmt.WellTyped`: a stored or returned value has exactly the type of its place, a switch compares
  in one integral type, and a `break` stands inside a switch.
* `constant?_ty`: the constant value of a well-typed expression has the type of the expression.
-/

namespace Cascade

/-- What the code of a program can name from everywhere: its fields and its methods, by number,
with their types. -/
structure Signature where
  fields : List Ty
  methods : List Ty
  deriving DecidableEq, Repr

namespace Typed

/-- The declared type of a place, where `slots` are the types of the local variables. -/
def placeTy? (g : Signature) (slots : List Ty) : Place → Option Ty
  | .slot n => slots[n]?
  | .field f => g.fields[f]?

/-- A conversion between two numeric types that loses nothing: it widens, or its operand is an
integral constant that fits. -/
def Expr.Converts (e : Expr) (t : Ty) : Prop :=
  e.ty ≠ t ∧
    (e.ty.widensTo t = true ∨
      e.ty.isIntegral = true ∧ t.isIntegral = true ∧ ∃ v, e.constant? = some v ∧ v.fits t = true)

inductive Expr.WellTyped (g : Signature) (slots : List Ty) : Expr → Prop where
  | const {v : Scalar} {span : Span} : WellTyped g slots (.const v v.ty span)
  | load {place : Place} {ty : Ty} {span : Span} : placeTy? g slots place = some ty →
      WellTyped g slots (.load place ty span)
  | convert {e : Expr} {ty : Ty} {span : Span} : WellTyped g slots e → e.Converts ty →
      WellTyped g slots (.convert e ty span)
  | unary {op : UnaryOp} {e : Expr} {span : Span} : WellTyped g slots e → e.ty.isNumeric = true →
      WellTyped g slots (.unary op e (Scalar.unaryTy op e.ty) span)
  | binary {op : BinaryOp} {l r : Expr} {span : Span} : WellTyped g slots l →
      WellTyped g slots r → l.ty = r.ty → l.ty.isNumeric = true →
      WellTyped g slots (.binary op l r (Scalar.binaryTy op l.ty) span)
  | logical {op : LogicalOp} {l r : Expr} {span : Span} : WellTyped g slots l →
      WellTyped g slots r → l.ty.isNumeric = true → r.ty.isNumeric = true →
      WellTyped g slots (.logical op l r .truth span)
  | update {place : Place} {delta : Int} {before : Bool} {ty : Ty} {span : Span} :
      placeTy? g slots place = some ty → ty.isIntegral = true →
      WellTyped g slots (.update place delta before ty span)
  | assign {place : Place} {e : Expr} {span : Span} : placeTy? g slots place = some e.ty →
      WellTyped g slots e → e.ty.isNumeric = true →
      WellTyped g slots (.assign place e e.ty span)
  | call {m : MethodId} {ty : Ty} {span : Span} : g.methods[m]? = some ty →
      WellTyped g slots (.call m ty span)
  | print {e : Expr} {span : Span} : WellTyped g slots e → e.ty.isNumeric = true →
      WellTyped g slots (.print e .void span)
  | printBlank {span : Span} : WellTyped g slots (.printBlank .void span)

/-- A value that is stored into a place of a type, or returned as one. -/
def Expr.Fills (g : Signature) (slots : List Ty) (e : Expr) (t : Ty) : Prop :=
  e.WellTyped g slots ∧ e.ty = t ∧ t.isNumeric = true

structure LabelsFit (compare : Ty) (cases : List Case) : Prop where
  distinct : (cases.filterMap Case.label).Nodup
  inRange : ∀ n ∈ cases.filterMap Case.label, compare.Holds n
  oneDefault : cases.countP Case.isDefault ≤ 1

mutual

/-- A statement of a method with local variables of types `slots` and the result type `returns`,
which may stand inside a switch. -/
def Stmt.WellTyped (g : Signature) (slots : List Ty) (returns : Ty) (inSwitch : Bool) :
    Stmt → Prop
  | .block body => ListWellTyped g slots returns inSwitch body
  | .declare slot init =>
    ∃ t, slots[slot]? = some t ∧ t.isNumeric = true ∧ ∀ e, init = some e → e.Fills g slots t
  | .expr e => e.WellTyped g slots
  | .switch scrutinee compare cases =>
    scrutinee.Fills g slots compare ∧ compare.isIntegral = true ∧ LabelsFit compare cases ∧
      CasesWellTyped g slots returns cases
  | .leave => inSwitch = true
  | .ret none => returns = .void
  | .ret (some e) => e.Fills g slots returns

def ListWellTyped (g : Signature) (slots : List Ty) (returns : Ty) (inSwitch : Bool) :
    List Stmt → Prop
  | [] => True
  | s :: ss =>
    Stmt.WellTyped g slots returns inSwitch s ∧ ListWellTyped g slots returns inSwitch ss

def CasesWellTyped (g : Signature) (slots : List Ty) (returns : Ty) : List Case → Prop
  | [] => True
  | .mk _ body :: cs => ListWellTyped g slots returns true body ∧ CasesWellTyped g slots returns cs

end

/-- The types by which the code of a program knows its fields and methods. -/
def Program.signature (p : Program) : Signature :=
  ⟨p.fields.map Field.ty, p.methods.map Method.returns⟩

def Method.slots (m : Method) : List Ty := m.locals.map Local.ty

/-- A field is numeric, and its first value, if one is written, has its type. No local variable
can be named there. -/
def Field.WellTyped (g : Signature) (f : Field) : Prop :=
  f.ty.isNumeric = true ∧ ∀ e, f.init = some e → e.Fills g [] f.ty

/-- Local variables are numeric, the body is well typed, and control does not reach its end where a
value is due. -/
structure Method.WellTyped (g : Signature) (m : Method) : Prop where
  slots : ∀ t ∈ m.slots, t.isNumeric = true
  body : ListWellTyped g m.slots m.returns false m.body
  leaves : m.returns ≠ .void → allComplete m.body = false

/-- Each member has its place as its number. -/
structure Program.Numbered (p : Program) : Prop where
  fields : ∀ {i : Nat} {f : Field}, p.fields[i]? = some f → f.id = i
  methods : ∀ {i : Nat} {m : Method}, p.methods[i]? = some m → m.id = i

structure Program.WellTyped (p : Program) : Prop where
  fields : ∀ f ∈ p.fields, f.WellTyped p.signature
  methods : ∀ m ∈ p.methods, m.WellTyped p.signature
  numbered : p.Numbered
  entry : p.entry < p.methods.length

theorem Program.Numbered.signature_field {p : Program} (h : p.Numbered) {f : Field}
    (hf : f ∈ p.fields) : p.signature.fields[f.id]? = some f.ty := by
  obtain ⟨i, hi⟩ := List.getElem?_of_mem hf
  rw [h.fields hi, signature, List.getElem?_map, hi]
  rfl

theorem Expr.Converts.isNumeric {e : Expr} {t : Ty} (h : e.Converts t) :
    e.ty.isNumeric = true ∧ t.isNumeric = true := by
  obtain ⟨-, hw | ⟨he, ht, -⟩⟩ := h
  · exact Ty.isNumeric_of_widensTo hw
  · exact ⟨Ty.isNumeric_of_isIntegral he, Ty.isNumeric_of_isIntegral ht⟩

/-- The constant value of an expression has the type of the expression. -/
theorem constant?_ty {g : Signature} {slots : List Ty} {e : Expr} (h : e.WellTyped g slots) :
    ∀ v, e.constant? = some v → v.ty = e.ty := by
  induction h with
  | const => intro v hv; cases hv; rfl
  | convert _ _ ih =>
    intro v hv
    simp only [Expr.constant?] at hv
    split at hv
    · exact Scalar.ty_convert hv
    · cases hv
  | unary _ _ ih =>
    intro v hv
    simp only [Expr.constant?] at hv
    split at hv
    · rename_i w hw
      cases hv
      rw [Scalar.ty_unary, ih w hw]; rfl
    · cases hv
  | @binary op l r _ _ _ hlr _ ihl ihr =>
    intro v hv
    simp only [Expr.constant?] at hv
    split at hv
    · rename_i a b ha hb
      cases hab : Scalar.binary op a b with
      | error e => rw [hab] at hv; cases hv
      | ok w =>
        rw [hab] at hv; cases hv
        rw [(Scalar.ty_binary hab).2, ihl a ha]; rfl
    · cases hv
  | logical =>
    intro v hv
    simp only [Expr.constant?] at hv
    split at hv
    · cases hv; rfl
    · cases hv
  | load _ => intro v hv; cases hv
  | update _ _ => intro v hv; cases hv
  | assign _ _ _ _ => intro v hv; cases hv
  | call _ => intro v hv; cases hv
  | print _ _ _ => intro v hv; cases hv
  | printBlank => intro v hv; cases hv

theorem label?_holds {g : Signature} {slots : List Ty} {e : Expr} {n : Int}
    (h : e.WellTyped g slots) (hn : e.label? = some n) : e.ty.Holds n := by
  unfold Expr.label? at hn
  split at hn
  · split at hn
    · rename_i v hv
      rw [← constant?_ty h v hv]
      exact Scalar.toInt?_holds hn
    · cases hn
  · cases hn

/-- Only the last of some cases counts for how they complete. -/
theorem lastCompletes_cons {c : Case} {cs : List Case} (h : cs ≠ []) :
    lastCompletes (c :: cs) = lastCompletes cs := by
  cases cs with
  | nil => exact absurd rfl h
  | cons c' cs => rw [lastCompletes]

/-! ## More local variables -/

theorem placeTy?_append {g : Signature} {slots more : List Ty} {place : Place} {t : Ty}
    (h : placeTy? g slots place = some t) : placeTy? g (slots ++ more) place = some t := by
  cases place with
  | slot n =>
    simp only [placeTy?] at h ⊢
    obtain ⟨hn, -⟩ := List.getElem?_eq_some_iff.mp h
    rw [List.getElem?_append_left hn, h]
  | field f => exact h

theorem Expr.WellTyped.append {g : Signature} {slots : List Ty} {e : Expr} (more : List Ty)
    (h : e.WellTyped g slots) : e.WellTyped g (slots ++ more) := by
  induction h with
  | const => exact .const
  | load hp => exact .load (placeTy?_append hp)
  | convert _ hc ih => exact .convert ih hc
  | unary _ hn ih => exact .unary ih hn
  | binary _ _ ht hn ihl ihr => exact .binary ihl ihr ht hn
  | logical _ _ hl hr ihl ihr => exact .logical ihl ihr hl hr
  | update hp hi => exact .update (placeTy?_append hp) hi
  | assign hp _ hn ih => exact .assign (placeTy?_append hp) ih hn
  | call hm => exact .call hm
  | print _ hn ih => exact .print ih hn
  | printBlank => exact .printBlank

theorem Expr.Fills.append {g : Signature} {slots : List Ty} {e : Expr} {t : Ty} (more : List Ty)
    (h : e.Fills g slots t) : e.Fills g (slots ++ more) t :=
  ⟨h.1.append more, h.2⟩

mutual

theorem Stmt.WellTyped.append {g : Signature} {slots : List Ty} {returns : Ty} {inSwitch : Bool}
    (more : List Ty) : ∀ (s : Stmt), s.WellTyped g slots returns inSwitch →
      s.WellTyped g (slots ++ more) returns inSwitch
  | .block body, h => ListWellTyped.append more body h
  | .declare slot init, h => by
    simp only [Stmt.WellTyped] at h ⊢
    obtain ⟨t, ht, hn, hi⟩ := h
    obtain ⟨hlt, -⟩ := List.getElem?_eq_some_iff.mp ht
    exact ⟨t, by rw [List.getElem?_append_left hlt, ht], hn, fun e he => (hi e he).append more⟩
  | .expr e, h => Expr.WellTyped.append more h
  | .switch scrutinee compare cases, h => by
    simp only [Stmt.WellTyped] at h ⊢
    exact ⟨h.1.append more, h.2.1, h.2.2.1, CasesWellTyped.append more cases h.2.2.2⟩
  | .leave, h => h
  | .ret none, h => h
  | .ret (some e), h => Expr.Fills.append more h

theorem ListWellTyped.append {g : Signature} {slots : List Ty} {returns : Ty} {inSwitch : Bool}
    (more : List Ty) : ∀ (ss : List Stmt), ListWellTyped g slots returns inSwitch ss →
      ListWellTyped g (slots ++ more) returns inSwitch ss
  | [], _ => trivial
  | s :: ss, h => ⟨Stmt.WellTyped.append more s h.1, ListWellTyped.append more ss h.2⟩

theorem CasesWellTyped.append {g : Signature} {slots : List Ty} {returns : Ty}
    (more : List Ty) : ∀ (cs : List Case), CasesWellTyped g slots returns cs →
      CasesWellTyped g (slots ++ more) returns cs
  | [], _ => trivial
  | .mk _ body :: cs, h => ⟨ListWellTyped.append more body h.1, CasesWellTyped.append more cs h.2⟩

end

end Typed
end Cascade
