import Cascade.Proofs.Ty

/-!
# Cascade.Proofs.Scalar

The types of computed values, and two ways to compute one value.

* Every operation yields a value of the type that the typing rules foretell; the only failure on
  operands of one type is a division by zero.
* `binary_ne_zero`: comparing with the zero of the type tells whether a value is true.
* `binary_add_ofInt`: adding the constant of the type is `Scalar.step`.
-/

namespace Cascade
namespace Scalar

theorem zero?_isSome {t : Ty} (h : t.isNumeric = true) : ∃ z, zero? t = some z := by
  cases t <;> simp_all [zero?, Ty.isNumeric, Ty.rank?]

theorem ty_zero? {t : Ty} {z : Scalar} (h : zero? t = some z) : z.ty = t := by
  cases t <;> simp_all [zero?] <;> subst h <;> rfl

theorem ofInt?_isSome {t : Ty} (h : t.isIntegral = true) (n : Int) : ∃ x, ofInt? t n = some x := by
  cases t <;> simp_all [ofInt?, Ty.isIntegral]

theorem ty_ofInt? {t : Ty} {n : Int} {x : Scalar} (h : ofInt? t n = some x) : x.ty = t := by
  cases t <;> simp_all [ofInt?] <;> subst h <;> rfl

theorem toInt?_isSome {x : Scalar} (h : x.ty.isIntegral = true) : ∃ n, x.toInt? = some n := by
  cases x <;> simp_all [toInt?, Ty.isIntegral, ty]

theorem toInt?_holds {x : Scalar} {n : Int} (h : x.toInt? = some n) : x.ty.Holds n := by
  cases x with
  | short v =>
    cases h
    exact ⟨_, _, rfl, by have := v.le_toInt; omega, by have := v.toInt_lt; omega⟩
  | int v =>
    cases h
    exact ⟨_, _, rfl, by have := v.le_toInt; omega, by have := v.toInt_lt; omega⟩
  | long v =>
    cases h
    exact ⟨_, _, rfl, by have := v.le_toInt; omega, by have := v.toInt_lt; omega⟩
  | double v => cases h

theorem fits_iff_holds {x : Scalar} {n : Int} (hn : x.toInt? = some n) (t : Ty) :
    x.fits t = true ↔ t.Holds n := by
  cases hr : t.range? with
  | none => simp [fits, Ty.Holds, hn, hr]
  | some range => simp [fits, Ty.Holds, hn, hr, Prod.ext_iff, and_assoc]

theorem convert_isSome (x : Scalar) {t : Ty} (h : t.isNumeric = true) :
    ∃ y, x.convert t = some y := by
  cases t <;> simp_all [convert, ofInt?, Ty.isNumeric, Ty.rank?]

theorem ty_convert {x y : Scalar} {t : Ty} (h : x.convert t = some y) : y.ty = t := by
  cases t <;> simp_all [convert, ofInt?] <;> subst h <;> rfl

@[simp] theorem ty_neg (x : Scalar) : x.neg.ty = x.ty := by cases x <;> rfl

@[simp] theorem ty_step (x : Scalar) (d : Int) : (x.step d).ty = x.ty := by cases x <;> rfl

def unaryTy : UnaryOp → Ty → Ty
  | .neg, t => t
  | .not, _ => .truth

theorem ty_unary (op : UnaryOp) (x : Scalar) : (unary op x).ty = unaryTy op x.ty := by
  cases op
  · exact ty_neg x
  · rfl

def binaryTy (op : BinaryOp) (t : Ty) : Ty := if op.isComparison then .truth else t

theorem ty_integralArith {w : Nat} {value : BitVec w → Scalar} {t : Ty} {op : BinaryOp}
    {a b : BitVec w} {v : Scalar} (h : integralArith value op a b = .ok v)
    (ht : ∀ n, (value n).ty = t) : v.ty = binaryTy op t := by
  cases op <;> simp only [integralArith] at h <;> (try split at h) <;> cases h <;>
    first | exact ht _ | rfl

theorem ty_doubleArith (op : BinaryOp) (a b : Float) :
    (doubleArith op a b).ty = binaryTy op .double := by
  cases op <;> rfl

theorem ty_binary {op : BinaryOp} {x y v : Scalar} (h : binary op x y = .ok v) :
    x.ty = y.ty ∧ v.ty = binaryTy op x.ty := by
  cases x <;> cases y <;> simp only [binary] at h <;> try cases h
  · exact ⟨rfl, ty_integralArith h fun _ => rfl⟩
  · exact ⟨rfl, ty_integralArith h fun _ => rfl⟩
  · exact ⟨rfl, ty_integralArith h fun _ => rfl⟩
  · exact ⟨rfl, ty_doubleArith op _ _⟩

theorem integralArith_error {w : Nat} {value : BitVec w → Scalar} {op : BinaryOp}
    {a b : BitVec w} {e : ArithFailure} (h : integralArith value op a b = .error e) :
    e = .divisionByZero := by
  cases op <;> simp only [integralArith] at h <;> (try split at h) <;> cases h <;> rfl

/-- On operands of one type nothing but a division by zero can go wrong. -/
theorem binary_error {op : BinaryOp} {x y : Scalar} {e : ArithFailure} (ht : x.ty = y.ty)
    (h : binary op x y = .error e) : e = .divisionByZero := by
  cases x <;> cases y <;> simp only [binary] at h <;> try cases ht
  · exact integralArith_error h
  · exact integralArith_error h
  · exact integralArith_error h
  · cases h

theorem integralArith_ne_zero {w : Nat} (value : BitVec w → Scalar) (a : BitVec w) :
    integralArith value .ne a 0 = .ok (ofBool (a != 0)) := by
  have hzero : (a.toInt != (0 : BitVec w).toInt) = (a != 0) := by
    rw [Bool.eq_iff_iff, bne_iff_ne, bne_iff_ne, Ne, Ne, BitVec.toInt_inj]
  exact congrArg (Except.ok ∘ ofBool) hzero

theorem binary_ne_zero {x z : Scalar} (h : zero? x.ty = some z) :
    binary .ne x z = .ok (ofBool x.isTrue) := by
  cases x with
  | short v =>
    cases h
    have hzero : (v.toBitVec != 0) = (v != 0) := by
      rw [Bool.eq_iff_iff, bne_iff_ne, bne_iff_ne, Ne, Ne, ← Int16.toBitVec_inj]; rfl
    exact (integralArith_ne_zero (short ∘ .ofBitVec) _).trans (congrArg (Except.ok ∘ ofBool) hzero)
  | int v =>
    cases h
    have hzero : (v.toBitVec != 0) = (v != 0) := by
      rw [Bool.eq_iff_iff, bne_iff_ne, bne_iff_ne, Ne, Ne, ← Int32.toBitVec_inj]; rfl
    exact (integralArith_ne_zero (int ∘ .ofBitVec) _).trans (congrArg (Except.ok ∘ ofBool) hzero)
  | long v =>
    cases h
    have hzero : (v.toBitVec != 0) = (v != 0) := by
      rw [Bool.eq_iff_iff, bne_iff_ne, bne_iff_ne, Ne, Ne, ← Int64.toBitVec_inj]; rfl
    exact (integralArith_ne_zero (long ∘ .ofBitVec) _).trans (congrArg (Except.ok ∘ ofBool) hzero)
  | double v => cases h; rfl

theorem binary_add_ofInt {x y : Scalar} {d : Int} (h : ofInt? x.ty d = some y) :
    binary .add x y = .ok (x.step d) := by
  cases x <;> cases h <;> rfl

end Scalar
end Cascade
