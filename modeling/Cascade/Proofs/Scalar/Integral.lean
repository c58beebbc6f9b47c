import Cascade.Proofs.Scalar
import Mathlib.Algebra.Group.Int.Defs
import Mathlib.Algebra.Group.Nat.Defs

/-!
# Cascade.Proofs.Scalar.Integral

Integral arithmetic is two's complement arithmetic of the width of the type.

A value of an integral type stands for one integer of so many bits, and every operation is the exact
operation on integers, brought back into the range of the type. So each law comes from one on
integers modulo a power of two, and the three widths need no proofs of their own behind
`Scalar.yields_exact` and `Scalar.denotes_of_width`.

* `BinaryOp.onInt?`: the exact operations.
* `TwosComplement`: the laws of one type; `integral_arithmetic`: they hold for all three.
-/

namespace Cascade

/-- How many bits a value of an integral type has. -/
def Ty.width? : Ty → Option Nat
  | .short => some 16
  | .int => some 32
  | .long => some 64
  | .double | .void => none

/-- The exact result of an arithmetic operator on two integers, where there is one. Quotients are
truncated. -/
def BinaryOp.onInt? : BinaryOp → Int → Int → Option Int
  | .add, a, b => some (a + b)
  | .sub, a, b => some (a - b)
  | .mul, a, b => some (a * b)
  | .div, a, b => if b = 0 then none else some (a.tdiv b)
  | .rem, a, b => if b = 0 then none else some (a.tmod b)
  | .eq, _, _ | .ne, _, _ | .lt, _, _ | .le, _, _ | .gt, _, _ | .ge, _, _ => none

namespace Scalar

/-- The value of type `t` for the integer `n`. -/
structure Denotes (x : Scalar) (t : Ty) (n : Int) : Prop where
  ty : x.ty = t
  toInt : x.toInt? = some n

/-- An operator on two values succeeds with the value of type `t` for the integer `n`. -/
def Yields (op : BinaryOp) (x y : Scalar) (t : Ty) (n : Int) : Prop :=
  ∃ z, binary op x y = .ok z ∧ z.Denotes t n

/-- Arithmetic on the values of type `t` is two's complement arithmetic in `w` bits. The integer
`n.bmod (2 ^ w)` is the one in the signed range of `w` bits that is congruent to `n`. -/
structure TwosComplement (t : Ty) (w : Nat) : Prop where
  range {x : Scalar} : x.ty = t →
    ∃ n, x.Denotes t n ∧ -2 ^ (w - 1) ≤ n ∧ n < 2 ^ (w - 1)
  value {n : Int} : -2 ^ (w - 1) ≤ n → n < 2 ^ (w - 1) →
    ∃ x : Scalar, x.Denotes t n ∧ ∀ y : Scalar, y.Denotes t n → y = x
  add {x y : Scalar} {a b : Int} : x.Denotes t a → y.Denotes t b →
    Yields .add x y t ((a + b).bmod (2 ^ w))
  sub {x y : Scalar} {a b : Int} : x.Denotes t a → y.Denotes t b →
    Yields .sub x y t ((a - b).bmod (2 ^ w))
  mul {x y : Scalar} {a b : Int} : x.Denotes t a → y.Denotes t b →
    Yields .mul x y t ((a * b).bmod (2 ^ w))
  div_fails {x y : Scalar} {a b : Int} : x.Denotes t a → y.Denotes t b →
    (binary .div x y = .error .divisionByZero ↔ b = 0)
  rem_fails {x y : Scalar} {a b : Int} : x.Denotes t a → y.Denotes t b →
    (binary .rem x y = .error .divisionByZero ↔ b = 0)
  /-- The quotient is truncated, and only that of the least value and -1 is out of range. -/
  div_rem {x y : Scalar} {a b : Int} : x.Denotes t a → y.Denotes t b → b ≠ 0 →
    ∃ q r, Yields .div x y t q ∧ Yields .rem x y t r ∧ (2 ^ w : Int) ∣ a - (b * q + r) ∧
      r.natAbs < b.natAbs ∧ (r = 0 ∨ r.sign = a.sign) ∧
      q = if a = -2 ^ (w - 1) ∧ b = -1 then -2 ^ (w - 1) else a.tdiv b
  compare {x y : Scalar} {a b : Int} : x.Denotes t a → y.Denotes t b →
    binary .eq x y = .ok (.short (if a = b then 1 else 0)) ∧
    binary .ne x y = .ok (.short (if a ≠ b then 1 else 0)) ∧
    binary .lt x y = .ok (.short (if a < b then 1 else 0)) ∧
    binary .le x y = .ok (.short (if a ≤ b then 1 else 0)) ∧
    binary .gt x y = .ok (.short (if a > b then 1 else 0)) ∧
    binary .ge x y = .ok (.short (if a ≥ b then 1 else 0))
  step {x : Scalar} (d : Int) : x.ty = t →
    ∃ y, ofInt? t d = some y ∧ binary .add x y = .ok (x.step d)
  neg {x : Scalar} : x.ty = t → ∃ z, zero? t = some z ∧ binary .sub z x = .ok x.neg
  fits {x : Scalar} (u : Ty) : x.ty = t →
    (x.fits u = true ↔ ∃ y, x.convert u = some y ∧ y.toInt? = x.toInt?)
  widen {x : Scalar} {u : Ty} : x.ty = t → u.isIntegral = true → t.widensTo u = true →
    ∃ y, x.convert u = some y ∧ y.convert t = some x
  narrow {x y : Scalar} {u : Ty} : x.ty = t → y.ty = t → u.isIntegral = true →
    u.widensTo t = true → ∀ op ∈ [BinaryOp.add, .sub, .mul], ∃ x' y' z z',
      x.convert u = some x' ∧ y.convert u = some y' ∧ binary op x y = .ok z ∧
      z.convert u = some z' ∧ binary op x' y' = .ok z'
  narrow_neg {x : Scalar} {u : Ty} : x.ty = t → u.isIntegral = true → u.widensTo t = true →
    ∃ x', x.convert u = some x' ∧ x.neg.convert u = some x'.neg

variable {x y : Scalar} {t u : Ty} {w : Nat} {a b n : Int} {op : BinaryOp}

/-! ## Values -/

theorem denotes_of_width (hw : x.ty.width? = some w) : ∃ n, x.Denotes x.ty n := by
  cases x <;> cases hw <;> exact ⟨_, rfl, rfl⟩

theorem ofInt?_of_width (hw : t.width? = some w) (n : Int) : ∃ x, ofInt? t n = some x := by
  cases t <;> cases hw <;> exact ⟨_, rfl⟩

theorem denotes_ofInt? (hw : t.width? = some w) (h : ofInt? t n = some x) :
    x.Denotes t (n.bmod (2 ^ w)) := by
  cases t <;> cases hw <;> cases h
  · exact ⟨rfl, congrArg some Int16.toInt_ofInt⟩
  · exact ⟨rfl, congrArg some Int32.toInt_ofInt⟩
  · exact ⟨rfl, congrArg some Int64.toInt_ofInt⟩

theorem Denotes.ofInt?_eq (h : x.Denotes t n) : ofInt? t n = some x := by
  obtain ⟨rfl, hn⟩ := h
  cases x <;> cases hn
  · exact congrArg (some ∘ short) (Int16.ofInt_toInt _)
  · exact congrArg (some ∘ int) (Int32.ofInt_toInt _)
  · exact congrArg (some ∘ long) (Int64.ofInt_toInt _)

theorem ofInt?_congr (hw : t.width? = some w) (h : a.bmod (2 ^ w) = b.bmod (2 ^ w)) :
    ofInt? t a = ofInt? t b := by
  obtain ⟨x, hx⟩ := ofInt?_of_width hw a
  obtain ⟨y, hy⟩ := ofInt?_of_width hw b
  rw [hx, hy, ← (denotes_ofInt? hw hx).ofInt?_eq, h, (denotes_ofInt? hw hy).ofInt?_eq]

theorem Denotes.convert_eq (h : x.Denotes t n) (hu : u.isIntegral = true) :
    x.convert u = ofInt? u n := by
  obtain ⟨rfl, hn⟩ := h
  cases x <;> cases hn <;> cases u <;> first | rfl | cases hu

/-- The integers of `w` bits are those that reduction leaves alone. -/
theorem bmod_eq_self_iff (hw : t.width? = some w) :
    n.bmod (2 ^ w) = n ↔ -2 ^ (w - 1) ≤ n ∧ n < 2 ^ (w - 1) := by
  constructor
  · intro h
    have hlo := Int.le_bmod (x := n) (m := 2 ^ w) (Nat.two_pow_pos w)
    have hhi := Int.bmod_lt (x := n) (m := 2 ^ w) (Nat.two_pow_pos w)
    rw [h] at hlo hhi
    cases t <;> cases hw <;> exact ⟨by omega, by omega⟩
  · rintro ⟨hlo, hhi⟩
    cases t <;> cases hw <;> exact Int.bmod_eq_of_le (by omega) (by omega)

theorem Denotes.bmod_eq (hw : t.width? = some w) (h : x.Denotes t n) : n.bmod (2 ^ w) = n := by
  have hn := (denotes_ofInt? hw h.ofInt?_eq).toInt
  exact Option.some.inj (hn.symm.trans h.toInt)

theorem Denotes.range (hw : t.width? = some w) (h : x.Denotes t n) :
    -2 ^ (w - 1) ≤ n ∧ n < 2 ^ (w - 1) :=
  (bmod_eq_self_iff hw).mp (h.bmod_eq hw)

theorem Denotes.unique (h : x.Denotes t n) (h' : y.Denotes t n) : y = x :=
  Option.some.inj (h'.ofInt?_eq.symm.trans h.ofInt?_eq)

/-! ## Arithmetic -/

theorem toInt_eq_zero {b : BitVec w} : b.toInt = 0 ↔ b = 0 := by
  rw [← BitVec.toInt_inj]
  exact iff_of_eq (congrArg _ BitVec.toInt_zero.symm)

theorem integralArith_yields {value : BitVec w → Scalar} {a b : BitVec w}
    (hw : t.width? = some w) (hv : ∀ v, (value v).Denotes t v.toInt)
    (h : op.onInt? a.toInt b.toInt = some n) :
    ∃ z, integralArith value op a b = .ok z ∧ z.Denotes t (n.bmod (2 ^ w)) := by
  cases op <;> simp only [BinaryOp.onInt?, toInt_eq_zero, Option.ite_none_left_eq_some,
    Option.some.injEq, reduceCtorEq] at h
  · exact ⟨_, rfl, h ▸ BitVec.toInt_add a b ▸ hv _⟩
  · exact ⟨_, rfl, h ▸ (BitVec.toInt_sub (x := a) (y := b)) ▸ hv _⟩
  · exact ⟨_, rfl, h ▸ BitVec.toInt_mul a b ▸ hv _⟩
  · obtain ⟨hb, rfl⟩ := h
    exact ⟨_, if_neg hb, BitVec.toInt_sdiv a b ▸ hv _⟩
  · obtain ⟨hb, rfl⟩ := h
    have hrem : (value (a.srem b)).Denotes t (a.toInt.tmod b.toInt) :=
      BitVec.toInt_srem a b ▸ hv _
    exact ⟨_, if_neg hb, (hrem.bmod_eq hw).symm ▸ hrem⟩

/-- An arithmetic operator has its exact result, reduced to the width of the type. -/
theorem yields_exact (hw : t.width? = some w) (hx : x.Denotes t a) (hy : y.Denotes t b)
    (h : op.onInt? a b = some n) : Yields op x y t (n.bmod (2 ^ w)) := by
  obtain ⟨rfl, hx⟩ := hx
  obtain ⟨ht, hy⟩ := hy
  cases x <;> cases hx <;> cases hw <;> cases y <;> cases ht <;> cases hy
  · exact integralArith_yields rfl (fun _ => ⟨rfl, rfl⟩) h
  · exact integralArith_yields rfl (fun _ => ⟨rfl, rfl⟩) h
  · exact integralArith_yields rfl (fun _ => ⟨rfl, rfl⟩) h

theorem binary_exact (hw : t.width? = some w) (hx : x.Denotes t a) (hy : y.Denotes t b)
    (h : op.onInt? a b = some n) : ∃ z, ofInt? t n = some z ∧ binary op x y = .ok z := by
  obtain ⟨z, hz, hd⟩ := yields_exact hw hx hy h
  exact ⟨z, (ofInt?_congr hw Int.bmod_bmod).symm.trans hd.ofInt?_eq, hz⟩

theorem integralArith_zero {value : BitVec w → Scalar} {a b : BitVec w} (hb : b.toInt = 0)
    (hop : op = .div ∨ op = .rem) : integralArith value op a b = .error .divisionByZero := by
  obtain rfl | rfl := hop <;> exact if_pos (toInt_eq_zero.mp hb)

theorem divides_zero (hx : x.Denotes t a) (hy : y.Denotes t 0) (hop : op = .div ∨ op = .rem) :
    binary op x y = .error .divisionByZero := by
  obtain ⟨rfl, hx⟩ := hx
  obtain ⟨ht, hy⟩ := hy
  cases x <;> cases hx <;> cases y <;> cases ht <;>
    exact integralArith_zero (Option.some.inj hy) hop

/-- A division fails where the divisor is zero and nowhere else. -/
theorem divides_zero_iff (hw : t.width? = some w) (hx : x.Denotes t a) (hy : y.Denotes t b)
    (hop : op = .div ∨ op = .rem) : binary op x y = .error .divisionByZero ↔ b = 0 := by
  constructor
  · intro h
    refine Decidable.byContradiction fun hb => ?_
    obtain ⟨n, hn⟩ : ∃ n, op.onInt? a b = some n := by
      obtain rfl | rfl := hop <;> exact ⟨_, if_neg hb⟩
    obtain ⟨z, hz, -⟩ := yields_exact hw hx hy hn
    cases h.symm.trans hz
  · rintro rfl
    exact divides_zero hx hy hop

theorem binary_comparison (hx : x.Denotes t a) (hy : y.Denotes t b)
    (h : op.isComparison = true) : binary op x y = .ok (ofBool (compareInts op a b)) := by
  obtain ⟨rfl, hx⟩ := hx
  obtain ⟨ht, hy⟩ := hy
  cases x <;> cases hx <;> cases y <;> cases ht <;> cases hy <;> cases op <;>
    first | rfl | cases h

theorem compare_exact (hx : x.Denotes t a) (hy : y.Denotes t b) :
    binary .eq x y = .ok (.short (if a = b then 1 else 0)) ∧
    binary .ne x y = .ok (.short (if a ≠ b then 1 else 0)) ∧
    binary .lt x y = .ok (.short (if a < b then 1 else 0)) ∧
    binary .le x y = .ok (.short (if a ≤ b then 1 else 0)) ∧
    binary .gt x y = .ok (.short (if a > b then 1 else 0)) ∧
    binary .ge x y = .ok (.short (if a ≥ b then 1 else 0)) := by
  refine ⟨?_, ?_, ?_, ?_, ?_, ?_⟩
  all_goals
    rw [binary_comparison hx hy rfl]
    simp [ofBool, compareInts]

theorem Denotes.neg (h : x.Denotes t n) : ofInt? t (-n) = some x.neg := by
  obtain ⟨rfl, hn⟩ := h
  cases x <;> cases hn
  · exact congrArg (some ∘ short) ((Int16.ofInt_neg _).trans (congrArg _ (Int16.ofInt_toInt _)))
  · exact congrArg (some ∘ int) ((Int32.ofInt_neg _).trans (congrArg _ (Int32.ofInt_toInt _)))
  · exact congrArg (some ∘ long) ((Int64.ofInt_neg _).trans (congrArg _ (Int64.ofInt_toInt _)))

theorem integralArith_zero_sub (value : BitVec w → Scalar) (a : BitVec w) :
    integralArith value .sub 0 a = .ok (value (-a)) :=
  congrArg (Except.ok ∘ value) (BitVec.zero_sub a)

theorem binary_zero_sub {z : Scalar} (hn : x.toInt? = some n) (hz : zero? x.ty = some z) :
    binary .sub z x = .ok x.neg := by
  cases x <;> cases hn <;> cases hz <;> exact integralArith_zero_sub _ _

/-! ## Quotients -/

/-- Only the least integer divided by -1 has a quotient out of range. -/
theorem tdiv_range {m : Int} (hlo : -m ≤ a) (hhi : a < m) (hb : b ≠ 0)
    (h : ¬ (a = -m ∧ b = -1)) : -m ≤ a.tdiv b ∧ a.tdiv b < m := by
  by_cases hone : b = -1
  · subst hone
    rw [Int.tdiv_neg, Int.tdiv_one]
    omega
  have hnat : (a.tdiv b).natAbs = a.natAbs / b.natAbs := Int.natAbs_tdiv a b
  by_cases hunit : b = 1
  · subst hunit
    rw [Int.tdiv_one]
    omega
  have hhalf : a.natAbs / b.natAbs ≤ a.natAbs / 2 := Nat.div_le_div_left (by omega) (by decide)
  omega

theorem tmod_sign (a b : Int) : a.tmod b = 0 ∨ (a.tmod b).sign = a.sign := by
  by_cases h : b ∣ a
  · exact .inl (Int.tmod_eq_zero_of_dvd h)
  · exact .inr (by rw [Int.sign_tmod, if_neg h])

theorem tmod_natAbs_lt (a : Int) (hb : b ≠ 0) : (a.tmod b).natAbs < b.natAbs := by
  rw [Int.natAbs_tmod]
  exact Nat.mod_lt _ (Int.natAbs_pos.mpr hb)

theorem least_tdiv (hw : t.width? = some w) :
    ((-2 ^ (w - 1) : Int).tdiv (-1)).bmod (2 ^ w) = -2 ^ (w - 1) := by
  cases t <;> cases hw <;> decide

/-- A quotient that is reduced, and the remainder with it, make up the dividend but for whole
multiples of the modulus. -/
theorem dvd_sub_reduced (a b : Int) (w : Nat) :
    (2 ^ w : Int) ∣ a - (b * (a.tdiv b).bmod (2 ^ w) + a.tmod b) := by
  have hq : (2 ^ w : Int) ∣ (a.tdiv b).bmod (2 ^ w) - a.tdiv b :=
    Int.natCast_pow 2 w ▸ Int.dvd_bmod_sub_self
  have ha := Int.mul_tdiv_add_tmod a b
  have heq : a - (b * (a.tdiv b).bmod (2 ^ w) + a.tmod b) =
      -(b * ((a.tdiv b).bmod (2 ^ w) - a.tdiv b)) := by
    rw [Int.mul_sub]
    omega
  rw [heq]
  exact Int.dvd_neg.mpr (Int.dvd_mul_of_dvd_right hq)

theorem div_rem_exact (hw : t.width? = some w) (hx : x.Denotes t a) (hy : y.Denotes t b)
    (hb : b ≠ 0) : ∃ q r, Yields .div x y t q ∧ Yields .rem x y t r ∧
      (2 ^ w : Int) ∣ a - (b * q + r) ∧ r.natAbs < b.natAbs ∧ (r = 0 ∨ r.sign = a.sign) ∧
      q = if a = -2 ^ (w - 1) ∧ b = -1 then -2 ^ (w - 1) else a.tdiv b := by
  have hdiv : Yields .div x y t ((a.tdiv b).bmod (2 ^ w)) :=
    yields_exact hw hx hy (if_neg hb)
  have hrem : Yields .rem x y t ((a.tmod b).bmod (2 ^ w)) :=
    yields_exact hw hx hy (if_neg hb)
  obtain ⟨hlo, hhi⟩ := hx.range hw
  have hsmall := tmod_natAbs_lt a hb
  have htmod : (a.tmod b).bmod (2 ^ w) = a.tmod b := by
    have hb' := hy.range hw
    exact (bmod_eq_self_iff hw).mpr ⟨by omega, by omega⟩
  rw [htmod] at hrem
  refine ⟨_, _, hdiv, hrem, dvd_sub_reduced a b w, hsmall, tmod_sign a b, ?_⟩
  split
  · rename_i hmin
    rw [hmin.1, hmin.2, least_tdiv hw]
  · rename_i hne
    exact (bmod_eq_self_iff hw).mpr (tdiv_range hlo hhi hb hne)

/-! ## Conversions -/

theorem range?_of_width (hw : t.width? = some w) :
    t.range? = some (-2 ^ (w - 1), 2 ^ (w - 1) - 1) := by
  cases t <;> cases hw <;> rfl

theorem width?_of_isIntegral (h : t.isIntegral = true) : ∃ w, t.width? = some w := by
  cases t <;> first | exact ⟨_, rfl⟩ | cases h

theorem isIntegral_of_width (hw : t.width? = some w) : t.isIntegral = true := by
  cases t <;> cases hw <;> rfl

theorem width?_le {v : Nat} (hv : u.width? = some v) (hw : t.width? = some w)
    (h : u.widensTo t = true) : v ≤ w := by
  cases u <;> cases hv <;> cases t <;> cases hw <;> first | decide | cases h

theorem fits_of_width (hw : u.width? = some w) (hn : x.toInt? = some n) :
    x.fits u = true ↔ n.bmod (2 ^ w) = n := by
  rw [bmod_eq_self_iff hw, fits_iff_holds hn]
  simp only [Ty.Holds, range?_of_width hw, Option.some.injEq, Prod.mk.injEq]
  constructor
  · rintro ⟨_, _, ⟨rfl, rfl⟩, hlo, hhi⟩
    omega
  · rintro ⟨hlo, hhi⟩
    exact ⟨_, _, ⟨rfl, rfl⟩, hlo, by omega⟩

/-- A value fits a type if it is the same integer there. -/
theorem fits_iff_convert (hn : x.toInt? = some n) (u : Ty) :
    x.fits u = true ↔ ∃ y, x.convert u = some y ∧ y.toInt? = some n := by
  cases hw : u.width? with
  | none =>
    have hno : x.fits u = false := by
      cases u <;> cases hw <;> simp [fits, hn, Ty.range?]
    rw [hno]
    refine ⟨fun h => absurd h Bool.false_ne_true, ?_⟩
    rintro ⟨y, hy, hval⟩
    cases u <;> cases hw <;> cases hy
    cases hval
  | some w =>
    obtain ⟨y, hy⟩ := ofInt?_of_width hw n
    have hval := (denotes_ofInt? hw hy).toInt
    rw [fits_of_width hw hn, Denotes.convert_eq ⟨rfl, hn⟩ (isIntegral_of_width hw), hy]
    simp [hval]

theorem convert_widen (hw : x.ty.width? = some w) (hu : u.isIntegral = true)
    (h : x.ty.widensTo u = true) : ∃ y, x.convert u = some y ∧ y.convert x.ty = some x := by
  obtain ⟨v, hv⟩ := width?_of_isIntegral hu
  obtain ⟨n, hn⟩ := denotes_of_width hw
  obtain ⟨y, hy⟩ := ofInt?_of_width hv n
  refine ⟨y, (hn.convert_eq hu).trans hy, ?_⟩
  rw [(denotes_ofInt? hv hy).convert_eq (isIntegral_of_width hw), ← hn.ofInt?_eq]
  refine ofInt?_congr hw ?_
  -- the wider modulus is a multiple of the narrower one
  exact Int.bmod_bmod_of_dvd (Nat.pow_dvd_pow 2 (width?_le hw hv h))

/-- What is reduced to one width and then to a smaller one is reduced to the smaller one. -/
theorem convert_reduced (hw : t.width? = some w) (hu : u.isIntegral = true)
    (h : u.widensTo t = true) (hx : ofInt? t n = some x) : x.convert u = ofInt? u n := by
  obtain ⟨v, hv⟩ := width?_of_isIntegral hu
  rw [(denotes_ofInt? hw hx).convert_eq hu]
  exact ofInt?_congr hv (Int.bmod_bmod_of_dvd (Nat.pow_dvd_pow 2 (width?_le hv hw h)))

theorem onInt?_reduced (m : Nat) (hop : op ∈ [BinaryOp.add, .sub, .mul]) (a b : Int) :
    ∃ n k, op.onInt? a b = some n ∧ op.onInt? (a.bmod m) (b.bmod m) = some k ∧
      k.bmod m = n.bmod m := by
  simp only [List.mem_cons, List.not_mem_nil, or_false] at hop
  obtain rfl | rfl | rfl := hop
  · exact ⟨_, _, rfl, rfl, (Int.add_bmod a b m).symm⟩
  · exact ⟨_, _, rfl, rfl, (Int.sub_bmod a b m).symm⟩
  · exact ⟨_, _, rfl, rfl, (Int.mul_bmod a b m).symm⟩

section

variable (hw : t.width? = some w) (hx : x.Denotes t a) (hu : u.isIntegral = true)
variable (h : u.widensTo t = true)
include hw hx hu h

theorem convert_neg : ∃ x', x.convert u = some x' ∧ x.neg.convert u = some x'.neg := by
  obtain ⟨v, hv⟩ := width?_of_isIntegral hu
  obtain ⟨x', hx'⟩ := ofInt?_of_width hv a
  refine ⟨x', (hx.convert_eq hu).trans hx', ?_⟩
  rw [convert_reduced hw hu h hx.neg, ← (denotes_ofInt? hv hx').neg]
  exact ofInt?_congr hv Int.bmod_neg_bmod.symm

theorem convert_binary (hy : y.Denotes t b) (hop : op ∈ [BinaryOp.add, .sub, .mul]) :
    ∃ x' y' z z', x.convert u = some x' ∧ y.convert u = some y' ∧ binary op x y = .ok z ∧
      z.convert u = some z' ∧ binary op x' y' = .ok z' := by
  obtain ⟨v, hv⟩ := width?_of_isIntegral hu
  obtain ⟨x', hx'⟩ := ofInt?_of_width hv a
  obtain ⟨y', hy'⟩ := ofInt?_of_width hv b
  obtain ⟨n, k, hn, hk, hnk⟩ := onInt?_reduced (2 ^ v) hop a b
  obtain ⟨z, hz, hbin⟩ := binary_exact hw hx hy hn
  obtain ⟨z', hz', hbin'⟩ := binary_exact hv (denotes_ofInt? hv hx') (denotes_ofInt? hv hy') hk
  refine ⟨x', y', z, z', (hx.convert_eq hu).trans hx', (hy.convert_eq hu).trans hy', hbin, ?_,
    hbin'⟩
  rw [convert_reduced hw hu h hz, ← hz']
  exact ofInt?_congr hv hnk.symm

end

/-! ## The laws -/

theorem twosComplement (hw : t.width? = some w) : TwosComplement t w where
  range := by
    rintro x rfl
    obtain ⟨n, hn⟩ := denotes_of_width hw
    exact ⟨n, hn, hn.range hw⟩
  value hlo hhi := by
    obtain ⟨x, hx⟩ := ofInt?_of_width hw _
    have hd := denotes_ofInt? hw hx
    rw [(bmod_eq_self_iff hw).mpr ⟨hlo, hhi⟩] at hd
    exact ⟨x, hd, fun y hy => hd.unique hy⟩
  add hx hy := yields_exact hw hx hy rfl
  sub hx hy := yields_exact hw hx hy rfl
  mul hx hy := yields_exact hw hx hy rfl
  div_fails hx hy := divides_zero_iff hw hx hy (.inl rfl)
  rem_fails hx hy := divides_zero_iff hw hx hy (.inr rfl)
  div_rem hx hy hb := div_rem_exact hw hx hy hb
  compare hx hy := compare_exact hx hy
  step d hx := by
    obtain ⟨y, hy⟩ := ofInt?_of_width hw d
    exact ⟨y, hy, binary_add_ofInt (hx ▸ hy)⟩
  neg hx := by
    subst hx
    obtain ⟨n, hn⟩ := denotes_of_width hw
    obtain ⟨z, hz⟩ := zero?_isSome (Ty.isNumeric_of_isIntegral (isIntegral_of_width hw))
    exact ⟨z, hz, binary_zero_sub hn.toInt hz⟩
  fits u hx := by
    subst hx
    obtain ⟨n, hn⟩ := denotes_of_width hw
    rw [hn.toInt]
    exact fits_iff_convert hn.toInt u
  widen hx hu h := by
    subst hx
    exact convert_widen hw hu h
  narrow hx hy hu h op hop := by
    subst hx
    obtain ⟨a, ha⟩ := denotes_of_width hw
    obtain ⟨b, hb⟩ := denotes_of_width (hy ▸ hw)
    exact convert_binary hw ha hu h (hy ▸ hb) hop
  narrow_neg hx hu h := by
    subst hx
    obtain ⟨a, ha⟩ := denotes_of_width hw
    exact convert_neg hw ha hu h

theorem binary_mismatch (op : BinaryOp) {x y : Scalar} (h : x.ty ≠ y.ty) :
    binary op x y = .error (.operandMismatch x.ty y.ty) := by
  cases x <;> cases y <;> first | rfl | exact absurd rfl h

/-- Arithmetic on values of each integral type is two's complement arithmetic in the bits of that
type, and no operator takes operands of two types. -/
theorem integral_arithmetic :
    TwosComplement .short 16 ∧ TwosComplement .int 32 ∧ TwosComplement .long 64 ∧
      ∀ (op : BinaryOp) (x y : Scalar), x.ty ≠ y.ty →
        binary op x y = .error (.operandMismatch x.ty y.ty) :=
  ⟨twosComplement rfl, twosComplement rfl, twosComplement rfl, fun op _ _ => binary_mismatch op⟩

end Scalar
end Cascade
