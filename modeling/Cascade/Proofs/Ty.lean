import Cascade.Coercion

/-!
# Cascade.Proofs.Ty

The promotion order of the numeric types, as the typing rules use it.

* `join_widens`: both operands widen to their common type.
* `between_ok`: what a coercion into a place says on the two types.
-/

namespace Cascade
namespace Ty

def Holds (t : Ty) (n : Int) : Prop := ∃ lo hi, t.range? = some (lo, hi) ∧ lo ≤ n ∧ n ≤ hi

theorem isNumeric_iff {t : Ty} : t.isNumeric = true ↔ t ≠ .void := by
  cases t <;> simp [isNumeric, rank?]

theorem isNumeric_of_isIntegral {t : Ty} (h : t.isIntegral = true) : t.isNumeric = true := by
  cases t <;> simp_all [isNumeric, isIntegral, rank?]

theorem isVoid_iff {t : Ty} : t.isVoid = true ↔ t = .void := by
  cases t <;> simp [isVoid]

theorem needValue_ok {t u : Ty} (h : t.needValue = .ok u) : u = t ∧ t.isNumeric = true := by
  cases t <;> simp_all [needValue, isVoid, isNumeric, rank?]

theorem widensTo_refl {t : Ty} (h : t.isNumeric = true) : t.widensTo t = true := by
  cases t <;> simp_all [widensTo, isNumeric, rank?]

theorem widensTo_trans {t u v : Ty} (h1 : t.widensTo u = true) (h2 : u.widensTo v = true) :
    t.widensTo v = true := by
  cases t <;> cases u <;> cases v <;> simp_all [widensTo, rank?]

theorem isNumeric_of_widensTo {t u : Ty} (h : t.widensTo u = true) :
    t.isNumeric = true ∧ u.isNumeric = true := by
  cases t <;> cases u <;> simp_all [widensTo, isNumeric, rank?]

theorem join_widens {t u v : Ty} (h : t.join u = some v) :
    t.widensTo v = true ∧ u.widensTo v = true ∧ v.isNumeric = true := by
  cases t <;> cases u <;> simp_all [join, rank?] <;> subst h <;>
    simp [widensTo, isNumeric, rank?]

theorem join_isSome {t u : Ty} (ht : t.isNumeric = true) (hu : u.isNumeric = true) :
    ∃ v, t.join u = some v := by
  cases t <;> cases u <;> simp_all [join, isNumeric, rank?]

theorem join_isIntegral {t u v : Ty} (h : t.join u = some v) (ht : t.isIntegral = true)
    (hu : u.isIntegral = true) : v.isIntegral = true := by
  cases t <;> cases u <;> simp_all [join, isIntegral, rank?] <;> subst h <;> rfl

theorem Holds.widen {t u : Ty} {n : Int} (h : t.Holds n) (hw : t.widensTo u = true)
    (hu : u.isIntegral = true) : u.Holds n := by
  obtain ⟨lo, hi, hr, h1, h2⟩ := h
  cases t <;> cases hr <;> cases u <;>
    first
    | exact ⟨_, _, rfl, by omega, by omega⟩
    | exact absurd hu (by decide)
    | exact absurd hw (by decide)

theorem binaryResult_ok {op : BinaryOp} {l r operand result : Ty}
    (h : binaryResult op l r = .ok (operand, result)) :
    l.join r = some operand ∧ result = if op.isComparison then truth else operand := by
  cases hj : l.join r with
  | none => simp [binaryResult, hj] at h
  | some t =>
    simp only [binaryResult, hj, Except.ok.injEq, Prod.mk.injEq] at h
    obtain ⟨rfl, rfl⟩ := h
    exact ⟨rfl, rfl⟩

theorem signResult_ok {op : SignOp} {t u : Ty} (h : signResult op t = .ok u) :
    t.isNumeric = true ∧ (match op with | .not => u = truth | _ => u = t) := by
  cases hn : t.needValue with
  | error e => simp [signResult, hn] at h
  | ok v =>
    obtain ⟨rfl, hv⟩ := needValue_ok hn
    rw [signResult, hn] at h
    refine ⟨hv, ?_⟩
    cases op <;> cases h <;> rfl

theorem updateResult_ok {t u : Ty} (h : updateResult t = .ok u) :
    u = t ∧ t.isIntegral = true := by
  cases t <;> simp_all [updateResult, needValue, isVoid, isIntegral]

end Ty

/-- What a successful coercion says: the types agree, or the source widens, or it is a constant
that fits. -/
theorem Coercion.between_ok {narrowing : Bool} {source target : Ty} {constant : Option Scalar}
    {c : Coercion} (h : between narrowing source target constant = .ok c) :
    source.isNumeric = true ∧ target.isNumeric = true ∧
      (source = target ∨ source.widensTo target = true ∨
        source.isIntegral = true ∧ target.isIntegral = true ∧
          ∃ v, constant = some v ∧ v.fits target = true) := by
  unfold between at h
  split at h
  · cases h
  rename_i hs
  split at h
  · cases h
  rename_i ht
  refine ⟨(Ty.needValue_ok hs).2, (Ty.needValue_ok ht).2, ?_⟩
  split at h
  · exact .inl ‹_›
  split at h
  · exact .inr (.inl ‹_›)
  split at h
  · rename_i v
    split at h
    · rename_i hfit
      simp only [Bool.and_eq_true] at hfit
      exact .inr (.inr ⟨hfit.1.1.2, hfit.1.2, v, rfl, hfit.2⟩)
    · cases h
  · cases h

end Cascade
