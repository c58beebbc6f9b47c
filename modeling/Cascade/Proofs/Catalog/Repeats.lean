import Cascade.Catalog.Basic
import Mathlib.Data.List.Nodup

/-!
# Cascade.Proofs.Catalog.Repeats

Declarations with the name of one that stands before them.

* `Repeats`, `FirstRepeat`: such a declaration, and the first one that is met.
* `firstClash?_some`: what a search for the first one finds.
* `ClassDecl.inner`: all classes but the root in the order in which they are met, each with the
  siblings before it.
-/

namespace Cascade

open Syntax

/-! ## Repeated names -/

section Repeats

variable {δ : Type} (report : String → Span → Span → Rejection) (ident : δ → Ident)

def DistinctNames (ds : List δ) : Prop := (ds.map fun d => (ident d).name).Nodup

/-- Each of some declarations, with the ones before it. -/
def inOrder (earlier : List δ) : List δ → List (List δ × δ)
  | [] => []
  | d :: ds => (earlier, d) :: inOrder (earlier ++ [d]) ds

/-- The declaration has the name of one before it. -/
def Repeats (s : List δ × δ) : Prop := ∃ e ∈ s.1, (ident e).name = (ident s.2).name

/-- No declaration that is met before `d` has the name of one before it; `d` has that of `e`. -/
def FirstRepeat (ss : List (List δ × δ)) (e d : δ) : Prop :=
  ∃ before earlier after, ss = before ++ (earlier, d) :: after ∧
    (∀ s ∈ before, ¬Repeats ident s) ∧ e ∈ earlier ∧ (ident e).name = (ident d).name

/-- As long as no name is repeated, each declaration is met after others of different names. -/
inductive Orderly : List (List δ × δ) → Prop where
  | nil : Orderly []
  | cons {s : List δ × δ} {ss : List (List δ × δ)} (hs : DistinctNames ident s.1)
      (hss : ¬Repeats ident s → Orderly ss) : Orderly (s :: ss)

def clash? (s : List δ × δ) : Option Rejection :=
  (s.1.find? fun e => (ident e).name == (ident s.2).name).map fun e =>
    report (ident s.2).name (ident e).span (ident s.2).span

def firstClash? (ss : List (List δ × δ)) : Option Rejection :=
  ss.findSome? (clash? report ident)

variable {report ident} {earlier ds : List δ} {ss : List (List δ × δ)}

theorem clash?_none {s : List δ × δ} : clash? report ident s = none ↔ ¬Repeats ident s := by
  simp [clash?, Repeats]

theorem clash?_some {s : List δ × δ} (hs : DistinctNames ident s.1) {e : δ} (he : e ∈ s.1)
    (hname : (ident e).name = (ident s.2).name) :
    clash? report ident s = some (report (ident s.2).name (ident e).span (ident s.2).span) := by
  unfold clash?
  cases hfind : s.1.find? fun e => (ident e).name == (ident s.2).name with
  | none => exact absurd hname (by simpa using List.find?_eq_none.mp hfind e he)
  | some e' =>
    have hname' : (ident e').name = (ident s.2).name := by simpa using List.find?_some hfind
    obtain rfl : e' = e := List.inj_on_of_nodup_map hs (List.mem_of_find?_eq_some hfind) he
      (hname'.trans hname.symm)
    rfl

theorem firstClash?_none : firstClash? report ident ss = none ↔ ∀ s ∈ ss, ¬Repeats ident s := by
  simp [firstClash?, clash?_none]

theorem firstClash?_append (ss ss' : List (List δ × δ)) : firstClash? report ident (ss ++ ss') =
    (firstClash? report ident ss).or (firstClash? report ident ss') :=
  List.findSome?_append

theorem firstRepeat_cons {s : List δ × δ} {e d : δ} : FirstRepeat ident (s :: ss) e d ↔
    (d = s.2 ∧ e ∈ s.1 ∧ (ident e).name = (ident d).name) ∨
      (¬Repeats ident s ∧ FirstRepeat ident ss e d) := by
  constructor
  · rintro ⟨before, earlier, after, hsplit, hbefore, he, hname⟩
    cases before with
    | nil =>
      cases hsplit
      exact .inl ⟨rfl, he, hname⟩
    | cons b before =>
      cases hsplit
      exact .inr ⟨hbefore _ List.mem_cons_self,
        before, earlier, after, rfl, fun s hs => hbefore s (List.mem_cons_of_mem _ hs), he, hname⟩
  · rintro (⟨rfl, he, hname⟩ | ⟨hs, before, earlier, after, rfl, hbefore, he, hname⟩)
    · exact ⟨[], s.1, ss, rfl, fun _ h => (List.not_mem_nil h).elim, he, hname⟩
    · exact ⟨s :: before, earlier, after, rfl, List.forall_mem_cons.mpr ⟨hs, hbefore⟩, he, hname⟩

/-- The search stops at the first repeat. Only one declaration before it has its name, for that one
would have been found to repeat another. -/
theorem firstClash?_some (h : Orderly ident ss) {r : Rejection} :
    firstClash? report ident ss = some r ↔ ∃ e d, FirstRepeat ident ss e d ∧
      r = report (ident d).name (ident e).span (ident d).span := by
  induction h with
  | nil => simp [firstClash?, FirstRepeat]
  | @cons s ss hs _ ih =>
    simp only [firstRepeat_cons, firstClash?, List.findSome?_cons]
    by_cases hrepeats : Repeats ident s
    · constructor
      · obtain ⟨e, he, hname⟩ := hrepeats
        rw [clash?_some hs he hname]
        rintro ⟨⟩
        exact ⟨e, s.2, .inl ⟨rfl, he, hname⟩, rfl⟩
      · rintro ⟨e, d, ⟨rfl, he, hname⟩ | ⟨hno, -⟩, rfl⟩
        · rw [clash?_some hs he hname]
        · exact absurd hrepeats hno
    · have hfirst : ∀ e d, ¬(d = s.2 ∧ e ∈ s.1 ∧ (ident e).name = (ident d).name) := by
        rintro e d ⟨rfl, he, hname⟩
        exact hrepeats ⟨e, he, hname⟩
      rw [clash?_none.mpr hrepeats]
      simpa [hrepeats, hfirst, firstClash?] using ih hrepeats

theorem Orderly.append {ss' : List (List δ × δ)} (h : Orderly ident ss)
    (h' : Orderly ident ss') : Orderly ident (ss ++ ss') := by
  induction h with
  | nil => exact h'
  | cons hs _ ih => exact .cons hs ih

theorem distinctNames_concat {d : δ} (h : DistinctNames ident earlier)
    (hd : ¬Repeats ident (earlier, d)) : DistinctNames ident (earlier ++ [d]) := by
  unfold DistinctNames
  rw [List.map_append, List.map_singleton]
  refine h.append (List.nodup_singleton _) ?_
  simpa [Repeats] using hd

theorem inOrder_orderly (h : DistinctNames ident earlier) :
    Orderly ident (inOrder earlier ds) := by
  induction ds generalizing earlier with
  | nil => exact .nil
  | cons d ds ih => exact .cons h fun hd => ih (distinctNames_concat h hd)

theorem distinctNames_nil : DistinctNames ident [] := List.nodup_nil

/-- Names are distinct exactly where no declaration repeats one. -/
theorem inOrder_distinct (h : DistinctNames ident earlier) :
    (∀ s ∈ inOrder earlier ds, ¬Repeats ident s) ↔ DistinctNames ident (earlier ++ ds) := by
  induction ds generalizing earlier with
  | nil => simpa [inOrder] using h
  | cons d ds ih =>
    rw [inOrder, List.forall_mem_cons]
    constructor
    · rintro ⟨hd, hds⟩
      simpa using (ih (distinctNames_concat h hd)).mp hds
    · intro hall
      have hd : ¬Repeats ident (earlier, d) := by
        rintro ⟨e, he, hname⟩
        unfold DistinctNames at hall
        rw [List.map_append] at hall
        exact (List.nodup_append.mp hall).2.2 _ (List.mem_map_of_mem he) _
          (List.mem_map_of_mem List.mem_cons_self) hname
      exact ⟨hd, (ih (distinctNames_concat h hd)).mpr (by simpa using hall)⟩

end Repeats

/-! ## Classes in the order in which they are met -/

namespace Syntax

mutual

/-- All classes nested in a class at any depth, each with the siblings before it. A class is met
before what is nested in it, and that before its younger siblings. -/
def ClassDecl.inner : ClassDecl → List (List ClassDecl × ClassDecl)
  | ⟨_, _, _, nested, _⟩ => ClassDecl.innerAll [] nested

def ClassDecl.innerAll (earlier : List ClassDecl) : List ClassDecl →
    List (List ClassDecl × ClassDecl)
  | [] => []
  | d :: ds => (earlier, d) :: (d.inner ++ ClassDecl.innerAll (earlier ++ [d]) ds)

end

mutual

/-- Classes are met in the order of their numbers. -/
theorem ClassDecl.inner_preorder : ∀ d : ClassDecl,
    d :: d.inner.map Prod.snd = d.preorder
  | ⟨_, _, _, nested, _⟩ => by
    rw [ClassDecl.inner, ClassDecl.preorder, ClassDecl.innerAll_preorder [] nested]

theorem ClassDecl.innerAll_preorder (earlier : List ClassDecl) : ∀ ds : List ClassDecl,
    (ClassDecl.innerAll earlier ds).map Prod.snd = ClassDecl.preorderAll ds
  | [] => rfl
  | d :: ds => by
    rw [ClassDecl.innerAll, ClassDecl.preorderAll, ← ClassDecl.inner_preorder d, List.map_cons,
      List.map_append, ClassDecl.innerAll_preorder (earlier ++ [d]) ds, List.cons_append]

end

mutual

/-- The siblings before a class are the ones that its own class declares before it. -/
theorem ClassDecl.mem_inner : ∀ {d : ClassDecl} {s : List ClassDecl × ClassDecl},
    s ∈ d.inner ↔ ∃ c ∈ d.preorder, s ∈ inOrder [] c.nested
  | ⟨name, fields, methods, nested, span⟩, s => by
    rw [ClassDecl.inner, ClassDecl.preorder, ClassDecl.mem_innerAll]
    simp only [List.mem_cons, exists_eq_or_imp]

theorem ClassDecl.mem_innerAll : ∀ {ds earlier : List ClassDecl} {s : List ClassDecl × ClassDecl},
    s ∈ ClassDecl.innerAll earlier ds ↔
      s ∈ inOrder earlier ds ∨ ∃ c ∈ ClassDecl.preorderAll ds, s ∈ inOrder [] c.nested
  | [], _, _ => by simp [ClassDecl.innerAll, inOrder, ClassDecl.preorderAll]
  | d :: ds, earlier, s => by
    simp only [ClassDecl.innerAll, inOrder, ClassDecl.preorderAll, List.mem_cons, List.mem_append,
      ClassDecl.mem_inner, ClassDecl.mem_innerAll, or_and_right, exists_or]
    exact (or_congr_right or_left_comm).trans or_assoc.symm

end

mutual

theorem ClassDecl.inner_orderly : ∀ d : ClassDecl, Orderly ClassDecl.name d.inner
  | ⟨_, _, _, nested, _⟩ => by
    rw [ClassDecl.inner]
    exact ClassDecl.innerAll_orderly nested distinctNames_nil

theorem ClassDecl.innerAll_orderly : ∀ (ds : List ClassDecl) {earlier : List ClassDecl},
    DistinctNames ClassDecl.name earlier →
    Orderly ClassDecl.name (ClassDecl.innerAll earlier ds)
  | [], _, _ => .nil
  | d :: ds, _, h => .cons h fun hd =>
    (ClassDecl.inner_orderly d).append (ClassDecl.innerAll_orderly ds (distinctNames_concat h hd))

end

end Syntax

end Cascade
