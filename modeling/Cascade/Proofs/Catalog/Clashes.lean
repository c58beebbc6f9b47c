import Cascade.Proofs.Catalog.Paths

/-!
# Cascade.Proofs.Catalog.Clashes

Which programs have a class table, and what is reported about the others.

* `Catalog.Clash`: the clash that is to be reported.
* `Catalog.EachOnce`: the table has one entry for each declaration.
* `Catalog.build_judged`: a table is refused exactly where names clash within a class; what is
  reported then, and what the table holds otherwise.
-/

namespace Cascade

open Syntax

namespace Catalog

inductive Clash (p : Program) : Rejection → Prop where
  /-- The first class that is met after a sibling of its name. -/
  | sibling {e d : ClassDecl} (h : FirstRepeat ClassDecl.name p.inner e d) :
      Clash p (.duplicateClass d.name.name e.name.span d.name.span)
  /-- The first field that repeats a name in the first class whose members clash, or the first
  method that does, if its fields do not clash. -/
  | member {k : MemberKind} {before after : List ClassDecl} {c : ClassDecl} {e d : Heading}
      (hclasses : ∀ c ∈ p.preorder, DistinctNames ClassDecl.name c.nested)
      (hp : p.preorder = before ++ c :: after) (hbefore : ∀ b ∈ before, DistinctMembers b)
      (hfields : k = .method → DistinctNames Heading.name (c.headings .field))
      (h : FirstRepeat Heading.name (inOrder [] (c.headings k)) e d) :
      Clash p (.duplicateMember c.name.name d.name.name e.name.span d.name.span)

theorem memberClash?_some {c : ClassDecl} {r : Rejection} : memberClash? c = some r ↔
    ∃ k e d, (k = .method → DistinctNames Heading.name (c.headings .field)) ∧
      FirstRepeat Heading.name (inOrder [] (c.headings k)) e d ∧
      r = .duplicateMember c.name.name d.name.name e.name.span d.name.span := by
  rw [memberClash?, Option.or_eq_some_iff, firstClash?_none, inOrder_distinct distinctNames_nil,
    firstClash?_some (inOrder_orderly distinctNames_nil),
    firstClash?_some (inOrder_orderly distinctNames_nil)]
  constructor
  · rintro (⟨e, d, h, rfl⟩ | ⟨hfields, e, d, h, rfl⟩)
    · exact ⟨.field, e, d, (fun hk => by cases hk), h, rfl⟩
    · exact ⟨.method, e, d, fun _ => hfields, h, rfl⟩
  · rintro ⟨k, e, d, hfields, h, rfl⟩
    cases k with
    | field => exact .inl ⟨e, d, h, rfl⟩
    | method => exact .inr ⟨hfields rfl, e, d, h, rfl⟩

theorem rejection?_some {p : Program} {r : Rejection} : rejection? p = some r ↔ Clash p r := by
  rw [rejection?, Option.or_eq_some_iff, firstClash?_some (ClassDecl.inner_orderly p),
    classClash_none, List.findSome?_eq_some_iff]
  simp only [memberClash?_none, memberClash?_some]
  constructor
  · rintro (⟨e, d, h, rfl⟩ | ⟨hclasses, before, c, after, hp, ⟨k, e, d, hf, h, rfl⟩, hbefore⟩)
    · exact .sibling h
    · exact .member hclasses hp hbefore hf h
  · intro h
    cases h with
    | sibling h => exact .inl ⟨_, _, h, rfl⟩
    | member hclasses hp hbefore hfields h =>
      exact .inr ⟨hclasses, _, _, _, hp, ⟨_, _, _, hfields, h, rfl⟩, hbefore⟩

/-- One entry for each declaration of a program, and no others. -/
structure EachOnce (p : Program) (t : Catalog) : Prop where
  classes : t.classes.length = p.preorder.length
  fields : t.fields.length = (Program.fields p).length
  methods : t.methods.length = (Program.methods p).length
  root : ∃! i : ClassId, t.classes[i]? = some (.ofDecl i (none, p))
  /-- A nested class is entered below its own class. -/
  nested : ∀ (c : ClassId) cd, p.preorder[c]? = some cd → ∀ d ∈ cd.nested,
    ∃! i : ClassId, t.classes[i]? = some (.ofDecl i (some c, d))
  member : ∀ (k : MemberKind) (c : ClassId) cd, p.preorder[c]? = some cd →
    ∀ d ∈ cd.headings k, ∃! i : Nat, (t.members k)[i]? = some (.ofDecl i (c, d))

theorem build_once {p : Program} {t : Catalog} (h : build p = .ok t) : EachOnce p t := by
  have hindexed := build_indexed h
  refine ⟨hindexed.classes, hindexed.fields, hindexed.methods, ?_, fun c cd hc d hd => ?_,
    fun k c cd hc d hd => ?_⟩
  · refine ⟨root, (build_class h).mpr ⟨_, ?_, rfl⟩, fun i hi => (root_iff h hi).mp rfl⟩
    cases p
    rfl
  · obtain ⟨l, hl, rfl⟩ : ∃ l, (links root none p)[c]? = some l ∧ l.2 = cd := by
      rw [← links_snd p root none, List.getElem?_map] at hc
      exact Option.map_eq_some_iff.mp hc
    have hchildren := links_children (by simp) hl
    rw [root, Nat.zero_add, ← root] at hchildren
    have hmem : (some c, d) ∈ childrenOf c (links root none p) := by
      rw [hchildren]
      exact List.mem_map_of_mem hd
    obtain ⟨i, hi⟩ := List.mem_iff_getElem?.mp (List.mem_filter.mp hmem).1
    have hentry := (build_class h).mpr ⟨_, hi, rfl⟩
    have hfound := (build_nested h).mpr ⟨_, hentry, rfl, rfl⟩
    refine ⟨i, hentry, fun j hj => ?_⟩
    exact Option.some.inj (((build_nested h).mpr ⟨_, hj, rfl, rfl⟩).symm.trans hfound)
  · obtain ⟨j, hj⟩ := List.mem_iff_getElem?.mp hd
    have hdeclares : Declares (·.headings k) p c d _ := ⟨cd, j, hc, hj, rfl⟩
    have hfound := (build_member? h).mpr ⟨d, hdeclares, rfl⟩
    refine ⟨_, (build_declared h).mpr ⟨c, d, hdeclares, rfl⟩, fun i hi => ?_⟩
    exact Option.some.inj (((build_member?_entry h).mpr ⟨_, hi, rfl, rfl⟩).symm.trans hfound)

/-- What becomes of a program. -/
structure Judged (p : Program) : Prop where
  /-- No table is made where two classes nested in one class, two of its fields or two of its
  methods have one name, and nowhere else. -/
  fails : (∃ e, build p = .error e) ↔
    ∃ c ∈ p.preorder, ¬(DistinctNames ClassDecl.name c.nested ∧ DistinctMembers c)
  /-- Siblings of one name are reported whatever the members are. -/
  siblings : (∃ x earlier span, build p = .error (.rejected (.duplicateClass x earlier span))) ↔
    ∃ c ∈ p.preorder, ¬DistinctNames ClassDecl.name c.nested
  report : ∀ e, build p = .error e ↔ ∃ r, e = .rejected r ∧ Clash p r
  /-- Classes are met in the order of their numbers, each with the siblings that its own class
  declares before it. -/
  met : p :: p.inner.map Prod.snd = p.preorder ∧
    ∀ s, s ∈ p.inner ↔ ∃ c ∈ p.preorder, s ∈ inOrder [] c.nested
  table : ∀ t, build p = .ok t → EachOnce p t

/-- Every program has a table, or else the first clash of names in it is reported. -/
theorem build_judged (p : Program) : Judged p := by
  have herror : ∀ e, build p = .error e ↔ ∃ r, e = .rejected r ∧ Clash p r := fun e => by
    simp only [build_error, rejection?_some, and_comm]
  have hfirst : ∀ r, firstClash? .duplicateClass ClassDecl.name p.inner = some r ↔ _ :=
    fun r => firstClash?_some p.inner_orderly
  refine ⟨?_, ?_, herror, ⟨p.inner_preorder, fun s => ClassDecl.mem_inner⟩, fun t => build_once⟩
  · have hreported : (∃ e, build p = .error e) ↔ rejection? p ≠ none := by
      rw [build_eq]
      cases rejection? p <;> simp
    simp only [hreported, ne_eq, rejection?_none, not_forall, exists_prop]
  · constructor
    · rintro ⟨x, earlier, span, h⟩
      obtain ⟨r, he, hclash⟩ := (herror _).mp h
      cases he
      cases hclash with
      | sibling hrepeat =>
        have hsome := (hfirst _).mpr ⟨_, _, hrepeat, rfl⟩
        have hnot := mt classClash_none.mpr (by rw [hsome]; simp)
        simpa using hnot
    · rintro ⟨c, hc, hnot⟩
      cases hr : firstClash? .duplicateClass ClassDecl.name p.inner with
      | none => exact absurd (classClash_none.mp hr c hc) hnot
      | some r =>
        obtain ⟨e, d, h, rfl⟩ := (hfirst r).mp hr
        exact ⟨_, _, _, (herror _).mpr ⟨_, rfl, .sibling h⟩⟩

open Syntax.Build in
/-- The second `X` is nested in the first `A`, so it is met before the second `A`. -/
example : build (withNested (withNested (emptyClass "Main")
      (withNested (withNested (emptyClass "A") (emptyClass "X")) (emptyClass "X")))
      (emptyClass "A")) = .error (.rejected (.duplicateClass "X" .zero .zero)) := rfl

end Catalog

end Cascade
