import Cascade.Proofs.Catalog

/-!
# Cascade.Proofs.Catalog.Chains

Classes by the names from the root down to them.

* `Catalog.build_around`: each entry is at the place that its declaration has in `preorder`; it
  links to the class around it, which stands before it and declares it.
* `Catalog.Chain`: the names from the root down to a class, read upwards along those links.
* `Catalog.className_chain`: the dotted name of a class joins them.
* `Catalog.class?_iff_chain`: going down along names ends at exactly the class whose chain they
  are.
-/

namespace Cascade

open Syntax

namespace Catalog

variable {p : Program} {t : Catalog}

/-! ## Links -/

theorem build_entry (h : build p = .ok t) {c : ClassId} {e : ClassEntry}
    (he : t.classes[c]? = some e) : ∃ d, p.preorder[c]? = some d ∧ e.name = d.name.name ∧
      e.span = d.name.span := by
  obtain ⟨o, ho, rfl⟩ := (build_class h).mp he
  refine ⟨o.2, ?_, rfl, rfl⟩
  rw [← links_snd p root none, List.getElem?_map, ho]
  rfl

/-- Only the root has no class around it. That of any other class stands before it and declares
it. -/
theorem build_around (h : build p = .ok t) {c : ClassId} {e : ClassEntry}
    (he : t.classes[c]? = some e) : (c = root ∧ e.parent = none) ∨
      ∃ q d dq, e.parent = some q ∧ q < c ∧ p.preorder[c]? = some d ∧ p.preorder[q]? = some dq ∧
        d ∈ dq.nested := by
  obtain ⟨o, ho, rfl⟩ := (build_class h).mp he
  obtain ⟨rfl, rfl⟩ | ⟨q, hq, -, hlt⟩ := links_around ho
  · exact .inl ⟨rfl, rfl⟩
  rw [root, Nat.zero_add] at hlt
  obtain ⟨l, hl⟩ : ∃ l, (links root none p)[q]? = some l :=
    ⟨_, List.getElem?_eq_getElem (Nat.lt_trans hlt (List.getElem?_eq_some_iff.mp ho).1)⟩
  have hmem : o ∈ childrenOf q (links root none p) := by
    rw [childrenOf, List.mem_filter, hq]
    exact ⟨List.mem_of_getElem? ho, beq_self_eq_true _⟩
  have hchildren := links_children (by simp) hl
  rw [root, Nat.zero_add, ← root] at hchildren
  rw [hchildren] at hmem
  obtain ⟨d, hd, rfl⟩ := List.mem_map.mp hmem
  refine .inr ⟨q, d, l.2, rfl, hlt, ?_, ?_, hd⟩
  · rw [← links_snd p root none, List.getElem?_map, ho]
    rfl
  · rw [← links_snd p root none, List.getElem?_map, hl]
    rfl

theorem root_iff (h : build p = .ok t) {c : ClassId} {e : ClassEntry}
    (he : t.classes[c]? = some e) : e.parent = none ↔ c = root := by
  obtain ⟨rfl, hp⟩ | ⟨q, -, -, hp, hlt, -⟩ := build_around h he
  · simp [hp]
  · have hne : c ≠ root := Nat.ne_zero_of_lt hlt
    simp [hp, hne]

/-! ## Chains -/

/-- The names from the root down to a class, read upwards along the links to the class around
each one. -/
inductive Chain (t : Catalog) : ClassId → List String → Prop where
  | root {c : ClassId} {e : ClassEntry} (he : t.classes[c]? = some e) (hp : e.parent = none) :
      Chain t c [e.name]
  | nested {c q : ClassId} {e : ClassEntry} {ns : List String} (he : t.classes[c]? = some e)
      (hp : e.parent = some q) (hq : Chain t q ns) : Chain t c (ns ++ [e.name])

theorem Chain.lt {c : ClassId} {ns : List String} (h : Chain t c ns) :
    c < t.classes.length := by
  cases h with
  | root he | nested he => exact (List.getElem?_eq_some_iff.mp he).1

theorem Chain.ne_nil {c : ClassId} {ns : List String} (h : Chain t c ns) :
    ns ≠ [] := by
  cases h with
  | root | nested => simp

theorem Chain.unique {c : ClassId} {ns ms : List String} (h : Chain t c ns)
    (h' : Chain t c ms) : ns = ms := by
  induction h generalizing ms with
  | root he hp =>
    cases h' with
    | root he' hp' =>
      obtain rfl := Option.some.inj (he.symm.trans he')
      rfl
    | nested he' hp' =>
      obtain rfl := Option.some.inj (he.symm.trans he')
      rw [hp] at hp'
      cases hp'
  | nested he hp hq ih =>
    cases h' with
    | root he' hp' =>
      obtain rfl := Option.some.inj (he.symm.trans he')
      rw [hp] at hp'
      cases hp'
    | nested he' hp' hq' =>
      obtain rfl := Option.some.inj (he.symm.trans he')
      obtain rfl := Option.some.inj (hp.symm.trans hp')
      rw [ih hq']

/-- Every class has a chain. -/
theorem build_chain (h : build p = .ok t) (c : ClassId) :
    c < t.classes.length → ∃ ns, Chain t c ns := by
  induction c using Nat.strongRecOn with
  | ind c ih =>
    intro hc
    have he := List.getElem?_eq_getElem hc
    obtain ⟨-, hp⟩ | ⟨q, -, -, hp, hlt, -⟩ := build_around h he
    · exact ⟨_, .root he hp⟩
    · obtain ⟨ns, hns⟩ := ih q hlt (Nat.lt_trans hlt hc)
      exact ⟨_, .nested he hp hns⟩

/-- A class has no more classes around it than stand before it. -/
theorem Chain.length_le (h : build p = .ok t) {c : ClassId} {ns : List String}
    (hc : Chain t c ns) : ns.length ≤ c + 1 := by
  induction hc with
  | root => exact Nat.succ_le_succ (Nat.zero_le _)
  | nested he hp _ ih =>
    have hlt := (build_indexed h).parents he hp
    rw [List.length_append, List.length_singleton]
    exact Nat.succ_le_succ (Nat.le_trans ih hlt)

/-- Climbing from a class comes to all names of its chain. -/
theorem Chain.climb {c : ClassId} {ns : List String} (hc : Chain t c ns) :
    ∀ {n : Nat} {known : List String}, ns.length ≤ n → t.climb n c known = .ok (ns ++ known) := by
  induction hc with
  | root he hp =>
    intro n known hn
    obtain ⟨n, rfl⟩ := Nat.exists_eq_succ_of_ne_zero (Nat.ne_of_gt hn)
    simp [Catalog.climb, classAt, he, hp]
  | nested he hp _ ih =>
    intro n known hn
    rw [List.length_append, List.length_singleton] at hn
    obtain ⟨n, rfl⟩ := Nat.exists_eq_succ_of_ne_zero (Nat.ne_zero_of_lt hn)
    simp [Catalog.climb, classAt, he, hp, ih (Nat.le_of_succ_le_succ hn)]

theorem className_chain (h : build p = .ok t) {c : ClassId} {ns : List String}
    (hc : Chain t c ns) : t.className c = .ok (String.intercalate "." ns) := by
  have hlen := Nat.le_trans (hc.length_le h) hc.lt
  rw [className, hc.climb hlen, List.append_nil]

/-! ## Going down -/

theorem descend_concat (t : Catalog) (n : String) : ∀ (ns : List String) (c : ClassId),
    t.descend c (ns ++ [n]) = (t.descend c ns).bind (t.nested · n) := by
  intro ns
  induction ns with
  | nil =>
    intro c
    simp only [List.nil_append, descend, Option.bind_some]
    split <;> simp_all
  | cons m ns ih =>
    intro c
    simp only [List.cons_append, descend]
    split
    · rfl
    · exact ih _

theorem class?_concat (t : Catalog) {ns : List String} (hns : ns ≠ []) (n : String) :
    t.class? (ns ++ [n]) = (t.class? ns).bind (t.nested · n) := by
  obtain ⟨m, ns, rfl⟩ := List.exists_cons_of_ne_nil hns
  simp only [List.cons_append, class?]
  split
  · exact descend_concat t n ns root
  · rfl

theorem rootName_eq (h : build p = .ok t) {e : ClassEntry}
    (he : t.classes[root]? = some e) : t.rootName = e.name ∧ e.parent = none := by
  refine ⟨?_, (root_iff h he).mpr rfl⟩
  unfold Catalog.rootName
  rw [he]

/-- Going down along some names ends at the class whose chain they are, and at no other. -/
theorem class?_iff_chain (h : build p = .ok t) (ns : List String) :
    ∀ c, t.class? ns = some c ↔ Chain t c ns := by
  have hroot := (build_indexed h).root
  obtain ⟨hname, hnone⟩ := rootName_eq h (List.getElem?_eq_getElem hroot)
  induction ns using List.reverseRecOn with
  | nil =>
    intro c
    exact ⟨fun hc => by simp [class?] at hc, fun hc => absurd rfl hc.ne_nil⟩
  | append_singleton ns n ih =>
    intro c
    by_cases hns : ns = []
    · subst hns
      simp only [List.nil_append, class?, descend]
      constructor
      · intro hc
        split at hc
        · rename_i hn
          cases hc
          rw [hn, hname]
          exact .root (List.getElem?_eq_getElem hroot) hnone
        · cases hc
      · intro hc
        generalize hms : [n] = ms at hc
        cases hc with
        | root he hp =>
          cases hms
          obtain rfl := (root_iff h he).mp hp
          obtain rfl := Option.some.inj ((List.getElem?_eq_getElem hroot).symm.trans he)
          rw [if_pos hname.symm]
        | nested he hp hq =>
          exact absurd (List.append_eq_singleton_iff.mp hms.symm) (by simp [hq.ne_nil])
    · rw [class?_concat t hns, Option.bind_eq_some_iff]
      constructor
      · rintro ⟨q, hq, hc⟩
        obtain ⟨e, he, hp, rfl⟩ := (build_nested h).mp hc
        exact .nested he hp ((ih q).mp hq)
      · intro hc
        generalize hms : ns ++ [n] = ms at hc
        cases hc with
        | root he hp =>
          exact absurd (List.append_eq_singleton_iff.mp hms) (by simp [hns])
        | nested he hp hq =>
          obtain ⟨rfl, hn⟩ := List.append_inj' hms rfl
          cases hn
          exact ⟨_, (ih _).mpr hq, (build_nested h).mpr ⟨_, he, hp, rfl⟩⟩

end Catalog

end Cascade
