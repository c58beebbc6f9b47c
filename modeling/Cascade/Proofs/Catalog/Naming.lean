import Cascade.Proofs.Catalog.Paths

/-!
# Cascade.Proofs.Catalog.Naming

Dotted names of members, and reading them back.

* `joined_injective`: names without dots can be told from the text in which dots join them.
* `Catalog.dotted_injective`: the class and the simple name can be told from a dotted name.
* `Catalog.memberName_injective`: no two members of one kind have one dotted name.
-/

namespace Cascade

open Syntax

def Dotless (s : String) : Prop := '.' ∉ s.toList

instance (s : String) : Decidable (Dotless s) := inferInstanceAs (Decidable (_ ∉ _))

/-- The names that a program gives to its classes and members have no dots in them. -/
structure Syntax.Program.Dotless (p : Program) : Prop where
  classes : ∀ c ∈ p.preorder, Cascade.Dotless c.name.name
  fields : ∀ d ∈ Program.fields p, Cascade.Dotless d.name.name
  methods : ∀ d ∈ Program.methods p, Cascade.Dotless d.name.name

/-- Splitting at the dots undoes joining with dots. -/
theorem joined_injective {ns ms : List String} (hns : ns ≠ []) (hms : ms ≠ [])
    (hn : ∀ n ∈ ns, Dotless n) (hm : ∀ n ∈ ms, Dotless n)
    (h : String.intercalate "." ns = String.intercalate "." ms) : ns = ms := by
  have hsplit {ks : List String} (hne : ks ≠ []) (hk : ∀ n ∈ ks, Dotless n) :
      ((String.intercalate "." ks).split '.').toList.map (fun s => s.copy) = ks := by
    have := String.toList_split_intercalate hk
    rwa [if_neg hne] at this
  rw [← hsplit hns hn, ← hsplit hms hm, h]

namespace Catalog

variable {p : Program} {t : Catalog}

theorem Chain.names {c : ClassId} {ns : List String} (h : Chain t c ns) :
    ∀ n ∈ ns, ∃ (i : ClassId) (e : ClassEntry), t.classes[i]? = some e ∧ e.name = n := by
  induction h with
  | root he _ =>
    intro n hn
    obtain rfl := List.mem_singleton.mp hn
    exact ⟨_, _, he, rfl⟩
  | nested he _ _ ih =>
    intro n hn
    obtain hn | hn := List.mem_append.mp hn
    · exact ih n hn
    · obtain rfl := List.mem_singleton.mp hn
      exact ⟨_, _, he, rfl⟩

theorem Chain.dotless (h : build p = .ok t) (hp : p.Dotless) {c : ClassId} {ns : List String}
    (hc : Chain t c ns) : ∀ n ∈ ns, Dotless n := by
  intro n hn
  obtain ⟨i, e, hi, rfl⟩ := hc.names n hn
  obtain ⟨d, hd, hname, -⟩ := build_entry h hi
  rw [hname]
  exact hp.classes d (List.mem_of_getElem? hd)

theorem build_dotless (h : build p = .ok t) (hp : p.Dotless) {k : MemberKind} {i : Nat}
    {e : MemberEntry} (he : (t.members k)[i]? = some e) : Dotless e.name := by
  obtain ⟨c, d, hd, rfl⟩ := (build_declared h).mp he
  have hmem : d ∈ p.headings k := List.mem_of_getElem? (declares_iff.mpr ⟨c, hd⟩)
  cases k with
  | field =>
    rw [headings_fields] at hmem
    obtain ⟨f, hf, rfl⟩ := List.mem_map.mp hmem
    exact hp.fields f hf
  | method =>
    rw [headings_methods] at hmem
    obtain ⟨m, hm, rfl⟩ := List.mem_map.mp hmem
    exact hp.methods m hm

/-- The dotted name of a member joins the chain of its class and its simple name. -/
theorem memberName_joined (h : build p = .ok t) {k : MemberKind} {i : Nat} {e : MemberEntry}
    (he : (t.members k)[i]? = some e) : ∃ ns, Chain t e.owner ns ∧
      t.memberName k i = .ok (String.intercalate "." ns ++ "." ++ e.name) := by
  obtain ⟨ns, hns⟩ := build_chain h _ ((build_indexed h).owners he)
  exact ⟨ns, hns, by simp only [memberName, memberAt, he, className_chain h hns]⟩

theorem memberName_exists (h : build p = .ok t) {k : MemberKind} {i : Nat}
    (hi : i < (t.members k).length) : ∃ name, t.memberName k i = .ok name := by
  obtain ⟨ns, -, hname⟩ := memberName_joined h (List.getElem?_eq_getElem hi)
  exact ⟨_, hname⟩

/-- A dotted name of a member is never a name without dots. -/
theorem memberName_dotted {k : MemberKind} {i : Nat} {name : String}
    (h : t.memberName k i = .ok name) : ¬Dotless name := by
  unfold memberName at h
  split at h
  · cases h
  split at h
  · cases h
  cases h
  simp [Dotless]

/-- Both the class and the simple name of a member can be told from its dotted name. -/
theorem dotted_injective (h : build p = .ok t) (hp : p.Dotless) {c d : ClassId}
    {ns ms : List String} (hns : Chain t c ns) (hms : Chain t d ms) {x y : String}
    (hx : Dotless x) (hy : Dotless y)
    (heq : String.intercalate "." ns ++ "." ++ x = String.intercalate "." ms ++ "." ++ y) :
    c = d ∧ x = y := by
  have hjoined : ns ++ [x] = ms ++ [y] := by
    refine joined_injective (by simp) (by simp) ?_ ?_ ?_
    · exact List.forall_mem_append.mpr ⟨hns.dotless h hp, by simpa using hx⟩
    · exact List.forall_mem_append.mpr ⟨hms.dotless h hp, by simpa using hy⟩
    · rwa [String.intercalate_append_of_ne_nil hns.ne_nil (List.cons_ne_nil _ _),
        String.intercalate_append_of_ne_nil hms.ne_nil (List.cons_ne_nil _ _),
        String.intercalate_singleton, String.intercalate_singleton]
  obtain ⟨rfl, hxy⟩ := List.append_inj' hjoined rfl
  have hsame : some c = some d :=
    ((class?_iff_chain h ns c).mpr hns).symm.trans ((class?_iff_chain h ns d).mpr hms)
  exact ⟨Option.some.inj hsame, List.singleton_inj.mp hxy⟩

theorem memberName_lt {k : MemberKind} {i : Nat} {name : String} (h : t.memberName k i = .ok name) :
    i < (t.members k).length := by
  unfold memberName at h
  split at h
  · cases h
  rename_i e he
  exact (List.getElem?_eq_some_iff.mp (memberAt_ok.mp he)).1

theorem memberName_injective (h : build p = .ok t) (hp : p.Dotless) {k : MemberKind} {i j : Nat}
    {name : String} (hi : t.memberName k i = .ok name) (hj : t.memberName k j = .ok name) :
    i = j := by
  have he := List.getElem?_eq_getElem (memberName_lt hi)
  have he' := List.getElem?_eq_getElem (memberName_lt hj)
  obtain ⟨ns, hns, hname⟩ := memberName_joined h he
  obtain ⟨ms, hms, hname'⟩ := memberName_joined h he'
  have heq := Except.ok.inj ((hname.symm.trans hi).trans (hj.symm.trans hname'))
  obtain ⟨hc, hx⟩ :=
    dotted_injective h hp hns hms (build_dotless h hp he) (build_dotless h hp he') heq
  have hfound := (build_member?_entry h).mpr ⟨_, he, hc, hx⟩
  have hfound' := (build_member?_entry h).mpr ⟨_, he', rfl, rfl⟩
  exact Option.some.inj (hfound.symm.trans hfound')

end Catalog

end Cascade
