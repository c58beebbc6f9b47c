import Cascade.Proofs.Catalog.Registration

/-!
# Cascade.Proofs.Catalog

What the class table of a program holds.

* `Catalog.build_class`, `Catalog.build_members`: one entry for each class and each member, in the
  order of the classes, and nothing else.
* `Catalog.build_nested`, `Catalog.build_member?`: a look-up finds exactly the entry that it is
  for, since no two entries are looked up alike.
* `Catalog.Indexed`: the numbers that entries keep are numbers of entries.
-/

namespace Cascade

open Syntax

/-- A search by a key that no two things share finds exactly the one with that key. -/
theorem findIdx?_key {α κ : Type} {key : α → κ} {l : List α} (hl : (l.map key).Nodup)
    {p : α → Bool} {k : κ} (hp : ∀ a, p a = true ↔ key a = k) (i : Nat) :
    l.findIdx? p = some i ↔ ∃ a, l[i]? = some a ∧ key a = k := by
  rw [List.findIdx?_eq_some_iff_getElem]
  constructor
  · rintro ⟨hi, hpi, -⟩
    exact ⟨l[i], List.getElem?_eq_getElem hi, (hp _).mp hpi⟩
  · rintro ⟨a, ha, hk⟩
    obtain ⟨hi, rfl⟩ := List.getElem?_eq_some_iff.mp ha
    refine ⟨hi, (hp _).mpr hk, fun j hj hpj => ?_⟩
    have hilt : i < (l.map key).length := by rwa [List.length_map]
    have hsame : (l.map key)[j] = (l.map key)[i] := by
      simp [(hp _).mp hpj, hk]
    exact absurd ((List.Nodup.getElem_inj_iff hl).mp hsame) (Nat.ne_of_lt hj)

/-- All members of a kind in the order of their numbers. -/
def Syntax.Program.headings (p : Program) (k : MemberKind) : List Heading :=
  p.preorder.flatMap (·.headings k)

theorem headings_fields (p : Program) :
    p.headings .field = (Program.fields p).map fun f => ⟨f.name, f.ty⟩ := by
  simp [Program.headings, Program.fields, ClassDecl.headings, List.map_flatMap]

theorem headings_methods (p : Program) :
    p.headings .method = (Program.methods p).map fun m => ⟨m.name, m.returns⟩ := by
  simp [Program.headings, Program.methods, ClassDecl.headings, List.map_flatMap]

theorem owned_snd (k : MemberKind) (ds : List ClassDecl) : ∀ c,
    (owned k c ds).map Prod.snd = ds.flatMap (·.headings k) := by
  induction ds with
  | nil => exact fun _ => rfl
  | cons d ds ih =>
    intro c
    simp [owned_cons, ih (c + 1), Function.comp_def]

theorem owned_bound {k : MemberKind} {ds : List ClassDecl} {c : Nat} {o : ClassId × Heading}
    (h : o ∈ owned k c ds) : c ≤ o.1 ∧ o.1 < c + ds.length := by
  obtain ⟨m, hm⟩ := List.mem_iff_getElem?.mp h
  obtain ⟨i, cd, j, hi, -, ho, -⟩ := owned_get.mp hm
  rw [ho]
  exact ⟨Nat.le_add_right c i, Nat.add_lt_add_left (List.getElem?_eq_some_iff.mp hi).1 c⟩

/-! ## Keys -/

theorem nodup_of_fibers {α κ ν : Type} [BEq κ] [LawfulBEq κ] (key : α → κ) (name : α → ν)
    {l : List α} (h : ∀ a ∈ l, ((l.filter (key · == key a)).map name).Nodup) :
    (l.map fun a => (key a, name a)).Nodup := by
  rw [List.Nodup, List.pairwise_map, List.pairwise_iff_forall_sublist]
  intro a b hsub heq
  obtain ⟨hkey, hname⟩ := Prod.mk.inj heq
  have hsub' : [a, b].Sublist (l.filter (key · == key a)) := by
    simpa [hkey] using hsub.filter (key · == key a)
  have hnodup := (hsub'.map name).nodup (h a (hsub.subset List.mem_cons_self))
  simp [hname] at hnodup

/-- No two classes that are nested in one class have one name. -/
theorem links_distinct {p : Program}
    (h : ∀ c ∈ p.preorder, DistinctNames ClassDecl.name c.nested) :
    ((links Catalog.root none p).map fun o => (o.1, o.2.name.name)).Nodup := by
  refine nodup_of_fibers Prod.fst (fun o : Option ClassId × ClassDecl => o.2.name.name)
    fun o ho => ?_
  obtain ⟨i, hi⟩ := List.mem_iff_getElem?.mp ho
  obtain ⟨-, rfl⟩ | ⟨c, hc, -, hlt⟩ := links_around hi
  · rw [links_roots]
    exact List.nodup_singleton _
  · simp only [Catalog.root, Nat.zero_add] at hlt
    obtain ⟨l, hl⟩ : ∃ l, (links Catalog.root none p)[c]? = some l :=
      ⟨_, List.getElem?_eq_getElem (Nat.lt_trans hlt (List.getElem?_eq_some_iff.mp hi).1)⟩
    have hchildren := links_children (by simp) hl
    have hmem : l.2 ∈ p.preorder := by
      rw [← links_snd p Catalog.root none]
      exact List.mem_map_of_mem (List.mem_of_getElem? hl)
    rw [Catalog.root, Nat.zero_add, ← Catalog.root] at hchildren
    rw [childrenOf] at hchildren
    rw [hc, hchildren, List.map_map]
    exact h _ hmem

theorem owned_distinct {k : MemberKind} {ds : List ClassDecl}
    (h : ∀ c ∈ ds, DistinctNames Heading.name (c.headings k)) : ∀ c,
    ((owned k c ds).map fun o => (o.1, o.2.name.name)).Nodup := by
  induction ds with
  | nil => exact fun _ => List.nodup_nil
  | cons d ds ih =>
    intro c
    rw [owned_cons, List.map_append]
    refine List.Nodup.append ?_ (ih (fun c hc => h c (List.mem_cons_of_mem _ hc)) (c + 1)) ?_
    · rw [List.map_map]
      have hd := (h d List.mem_cons_self).map (f := (c, ·)) fun _ _ heq => (Prod.mk.inj heq).2
      rwa [List.map_map] at hd
    · rintro key hkey hkey'
      obtain ⟨o, ho, rfl⟩ := List.mem_map.mp hkey
      obtain ⟨o', ho', heq⟩ := List.mem_map.mp hkey'
      obtain ⟨d', -, rfl⟩ := List.mem_map.mp ho
      have hle := (owned_bound ho').1
      rw [(Prod.mk.inj heq).1] at hle
      exact absurd hle (Nat.not_succ_le_self c)

namespace Catalog

variable {p : Program} {t : Catalog}

/-! ## Entries -/

theorem memberAt_ok {k : MemberKind} {i : Nat} {e : MemberEntry} :
    t.memberAt k i = .ok e ↔ (t.members k)[i]? = some e := by
  unfold memberAt
  split <;> simp [*]

theorem build_class (h : build p = .ok t) {c : ClassId} {e : ClassEntry} :
    t.classes[c]? = some e ↔ ∃ o, (links root none p)[c]? = some o ∧ e = .ofDecl c o := by
  obtain ⟨-, rfl⟩ := build_ok.mp h
  rw [full, of_classes, List.getElem?_mapIdx, Option.map_eq_some_iff]
  simp only [eq_comm]

theorem build_member (h : build p = .ok t) {k : MemberKind} {i : Nat} {e : MemberEntry} :
    (t.members k)[i]? = some e ↔
      ∃ o, (owned k root p.preorder)[i]? = some o ∧ e = .ofDecl i o := by
  obtain ⟨-, rfl⟩ := build_ok.mp h
  rw [full, of_members, List.getElem?_mapIdx, Option.map_eq_some_iff]
  simp only [eq_comm]

theorem build_nested (h : build p = .ok t) {c d : ClassId} {x : String} :
    t.nested c x = some d ↔ ∃ e, t.classes[d]? = some e ∧ e.parent = some c ∧ e.name = x := by
  have hkey (o : Option ClassId × ClassDecl) : (o.1 == some c && o.2.name.name == x) = true ↔
      (o.1, o.2.name.name) = (some c, x) := by simp
  obtain ⟨hnone, hfull⟩ := build_ok.mp h
  rw [hfull, full, of_nested, findIdx?_key
    (links_distinct fun c hc => (rejection?_none.mp hnone c hc).1) hkey, ← full, ← hfull]
  simp only [build_class h]
  constructor
  · rintro ⟨o, ho, heq⟩
    obtain ⟨hq, hx⟩ := Prod.mk.inj heq
    exact ⟨_, ⟨o, ho, rfl⟩, hq, hx⟩
  · rintro ⟨_, ⟨o, ho, rfl⟩, hq, hx⟩
    exact ⟨o, ho, Prod.ext hq hx⟩

theorem build_member?_entry (h : build p = .ok t) {k : MemberKind} {c : ClassId} {x : String}
    {i : Nat} : t.member? k c x = some i ↔
      ∃ e, (t.members k)[i]? = some e ∧ e.owner = c ∧ e.name = x := by
  have hkey (o : ClassId × Heading) : (o.1 == c && o.2.name.name == x) = true ↔
      (o.1, o.2.name.name) = (c, x) := by simp
  obtain ⟨hnone, hfull⟩ := build_ok.mp h
  rw [hfull, full, of_member?, findIdx?_key
    (owned_distinct (fun c hc => (rejection?_none.mp hnone c hc).2 k) root) hkey, ← full, ← hfull]
  simp only [build_member h]
  constructor
  · rintro ⟨o, ho, heq⟩
    obtain ⟨hc, hx⟩ := Prod.mk.inj heq
    exact ⟨_, ⟨o, ho, rfl⟩, hc, hx⟩
  · rintro ⟨_, ⟨o, ho, rfl⟩, hc, hx⟩
    exact ⟨o, ho, Prod.ext hc hx⟩

theorem build_headings (h : build p = .ok t) (k : MemberKind) :
    (t.members k).map MemberEntry.ty = (p.headings k).map Heading.ty := by
  obtain ⟨-, rfl⟩ := build_ok.mp h
  rw [full, of_members, Program.headings, ← owned_snd k p.preorder root]
  refine List.ext_getElem? fun i => ?_
  simp only [List.getElem?_map, List.getElem?_mapIdx, Option.map_map]
  rfl

theorem build_fields (h : build p = .ok t) :
    t.fields.map MemberEntry.ty = (Program.fields p).map FieldDecl.ty := by
  have := build_headings h .field
  rwa [headings_fields, List.map_map] at this

theorem build_methods (h : build p = .ok t) :
    t.methods.map MemberEntry.ty = (Program.methods p).map MethodDecl.returns := by
  have := build_headings h .method
  rwa [headings_methods, List.map_map] at this

/-! ## Numbers -/

/-- Each member has its place as its number. -/
def Numbered (t : Catalog) : Prop :=
  ∀ {k : MemberKind} {i : Nat} {e : MemberEntry}, (t.members k)[i]? = some e → e.id = i

/-- What a look-up finds is an entry, under the number that the entry holds. -/
theorem lookup_entry (ht : t.Numbered) {k : MemberKind} {c : ClassId} {x : String}
    {e : MemberEntry} (h : t.lookup k c x = .ok (some e)) :
    t.member? k c x = some e.id ∧ t.memberAt k e.id = .ok e := by
  unfold lookup at h
  split at h
  · cases h
  split at h
  · cases h
  rename_i i hi
  split at h
  · cases h
  rename_i hat
  cases h
  obtain rfl := ht (memberAt_ok.mp hat)
  exact ⟨hi, hat⟩

theorem lookup_absent {k : MemberKind} {c : ClassId} {x : String}
    (h : t.lookup k c x = .ok none) : t.member? k c x = none := by
  unfold lookup at h
  split at h
  · cases h
  split at h
  · assumption
  split at h
  · cases h
  · cases h

/-- Every number that the table keeps or hands out is that of an entry, and the entries are those
of the classes and members of the program, each with its place as its number. -/
structure Indexed (p : Program) (t : Catalog) : Prop where
  classes : t.classes.length = p.preorder.length
  fields : t.fields.length = (Program.fields p).length
  methods : t.methods.length = (Program.methods p).length
  root : root < t.classes.length
  classIds : ∀ {c : ClassId} {e : ClassEntry}, t.classes[c]? = some e → e.id = c
  memberIds : t.Numbered
  parents : ∀ {c q : ClassId} {e : ClassEntry}, t.classes[c]? = some e →
    e.parent = some q → q < c
  owners : ∀ {k : MemberKind} {i : Nat} {e : MemberEntry}, (t.members k)[i]? = some e →
    e.owner < t.classes.length
  nested : ∀ {c d : ClassId} {x : String}, t.nested c x = some d → d < t.classes.length
  member? : ∀ {k : MemberKind} {c : ClassId} {x : String} {i : Nat}, t.member? k c x = some i →
    i < (t.members k).length

theorem build_indexed (h : build p = .ok t) : Indexed p t := by
  have hclasses : t.classes.length = p.preorder.length := by
    obtain ⟨-, rfl⟩ := build_ok.mp h
    simp [full]
  refine ⟨hclasses, ?_, ?_, ?_, fun he => ?_, fun he => ?_, fun he hq => ?_, fun he => ?_,
    fun hd => ?_, fun hi => ?_⟩
  · simpa using congrArg List.length (build_fields h)
  · simpa using congrArg List.length (build_methods h)
  · rw [hclasses]
    cases p
    simp [ClassDecl.preorder, Catalog.root]
  · obtain ⟨o, -, rfl⟩ := (build_class h).mp he
    rfl
  · obtain ⟨o, -, rfl⟩ := (build_member h).mp he
    rfl
  · obtain ⟨o, ho, rfl⟩ := (build_class h).mp he
    obtain ⟨-, rfl⟩ | ⟨q', hq', -, hlt⟩ := links_around ho
    · cases hq
    · obtain rfl := Option.some.inj (hq'.symm.trans hq)
      rwa [Catalog.root, Nat.zero_add] at hlt
  · obtain ⟨o, ho, rfl⟩ := (build_member h).mp he
    have hlt := (owned_bound (List.mem_of_getElem? ho)).2
    rwa [hclasses, ← Nat.zero_add p.preorder.length]
  · obtain ⟨e, he, -⟩ := (build_nested h).mp hd
    exact (List.getElem?_eq_some_iff.mp he).1
  · obtain ⟨e, he, -⟩ := (build_member?_entry h).mp hi
    exact (List.getElem?_eq_some_iff.mp he).1

end Catalog

end Cascade
