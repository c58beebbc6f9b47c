import Cascade.Proofs.Catalog.Entries
import Cascade.Proofs.Catalog.Repeats

/-!
# Cascade.Proofs.Catalog.Registration

What becomes of the registration of a program.

* `Catalog.rejection?`: the first clash of names.
* `Catalog.build_eq`: the table of all classes and members is made, or else that clash is reported.
  No number that is used on the way is without an entry.
-/

namespace Cascade

open Syntax

def settle {α : Type} (r : Option Rejection) (a : α) : Except (Failure Rejection) α :=
  match r with
  | some r => .error (.rejected r)
  | none => .ok a

@[simp] theorem settle_some {α : Type} (r : Rejection) (a : α) :
    settle (some r) a = .error (.rejected r) := rfl

@[simp] theorem settle_none {α : Type} (a : α) : settle none a = .ok a := rfl

theorem findIdx?_cases {ε δ : Type} {es : List ε} {mine : ε → Bool} {ds : List δ} {entry : δ → ε}
    (named : ε → Bool) (h : es.filter mine = ds.map entry) :
    (ds.find? (fun d => named (entry d)) = none ∧
        es.findIdx? (fun e => mine e && named e) = none) ∨
      ∃ i d, ds.find? (fun d => named (entry d)) = some d ∧
        es.findIdx? (fun e => mine e && named e) = some i ∧ es[i]? = some (entry d) := by
  have hfilter : (es.filter mine).find? named = es.find? (fun e => mine e && named e) := by
    simp [List.find?_filter]
  have hfind : (es.findIdx? fun e => mine e && named e).bind (es[·]?) =
      (ds.find? fun d => named (entry d)).map entry := by
    rw [← List.find?_eq_bind_findIdx?_getElem?, ← hfilter, h, List.find?_map]
    rfl
  cases hi : es.findIdx? fun e => mine e && named e with
  | none =>
    rw [hi] at hfind
    exact .inl ⟨by simpa using hfind.symm, rfl⟩
  | some i =>
    have hat := List.getElem?_eq_getElem (List.findIdx?_eq_some_iff_getElem.mp hi).1
    rw [hi, Option.bind_some, hat] at hfind
    obtain ⟨d, hd, heq⟩ := Option.map_eq_some_iff.mp hfind.symm
    exact .inr ⟨i, d, hd, rfl, heq ▸ hat⟩

namespace Catalog

variable {cs : List (Option ClassId × ClassDecl)} (ms : MemberKind → List (ClassId × Heading))

/-! ## Classes -/

def LinksBelow (n : ClassId) (cs : List (Option ClassId × ClassDecl)) : Prop :=
  ∀ o ∈ cs, ∀ q, o.1 = some q → q < n

theorem LinksBelow.append {cs' : List (Option ClassId × ClassDecl)} (h : LinksBelow cs.length cs)
    (h' : LinksBelow (cs ++ cs').length cs') : LinksBelow (cs ++ cs').length (cs ++ cs') := by
  intro o ho q hq
  obtain ho | ho := List.mem_append.mp ho
  · exact Nat.lt_of_lt_of_le (h o ho q hq) (by simp)
  · exact h' o ho q hq

theorem links_below {d : ClassDecl} {n : Nat} {parent : Option ClassId}
    (hp : ∀ q, parent = some q → q < n) :
    LinksBelow (n + d.preorder.length) (links n parent d) := by
  intro o ho q hq
  obtain ⟨i, hi⟩ := List.mem_iff_getElem?.mp ho
  have hlt := (List.getElem?_eq_some_iff.mp hi).1
  rw [links_length] at hlt
  obtain ⟨-, rfl⟩ | ⟨r, hr, -, hbound⟩ := links_around hi
  · exact Nat.lt_add_right _ (hp q hq)
  · obtain rfl := Option.some.inj (hr.symm.trans hq)
    exact Nat.lt_trans hbound (Nat.add_lt_add_left hlt n)

/-- The next class is new among its siblings, or the first of its name has an entry. -/
theorem nested_cases {c : ClassId} {earlier : List ClassDecl} (x : String)
    (h : childrenOf c cs = earlier.map (some c, ·)) :
    (earlier.find? (·.name.name == x) = none ∧ (of cs ms).nested c x = none) ∨
      ∃ i e, earlier.find? (·.name.name == x) = some e ∧ (of cs ms).nested c x = some i ∧
        (of cs ms).classAt i = .ok (.ofDecl i (some c, e)) := by
  rw [of_nested]
  refine (findIdx?_cases (fun o => o.2.name.name == x) h).imp_right ?_
  rintro ⟨i, e, he, hi, hat⟩
  exact ⟨i, e, he, hi, of_classAt cs ms hat⟩

mutual

/-- A class is entered with all that is nested in it, unless names clash somewhere below it. -/
theorem enterClass_eq : ∀ (d : ClassDecl) {cs : List (Option ClassId × ClassDecl)}
    {parent : Option ClassId}, (∀ q, parent = some q → q < cs.length) →
    LinksBelow cs.length cs → (of cs ms).enterClass parent d =
      settle (firstClash? .duplicateClass ClassDecl.name d.inner)
        (of (cs ++ links cs.length parent d) ms)
  | ⟨name, fields, methods, nested, span⟩, cs, parent, hp, hcs => by
    let d : ClassDecl := ⟨name, fields, methods, nested, span⟩
    have hlength : (cs ++ [(parent, d)]).length = cs.length + 1 := by simp
    have hcs' : LinksBelow (cs.length + 1) (cs ++ [(parent, d)]) := by
      rw [← hlength]
      refine hcs.append fun o ho q hq => ?_
      obtain rfl := List.mem_singleton.mp ho
      exact Nat.lt_of_lt_of_le (hp q hq) (by simp)
    -- the class is entered alone first, and no sibling stands before its first nested class
    have hnone : childrenOf cs.length (cs ++ [(parent, d)]) =
        ([] : List ClassDecl).map (some cs.length, ·) := by
      refine childrenOf_nil fun o ho hq => ?_
      obtain ho | ho := List.mem_append.mp ho
      · exact absurd (hcs o ho _ hq) (Nat.lt_irrefl _)
      · obtain rfl := List.mem_singleton.mp ho
        exact absurd (hp _ hq) (Nat.lt_irrefl _)
    have hstart : (of cs ms).enterClass parent d =
        (of (cs ++ [(parent, d)]) ms).enterNested cs.length nested := by
      rw [← of_addClass]
      simp only [enterClass, of_classes, List.length_mapIdx, d]
      rfl
    rw [hstart, enterNested_eq nested (by simp) (hlength ▸ hcs') hnone, hlength, ClassDecl.inner,
      links, List.append_assoc]
    rfl

/-- The siblings that are entered already are the only ones that the next name is compared with. -/
theorem enterNested_eq : ∀ (ds : List ClassDecl) {cs : List (Option ClassId × ClassDecl)}
    {c : ClassId} {earlier : List ClassDecl}, c < cs.length → LinksBelow cs.length cs →
    childrenOf c cs = earlier.map (some c, ·) → (of cs ms).enterNested c ds =
      settle (firstClash? .duplicateClass ClassDecl.name (ClassDecl.innerAll earlier ds))
        (of (cs ++ nestedLinks cs.length c ds) ms)
  | [], cs, c, earlier, _, _, _ => by
    rw [enterNested, nestedLinks, List.append_nil]
    rfl
  | d :: ds, cs, c, earlier, hc, hcs, hearlier => by
    rw [enterNested, of_classAt cs ms (List.getElem?_eq_getElem hc), ClassDecl.innerAll,
      firstClash?, List.findSome?_cons, clash?]
    dsimp only
    obtain ⟨hfind, hnested⟩ | ⟨i, e, hfind, hnested, hat⟩ :=
      nested_cases ms d.name.name hearlier
    · have hparent : ∀ q, some c = some q → q < cs.length := by
        rintro q ⟨⟩
        exact hc
      rw [hfind, hnested, Option.map_none, ← firstClash?, firstClash?_append]
      dsimp only
      rw [enterClass_eq d hparent hcs]
      cases firstClash? .duplicateClass ClassDecl.name d.inner with
      | some r => rfl
      | none =>
        -- what was entered below `d` is not nested directly in `c`
        have hnext : childrenOf c (cs ++ links cs.length (some c) d) =
            (earlier ++ [d]).map (some c, ·) := by
          rw [childrenOf_append, hearlier, links_before hc, List.map_append, List.map_singleton]
        have hlength : (cs ++ links cs.length (some c) d).length =
            cs.length + d.preorder.length := by simp
        have hbelow : LinksBelow (cs ++ links cs.length (some c) d).length
            (links cs.length (some c) d) := by
          rw [hlength]
          exact links_below hparent
        rw [settle_none, Option.none_or, nestedLinks, ← List.append_assoc, ← hlength]
        exact enterNested_eq ds (hlength ▸ Nat.lt_add_right _ hc) (hcs.append hbelow) hnext
    · rw [hfind, hnested]
      dsimp only
      rw [hat]
      rfl

end

/-! ## Members -/

/-- The next member is new in its class, or the first of its name has an entry. -/
theorem member_cases (cs : List (Option ClassId × ClassDecl)) {k : MemberKind} {c : ClassId}
    {earlier : List Heading} (x : String)
    (h : (ms k).filter (·.1 == c) = earlier.map (c, ·)) :
    (earlier.find? (·.name.name == x) = none ∧ (of cs ms).member? k c x = none) ∨
      ∃ i e, earlier.find? (·.name.name == x) = some e ∧ (of cs ms).member? k c x = some i ∧
        (of cs ms).memberAt k i = .ok (.ofDecl i (c, e)) := by
  rw [of_member?]
  refine (findIdx?_cases (fun o => o.2.name.name == x) h).imp_right ?_
  rintro ⟨i, e, he, hi, hat⟩
  exact ⟨i, e, he, hi, of_memberAt cs ms hat⟩

/-- Members of one class are entered one after another, until there is a name that the class has
already. -/
theorem enterMembers_eq {k : MemberKind} {c : ClassId} {around : Option ClassId × ClassDecl}
    (hc : cs[c]? = some around) (ds : List Heading) {ms : MemberKind → List (ClassId × Heading)}
    {earlier : List Heading} (h : (ms k).filter (·.1 == c) = earlier.map (c, ·)) :
    (of cs ms).enterMembers k c ds =
      settle (firstClash? (.duplicateMember around.2.name.name) Heading.name (inOrder earlier ds))
        (of cs (Function.update ms k (ms k ++ ds.map (c, ·)))) := by
  induction ds generalizing ms earlier with
  | nil => simp [enterMembers, inOrder, firstClash?]
  | cons d ds ih =>
    rw [enterMembers, enterMember, of_classAt cs ms hc, inOrder, firstClash?, List.findSome?_cons,
      clash?]
    dsimp only
    obtain ⟨hfind, hmember⟩ | ⟨i, e, hfind, hmember, hat⟩ :=
      member_cases ms cs d.name.name h
    · have hadd : (of cs ms).addMember k
          ⟨((of cs ms).members k).length, d.name.name, d.ty, c, d.name.span⟩ =
          of cs (Function.update ms k (ms k ++ [(c, d)])) := by
        rw [← of_addMember, of_members, List.length_mapIdx]
        rfl
      have hnext : (Function.update ms k (ms k ++ [(c, d)]) k).filter (·.1 == c) =
          (earlier ++ [d]).map (c, ·) := by
        rw [Function.update_self, List.filter_append, h, List.filter_cons_of_pos (by simp),
          List.map_append]
        rfl
      rw [hfind, hmember]
      dsimp only [Option.map_none]
      rw [hadd, ih hnext, Function.update_self, Function.update_idem, List.append_assoc]
      rfl
    · rw [hfind, hmember]
      dsimp only
      rw [hat]
      rfl

/-- What there is to report about the members of a class, its fields first. -/
def memberClash? (c : ClassDecl) : Option Rejection :=
  (firstClash? (.duplicateMember c.name.name) Heading.name (inOrder [] (c.headings .field))).or
    (firstClash? (.duplicateMember c.name.name) Heading.name (inOrder [] (c.headings .method)))

theorem enterBodies_eq (ds : List ClassDecl) {c : Nat}
    (hds : ∀ i d, ds[i]? = some d → ∃ q, cs[c + i]? = some (q, d))
    {ms : MemberKind → List (ClassId × Heading)} (hms : ∀ k, ∀ o ∈ ms k, o.1 < c) :
    (of cs ms).enterBodies c ds = settle (ds.findSome? memberClash?)
      (of cs fun k => ms k ++ owned k c ds) := by
  induction ds generalizing c ms with
  | nil => simp [enterBodies, owned]
  | cons d ds ih =>
    obtain ⟨q, hq⟩ := hds 0 d rfl
    rw [Nat.add_zero] at hq
    have hnone (k : MemberKind) : (ms k).filter (·.1 == c) = ([] : List Heading).map (c, ·) :=
      List.filter_eq_nil_iff.mpr fun o ho => by simpa using Nat.ne_of_lt (hms k o ho)
    let withFields := Function.update ms .field (ms .field ++ (d.headings .field).map (c, ·))
    have hfields := enterMembers_eq hq (d.headings .field) (hnone .field)
    have hmethods : (of cs withFields).enterMembers .method c (d.headings .method) = _ :=
      enterMembers_eq hq (d.headings .method) (hnone .method)
    rw [enterBodies, hfields, List.findSome?_cons, memberClash?]
    cases firstClash? (.duplicateMember d.name.name) Heading.name
        (inOrder [] (d.headings .field)) with
    | some r => rfl
    | none =>
      dsimp only [settle_none, Option.none_or]
      rw [hmethods]
      cases firstClash? (.duplicateMember d.name.name) Heading.name
          (inOrder [] (d.headings .method)) with
      | some r => rfl
      | none =>
        have hboth : Function.update withFields .method
            (withFields .method ++ (d.headings .method).map (c, ·)) =
            fun k => ms k ++ (d.headings k).map (c, ·) := by
          funext k
          cases k <;> simp [withFields]
        have hms' : ∀ k, ∀ o ∈ ms k ++ (d.headings k).map (c, ·), o.1 < c + 1 := by
          intro k o ho
          obtain ho | ho := List.mem_append.mp ho
          · exact Nat.lt_succ_of_lt (hms k o ho)
          · obtain ⟨d', -, rfl⟩ := List.mem_map.mp ho
            exact Nat.lt_succ_self c
        have hds' : ∀ i d', ds[i]? = some d' → ∃ q, cs[c + 1 + i]? = some (q, d') := by
          intro i d' hi
          rw [Nat.add_assoc, Nat.add_comm 1]
          exact hds (i + 1) d' hi
        dsimp only [settle_none]
        rw [hboth, ih hds' hms']
        simp only [owned_cons, List.append_assoc]

/-! ## Programs -/

/-- What there is to report about a program. Clashes of classes come before those of members. -/
def rejection? (p : Program) : Option Rejection :=
  (firstClash? .duplicateClass ClassDecl.name p.inner).or (p.preorder.findSome? memberClash?)

/-- The table of all classes and members of a program, whether or not names clash. -/
def full (p : Program) : Catalog :=
  of (links root none p) fun k => owned k root p.preorder

theorem build_eq (p : Program) : build p = settle (rejection? p) (full p) := by
  have hclasses : enterClass (of [] fun _ => []) none p =
      settle _ (of ([] ++ links root none p) _) :=
    enterClass_eq _ p (by simp) (fun o ho => by cases ho)
  have hlinked : ∀ i d, p.preorder[i]? = some d →
      ∃ q, (links root none p)[root + i]? = some (q, d) := by
    intro i d hi
    rw [← links_snd p root none, List.getElem?_map] at hi
    obtain ⟨⟨q, d'⟩, ho, rfl⟩ := Option.map_eq_some_iff.mp hi
    exact ⟨q, by rw [root, Nat.zero_add]; exact ho⟩
  rw [build, show (⟨[], [], []⟩ : Catalog) = of [] fun _ => [] from rfl, hclasses, rejection?]
  cases firstClash? .duplicateClass ClassDecl.name p.inner with
  | some r => rfl
  | none =>
    rw [settle_none, Option.none_or]
    exact enterBodies_eq p.preorder hlinked fun _ _ ho => by cases ho

def DistinctMembers (c : ClassDecl) : Prop := ∀ k, DistinctNames Heading.name (c.headings k)

theorem classClash_none {p : Program} : firstClash? .duplicateClass ClassDecl.name p.inner = none ↔
    ∀ c ∈ p.preorder, DistinctNames ClassDecl.name c.nested := by
  simp only [firstClash?_none, ClassDecl.mem_inner, forall_exists_index, and_imp]
  rw [forall_comm]
  refine forall_congr' fun c => ?_
  rw [forall_comm]
  refine forall_congr' fun hc => ?_
  exact inOrder_distinct distinctNames_nil

theorem memberClash?_none {c : ClassDecl} : memberClash? c = none ↔ DistinctMembers c := by
  rw [memberClash?, Option.or_eq_none_iff, firstClash?_none, firstClash?_none,
    inOrder_distinct distinctNames_nil, inOrder_distinct distinctNames_nil]
  constructor
  · rintro ⟨hfields, hmethods⟩ (_ | _)
    · exact hfields
    · exact hmethods
  · exact fun h => ⟨h .field, h .method⟩

theorem rejection?_none {p : Program} : rejection? p = none ↔
    ∀ c ∈ p.preorder, DistinctNames ClassDecl.name c.nested ∧ DistinctMembers c := by
  rw [rejection?, Option.or_eq_none_iff, classClash_none, List.findSome?_eq_none_iff]
  simp only [memberClash?_none]
  exact ⟨fun h c hc => ⟨h.1 c hc, h.2 c hc⟩,
    fun h => ⟨fun c hc => (h c hc).1, fun c hc => (h c hc).2⟩⟩

theorem build_ok {p : Program} {t : Catalog} :
    build p = .ok t ↔ rejection? p = none ∧ t = full p := by
  rw [build_eq]
  cases rejection? p with
  | some r => simp
  | none => simp [eq_comm]

theorem build_error {p : Program} {e : Failure Rejection} :
    build p = .error e ↔ ∃ r, rejection? p = some r ∧ e = .rejected r := by
  rw [build_eq]
  cases rejection? p with
  | some r => simp [eq_comm]
  | none => simp

end Catalog

end Cascade
