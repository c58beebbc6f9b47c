import Cascade.Catalog.Basic
import Mathlib.Data.List.Induction
import Mathlib.Data.List.Nodup
import Mathlib.Logic.Function.Basic

/-!
# Cascade.Proofs.Catalog.Entries

The entries of the table of a program, written down from the program alone.

* `links`: all classes in the order of their numbers, each with the number of the class around it.
* `owned`: all members of a kind in the order of theirs, each with the number of its class.
* `Catalog.of`: a table whose entries are such lists, each with its place as its number. What is
  looked up in it can be read off the lists (`of_nested`, `of_member?`).
-/

namespace Cascade

open Syntax

/-! ## Classes -/

mutual

/-- A class and all that is nested in it, numbered from `n` on. -/
def links (n : ClassId) (parent : Option ClassId) :
    ClassDecl → List (Option ClassId × ClassDecl)
  | ⟨name, fields, methods, nested, span⟩ =>
    (parent, ⟨name, fields, methods, nested, span⟩) :: nestedLinks (n + 1) n nested

def nestedLinks (n c : ClassId) : List ClassDecl → List (Option ClassId × ClassDecl)
  | [] => []
  | d :: ds => links n (some c) d ++ nestedLinks (n + d.preorder.length) c ds

end

mutual

theorem links_snd : ∀ (d : ClassDecl) (n : ClassId) (parent : Option ClassId),
    (links n parent d).map Prod.snd = d.preorder
  | ⟨_, _, _, nested, _⟩, n, _ => by
    rw [links, ClassDecl.preorder, List.map_cons, nestedLinks_snd nested]

theorem nestedLinks_snd : ∀ (ds : List ClassDecl) (n c : ClassId),
    (nestedLinks n c ds).map Prod.snd = ClassDecl.preorderAll ds
  | [], _, _ => rfl
  | d :: ds, n, c => by
    rw [nestedLinks, ClassDecl.preorderAll, List.map_append, links_snd d, nestedLinks_snd ds]

end

@[simp] theorem links_length (d : ClassDecl) (n : ClassId) (parent : Option ClassId) :
    (links n parent d).length = d.preorder.length := by
  rw [← links_snd d n parent, List.length_map]

mutual

/-- Below the first class, the number of the class around is one of those that were given out
before. -/
theorem links_around : ∀ {d : ClassDecl} {n : Nat} {parent : Option ClassId} {i : Nat}
    {o : Option ClassId × ClassDecl}, (links n parent d)[i]? = some o →
    (i = 0 ∧ o = (parent, d)) ∨ ∃ q : Nat, o.1 = some q ∧ n ≤ q ∧ q < n + i
  | ⟨_, _, _, nested, _⟩, n, parent, i, o, h => by
    rw [links] at h
    cases i with
    | zero =>
      cases h
      exact .inl ⟨rfl, rfl⟩
    | succ i =>
      obtain ⟨q, hq, rfl | ⟨hle, hlt⟩⟩ := nestedLinks_around h
      · exact .inr ⟨_, hq, Nat.le_refl _, Nat.lt_add_of_pos_right (Nat.succ_pos i)⟩
      · exact .inr ⟨q, hq, Nat.le_of_succ_le hle, by omega⟩

theorem nestedLinks_around : ∀ {ds : List ClassDecl} {n c i : Nat}
    {o : Option ClassId × ClassDecl}, (nestedLinks n c ds)[i]? = some o →
    ∃ q : Nat, o.1 = some q ∧ (q = c ∨ n ≤ q ∧ q < n + i)
  | [], _, _, _, _, h => by simp [nestedLinks] at h
  | d :: ds, n, c, i, o, h => by
    rw [nestedLinks, List.getElem?_append, links_length] at h
    split at h
    · obtain ⟨-, rfl⟩ | ⟨q, hq, hbound⟩ := links_around h
      · exact ⟨c, rfl, .inl rfl⟩
      · exact ⟨q, hq, .inr hbound⟩
    · obtain ⟨q, hq, rfl | ⟨hle, hlt⟩⟩ := nestedLinks_around h
      · exact ⟨_, hq, .inl rfl⟩
      · exact ⟨q, hq, .inr ⟨Nat.le_of_add_right_le hle, by omega⟩⟩

end

theorem links_roots {d : ClassDecl} {n : ClassId} :
    (links n none d).filter (·.1 == none) = [(none, d)] := by
  obtain ⟨name, fields, methods, nested, span⟩ := d
  rw [links, List.filter_cons_of_pos (by simp), List.cons_inj_right, List.filter_eq_nil_iff]
  intro o ho
  obtain ⟨i, hi⟩ := List.mem_iff_getElem?.mp ho
  obtain ⟨q, hq, -⟩ := nestedLinks_around hi
  simp [hq]

/-- The classes of a list that are nested directly in class `c`. -/
def childrenOf (c : ClassId) (l : List (Option ClassId × ClassDecl)) :
    List (Option ClassId × ClassDecl) :=
  l.filter (·.1 == some c)

theorem childrenOf_append (c : ClassId) (l l' : List (Option ClassId × ClassDecl)) :
    childrenOf c (l ++ l') = childrenOf c l ++ childrenOf c l' := List.filter_append ..

theorem childrenOf_cons (c : ClassId) (o : Option ClassId × ClassDecl)
    (l : List (Option ClassId × ClassDecl)) :
    childrenOf c (o :: l) = (if o.1 = some c then [o] else []) ++ childrenOf c l := by
  by_cases h : o.1 = some c <;> simp [childrenOf, h]

theorem childrenOf_nil {c : ClassId} {l : List (Option ClassId × ClassDecl)}
    (h : ∀ o ∈ l, o.1 ≠ some c) : childrenOf c l = [] :=
  List.filter_eq_nil_iff.mpr fun o ho => by simpa using h o ho

/-- Of what is nested in class `q` from number `n` on, a class `c` before it has only what `q`
itself declares. -/
theorem nestedLinks_before {n c q : Nat} (h : c < n) (ds : List ClassDecl) :
    childrenOf c (nestedLinks n q ds) = if q = c then ds.map (some c, ·) else [] := by
  induction ds generalizing n with
  | nil => simp [nestedLinks, childrenOf]
  | cons d ds ih =>
    obtain ⟨name, fields, methods, nested, span⟩ := d
    have hinner : childrenOf c (nestedLinks (n + 1) n nested) = [] := by
      refine childrenOf_nil fun o ho => ?_
      obtain ⟨i, hi⟩ := List.mem_iff_getElem?.mp ho
      obtain ⟨r, hr, hbound⟩ := nestedLinks_around hi
      rw [hr, ne_eq, Option.some.injEq]
      omega
    rw [nestedLinks, childrenOf_append, ih (Nat.lt_add_right _ h), links, childrenOf_cons, hinner]
    by_cases hqc : q = c
    · simp [hqc]
    · simp [hqc]

theorem links_before {n c : Nat} (h : c < n) (d : ClassDecl) :
    childrenOf c (links n (some c) d) = [(some c, d)] := by
  simpa [nestedLinks, childrenOf] using nestedLinks_before h (q := c) [d]

mutual

theorem links_children : ∀ {d : ClassDecl} {n : Nat} {parent : Option ClassId} {i : Nat}
    {o : Option ClassId × ClassDecl}, (∀ q, parent = some q → q < n) →
    (links n parent d)[i]? = some o →
    childrenOf (n + i) (links n parent d) = o.2.nested.map (some (n + i), ·)
  | ⟨_, _, _, nested, _⟩, n, parent, i, o, hp, h => by
    have hparent : parent ≠ some (n + i) := by
      intro hq
      exact absurd (hp _ hq) (Nat.not_lt_of_le (Nat.le_add_right n i))
    rw [links] at h ⊢
    rw [childrenOf_cons, if_neg hparent, List.nil_append]
    cases i with
    | zero =>
      cases h
      rw [Nat.add_zero, nestedLinks_before (Nat.lt_succ_self n), if_pos rfl]
    | succ i =>
      rw [← Nat.add_assoc, Nat.add_right_comm]
      exact nestedLinks_children (Nat.lt_succ_self n) h

theorem nestedLinks_children : ∀ {ds : List ClassDecl} {n q i : Nat}
    {o : Option ClassId × ClassDecl}, q < n → (nestedLinks n q ds)[i]? = some o →
    childrenOf (n + i) (nestedLinks n q ds) = o.2.nested.map (some (n + i), ·)
  | [], _, _, _, _, _, h => by simp [nestedLinks] at h
  | d :: ds, n, q, i, o, hq, h => by
    rw [nestedLinks, List.getElem?_append, links_length] at h
    rw [nestedLinks, childrenOf_append]
    split at h
    · rename_i hlt
      have hrest : childrenOf (n + i) (nestedLinks (n + d.preorder.length) q ds) = [] := by
        rw [nestedLinks_before (Nat.add_lt_add_left hlt n), if_neg (by omega)]
      rw [hrest, List.append_nil]
      exact links_children (by rintro _ ⟨⟩; exact hq) h
    · rename_i hle
      have hfirst : childrenOf (n + i) (links n (some q) d) = [] := by
        refine childrenOf_nil fun o ho => ?_
        obtain ⟨j, hj⟩ := List.mem_iff_getElem?.mp ho
        have hjlt : j < d.preorder.length :=
          links_length d n (some q) ▸ (List.getElem?_eq_some_iff.mp hj).1
        obtain ⟨-, rfl⟩ | ⟨r, hr, -, hrj⟩ := links_around hj
        · exact fun h => Nat.ne_of_lt (Nat.lt_add_right i hq) (Option.some.inj h)
        · rw [hr, ne_eq, Option.some.injEq]
          omega
      have hrest := nestedLinks_children (Nat.lt_add_right d.preorder.length hq) h
      rw [Nat.add_assoc, Nat.add_sub_cancel' (Nat.le_of_not_lt hle)] at hrest
      rw [hfirst, List.nil_append, hrest]

end

/-! ## Members -/

theorem flatMap_get {α δ : Type} (members : α → List δ) (ds : List α) : ∀ (i : Nat) (d : δ),
    (ds.flatMap members)[i]? = some d ↔ ∃ (c : Nat) (cd : α) (k : Nat),
      ds[c]? = some cd ∧ (members cd)[k]? = some d ∧
        i = ((ds.take c).flatMap members).length + k := by
  induction ds with
  | nil => simp
  | cons cd ds ih =>
    intro i d
    rw [List.flatMap_cons, List.getElem?_append]
    split
    · rename_i hi
      constructor
      · exact fun h => ⟨0, cd, i, rfl, h, by simp⟩
      · rintro ⟨c, cd', k, hc, hk, rfl⟩
        cases c with
        | zero =>
          cases hc
          simpa using hk
        | succ c =>
          rw [List.take_succ_cons, List.flatMap_cons, List.length_append] at hi
          omega
    · rename_i hi
      rw [ih]
      constructor
      · rintro ⟨c, cd', k, hc, hk, hik⟩
        refine ⟨c + 1, cd', k, hc, hk, ?_⟩
        rw [List.take_succ_cons, List.flatMap_cons, List.length_append]
        omega
      · rintro ⟨c, cd', k, hc, hk, rfl⟩
        cases c with
        | zero =>
          cases hc
          have hlt := (List.getElem?_eq_some_iff.mp hk).1
          simp at hi
          omega
        | succ c =>
          refine ⟨c, cd', k, hc, hk, ?_⟩
          rw [List.take_succ_cons, List.flatMap_cons, List.length_append]
          omega

def owned (k : MemberKind) (c : ClassId) (ds : List ClassDecl) : List (ClassId × Heading) :=
  (ds.zipIdx c).flatMap fun d => (d.1.headings k).map (d.2, ·)

theorem owned_cons (k : MemberKind) (c : ClassId) (d : ClassDecl) (ds : List ClassDecl) :
    owned k c (d :: ds) = (d.headings k).map (c, ·) ++ owned k (c + 1) ds := rfl

theorem owned_get {k : MemberKind} {ds : List ClassDecl} {c m : Nat} {o : ClassId × Heading} :
    (owned k c ds)[m]? = some o ↔ ∃ (i : Nat) (cd : ClassDecl) (j : Nat), ds[i]? = some cd ∧
      (cd.headings k)[j]? = some o.2 ∧ o.1 = c + i ∧
        m = ((ds.take i).flatMap (·.headings k)).length + j := by
  have hlength (i : Nat) : (((ds.zipIdx c).take i).flatMap fun d =>
      (d.1.headings k).map (d.2, ·)).length = ((ds.take i).flatMap (·.headings k)).length := by
    have hfst : ds.take i = ((ds.zipIdx c).take i).map Prod.fst := by
      rw [List.map_take, List.zipIdx_map_fst]
    rw [hfst, List.flatMap_map, List.length_flatMap, List.length_flatMap]
    simp
  simp only [owned, flatMap_get, hlength, List.getElem?_zipIdx, List.getElem?_map,
    Option.map_eq_some_iff]
  constructor
  · rintro ⟨i, _, j, ⟨cd, hi, rfl⟩, ⟨d, hj, rfl⟩, hm⟩
    exact ⟨i, cd, j, hi, hj, rfl, hm⟩
  · rintro ⟨i, cd, j, hi, hj, ho, hm⟩
    exact ⟨i, _, j, ⟨cd, hi, rfl⟩, ⟨o.2, hj, Prod.ext ho.symm rfl⟩, hm⟩

/-! ## Tables -/

def ClassEntry.ofDecl (c : ClassId) (o : Option ClassId × ClassDecl) : ClassEntry :=
  ⟨c, o.2.name.name, o.1, o.2.name.span⟩

def MemberEntry.ofDecl (i : Nat) (o : ClassId × Heading) : MemberEntry :=
  ⟨i, o.2.name.name, o.2.ty, o.1, o.2.name.span⟩

/-- A search among things that are numbered by their places finds the number of the first one. -/
theorem find?_number {α ε : Type} (entry : Nat → α → ε) {number : ε → Nat}
    (hnumber : ∀ i a, number (entry i a) = i) {p : ε → Bool} {q : α → Bool}
    (hp : ∀ i a, p (entry i a) = q a) (l : List α) :
    ((l.mapIdx entry).find? p).map number = l.findIdx? q := by
  induction l using List.reverseRecOn with
  | nil => rfl
  | append_singleton l a ih =>
    rw [List.mapIdx_concat, List.find?_append, List.findIdx?_append, ← ih]
    cases (l.mapIdx entry).find? p with
    | some e => rfl
    | none => cases hq : q a <;> simp [hp, hq, hnumber]

namespace Catalog

/-- The table of some classes and members, each with its place as its number. -/
def of (cs : List (Option ClassId × ClassDecl))
    (ms : MemberKind → List (ClassId × Heading)) : Catalog :=
  ⟨cs.mapIdx .ofDecl, (ms .field).mapIdx .ofDecl, (ms .method).mapIdx .ofDecl⟩

variable (cs : List (Option ClassId × ClassDecl)) (ms : MemberKind → List (ClassId × Heading))

@[simp] theorem of_classes : (of cs ms).classes = cs.mapIdx .ofDecl := rfl

@[simp] theorem of_members (k : MemberKind) : (of cs ms).members k = (ms k).mapIdx .ofDecl := by
  cases k <;> rfl

@[simp] theorem of_classAt {c : ClassId} {o : Option ClassId × ClassDecl} (h : cs[c]? = some o) :
    (of cs ms).classAt c = .ok (.ofDecl c o) := by
  simp [classAt, h]

@[simp] theorem of_memberAt {k : MemberKind} {i : Nat} {o : ClassId × Heading}
    (h : (ms k)[i]? = some o) : (of cs ms).memberAt k i = .ok (.ofDecl i o) := by
  simp [memberAt, h]

theorem of_nested (c : ClassId) (x : String) : (of cs ms).nested c x =
    cs.findIdx? fun o => o.1 == some c && o.2.name.name == x :=
  find?_number ClassEntry.ofDecl (fun _ _ => rfl) (fun _ _ => rfl) cs

theorem of_member? (k : MemberKind) (c : ClassId) (x : String) : (of cs ms).member? k c x =
    (ms k).findIdx? fun o => o.1 == c && o.2.name.name == x := by
  rw [member?, of_members]
  exact find?_number MemberEntry.ofDecl (fun _ _ => rfl) (fun _ _ => rfl) (ms k)

theorem of_addClass (o : Option ClassId × ClassDecl) :
    (of cs ms).addClass (.ofDecl cs.length o) = of (cs ++ [o]) ms := by
  simp [addClass, of, List.mapIdx_concat]

theorem of_addMember (k : MemberKind) (o : ClassId × Heading) :
    (of cs ms).addMember k (.ofDecl (ms k).length o) =
      of cs (Function.update ms k (ms k ++ [o])) := by
  cases k <;> simp [addMember, of, List.mapIdx_concat]

end Catalog

end Cascade
