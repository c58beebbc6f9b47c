import Cascade.Catalog.Path
import Cascade.Proofs.Catalog.Chains
import Cascade.Syntax.Build

/-!
# Cascade.Proofs.Catalog.Paths

What dotted paths resolve to.

* `Catalog.DeclaredOn`: a member with its name, its class and its number, read off the program
  alone; looking a member up on a class finds exactly what that class declares.
* `Catalog.declares_iff`: a number is that of one member of one class.
* `Catalog.pathOwner_class?`: resolving the class of a path is going down along all of its names
  but the last.
* `Catalog.build_faithful`: classes, chains of names and dotted paths correspond one to one.
-/

namespace Cascade

open Syntax

namespace Catalog

/-! ## Members -/

/-- Class number `c` of a program declares a member that is number `i` of all members of its
kind: those of the classes before `c` are counted first. -/
def Declares {δ : Type} (members : ClassDecl → List δ) (p : Program) (c : ClassId) (d : δ)
    (i : Nat) : Prop :=
  ∃ cd k, p.preorder[c]? = some cd ∧ (members cd)[k]? = some d ∧
    i = ((p.preorder.take c).flatMap members).length + k

/-- Class `c` of the program itself declares a member of name `x` with number `i`. -/
def DeclaredOn (k : MemberKind) (p : Program) (c : ClassId) (x : String) (i : Nat) : Prop :=
  ∃ d, Declares (·.headings k) p c d i ∧ d.name.name = x

theorem declares_iff {δ : Type} {members : ClassDecl → List δ} {p : Program} {i : Nat} {d : δ} :
    (p.preorder.flatMap members)[i]? = some d ↔ ∃ c, Declares members p c d i :=
  flatMap_get members p.preorder i d

theorem Declares.map {δ ε : Type} {members : ClassDecl → List δ} {p : Program} {c : ClassId}
    {d : δ} {i : Nat} (h : Declares members p c d i) (f : δ → ε) :
    Declares (fun cd => (members cd).map f) p c (f d) i := by
  obtain ⟨cd, j, hcd, hj, rfl⟩ := h
  exact ⟨cd, j, hcd, by simp [hj], by simp [List.length_flatMap]⟩

theorem Declares.field {p : Program} {c : ClassId} {d : FieldDecl} {i : FieldId}
    (h : Declares ClassDecl.fields p c d i) :
    Declares (·.headings .field) p c ⟨d.name, d.ty⟩ i :=
  h.map fun f : FieldDecl => (⟨f.name, f.ty⟩ : Heading)

theorem Declares.method {p : Program} {c : ClassId} {d : MethodDecl} {i : MethodId}
    (h : Declares ClassDecl.methods p c d i) :
    Declares (·.headings .method) p c ⟨d.name, d.returns⟩ i :=
  h.map fun m : MethodDecl => (⟨m.name, m.returns⟩ : Heading)

variable {p : Program} {t : Catalog}

/-- The entry of a member is at its number, and names the class that declares it. -/
theorem build_declared (h : build p = .ok t) {k : MemberKind} {i : Nat} {e : MemberEntry} :
    (t.members k)[i]? = some e ↔
      ∃ c d, Declares (·.headings k) p c d i ∧ e = .ofDecl i (c, d) := by
  rw [build_member h]
  simp only [owned_get, root, Nat.zero_add]
  constructor
  · rintro ⟨o, ⟨c, cd, j, hc, hj, ho, hi⟩, rfl⟩
    exact ⟨c, o.2, ⟨cd, j, hc, hj, hi⟩, by rw [← ho]⟩
  · rintro ⟨c, d, ⟨cd, j, hc, hj, hi⟩, rfl⟩
    exact ⟨(c, d), ⟨c, cd, j, hc, hj, rfl, hi⟩, rfl⟩

/-- A class has exactly the members that it declares itself. -/
theorem build_member? (h : build p = .ok t) {k : MemberKind} {c : ClassId} {x : String}
    {i : Nat} : t.member? k c x = some i ↔ DeclaredOn k p c x i := by
  rw [build_member?_entry h]
  simp only [build_declared h]
  constructor
  · rintro ⟨_, ⟨c', d, hd, rfl⟩, rfl, rfl⟩
    exact ⟨d, hd, rfl⟩
  · rintro ⟨d, hd, rfl⟩
    exact ⟨_, ⟨c, d, hd, rfl⟩, rfl, rfl⟩

/-- No two members of one kind of a class have one name. -/
theorem DeclaredOn.unique (h : build p = .ok t) {k : MemberKind} {c : ClassId} {x : String}
    {i i' : Nat} (hi : DeclaredOn k p c x i) (hi' : DeclaredOn k p c x i') : i = i' :=
  Option.some.inj (((build_member? h).mpr hi).symm.trans ((build_member? h).mpr hi'))

/-! ## Look-up -/

/-- No number is without an entry in a look-up on a class of the table. -/
theorem lookup_some (h : build p = .ok t) {k : MemberKind} {c : ClassId} {x : String} {i : Nat}
    (hc : c < t.classes.length) (hi : t.member? k c x = some i) :
    ∃ e, t.lookup k c x = .ok (some e) ∧ (t.members k)[i]? = some e ∧ e.id = i := by
  obtain ⟨e, he, -⟩ := (build_member?_entry h).mp hi
  refine ⟨e, ?_, he, (build_indexed h).memberIds he⟩
  simp only [lookup, classAt, List.getElem?_eq_getElem hc, hi, memberAt, he]

theorem lookup_none {k : MemberKind} {c : ClassId} {x : String}
    (hc : c < t.classes.length) (hi : t.member? k c x = none) : t.lookup k c x = .ok none := by
  simp only [lookup, classAt, List.getElem?_eq_getElem hc, hi]

theorem lookup_iff (h : build p = .ok t) {k : MemberKind} {c : ClassId} {x : String}
    {e : MemberEntry} (hc : c < t.classes.length) : t.lookup k c x = .ok (some e) ↔
      t.member? k c x = some e.id ∧ (t.members k)[e.id]? = some e := by
  cases hi : t.member? k c x with
  | none => simp [lookup_none hc hi]
  | some i =>
    obtain ⟨e', hok, he', rfl⟩ := lookup_some h hc hi
    rw [hok]
    constructor
    · rintro ⟨⟩
      exact ⟨rfl, he'⟩
    · rintro ⟨hid, he⟩
      rw [← Option.some.inj hid] at he
      rw [Option.some.inj (he'.symm.trans he)]

/-! ## Paths -/

def ownerNames (path : Path) : List String := (path.segments.map Ident.name).dropLast

theorem naming_rejected (h : build p = .ok t) {c : ClassId} (hc : c < t.classes.length)
    {α : Type} (e : String → Rejection) :
    ∃ name, (t.naming c e : Except (Failure Rejection) α) = .error (.rejected (e name)) := by
  obtain ⟨ns, hns⟩ := build_chain h c hc
  exact ⟨_, by rw [naming, className_chain h hns]⟩

theorem stepThrough_descend (h : build p = .ok t) (path : Path) : ∀ (ss : List Ident) (c : ClassId),
    c < t.classes.length →
    (∃ d, t.descend c (ss.map Ident.name) = some d ∧ t.stepThrough path c ss = .ok d) ∨
    (t.descend c (ss.map Ident.name) = none ∧ ∃ reason, t.stepThrough path c ss =
      .error (.rejected (.unresolvedAccess path.dotted reason path.span))) := by
  intro ss
  induction ss with
  | nil => exact fun c _ => .inl ⟨c, rfl, rfl⟩
  | cons s ss ih =>
    intro c hc
    simp only [List.map_cons, descend, stepThrough, classAt, List.getElem?_eq_getElem hc]
    cases hd : t.nested c s.name with
    | none =>
      obtain ⟨name, herr⟩ := naming_rejected h hc (α := ClassId) fun name =>
        .unresolvedAccess path.dotted ("'" ++ name ++ "' has no nested class '" ++ s.name ++ "'")
          path.span
      exact .inr ⟨rfl, _, herr⟩
    | some d => exact ih d ((build_indexed h).nested hd)

/-- The class of a path is the one that all of its names but the last spell, and there is an error
about the path exactly where there is no such class. -/
theorem pathOwner_class? (h : build p = .ok t) (path : Path) :
    (∃ c, (2 ≤ path.segments.length ∧ t.class? (ownerNames path) = some c) ∧
      t.pathOwner path = .ok c) ∨
    ((path.segments.length < 2 ∨ t.class? (ownerNames path) = none) ∧ ∃ reason,
      t.pathOwner path =
        .error (.rejected (.unresolvedAccess path.dotted reason path.span))) := by
  have hroot := (build_indexed h).root
  have he := List.getElem?_eq_getElem hroot
  unfold pathOwner ownerNames
  split
  · rename_i hs
    exact .inr ⟨.inl (by simp [hs]), _, rfl⟩
  · rename_i hs
    exact .inr ⟨.inl (by simp [hs]), _, rfl⟩
  · rename_i first second rest hs
    have hlen : 2 ≤ path.segments.length := by simp [hs]
    simp only [hs, List.map_cons, List.dropLast_cons_cons, class?, classAt, he]
    rw [← List.map_cons, ← List.map_dropLast, (rootName_eq h he).1]
    split
    · obtain ⟨c, hc, hok⟩ | ⟨hc, herr⟩ :=
        stepThrough_descend h path (second :: rest).dropLast root hroot
      · exact .inl ⟨c, ⟨by simp, hc⟩, hok⟩
      · exact .inr ⟨.inr hc, herr⟩
    · exact .inr ⟨.inr rfl, _, rfl⟩

theorem pathOwner_ok (h : build p = .ok t) {path : Path} {c : ClassId} :
    t.pathOwner path = .ok c ↔
      2 ≤ path.segments.length ∧ t.class? (ownerNames path) = some c := by
  obtain ⟨c', ⟨hlen, hc⟩, hok⟩ | ⟨hno, reason, herr⟩ := pathOwner_class? h path
  · rw [hok, hc]
    simp [hlen]
  · rw [herr]
    refine ⟨fun h => by simp at h, fun ⟨hlen, hc⟩ => ?_⟩
    obtain hlt | hnone := hno
    · exact absurd hlen (Nat.not_le_of_lt hlt)
    · rw [hnone] at hc
      cases hc

theorem pathOwner_error (h : build p = .ok t) {path : Path} : (∃ reason, t.pathOwner path =
      .error (.rejected (.unresolvedAccess path.dotted reason path.span))) ↔
    path.segments.length < 2 ∨ t.class? (ownerNames path) = none := by
  obtain ⟨c, ⟨hlen, hc⟩, hok⟩ | ⟨hno, herr⟩ := pathOwner_class? h path
  · rw [hok, hc]
    simp [Nat.not_lt_of_le hlen]
  · exact ⟨fun _ => hno, fun _ => herr⟩

theorem pathOwner_lt (h : build p = .ok t) {path : Path} {c : ClassId}
    (hc : t.pathOwner path = .ok c) : c < t.classes.length :=
  ((class?_iff_chain h _ c).mp ((pathOwner_ok h).mp hc).2).lt

theorem lastSegment_last {path : Path} (h : 2 ≤ path.segments.length) :
    path.segments.getLast? = some (lastSegment path) := by
  unfold lastSegment
  rw [List.getLastD_eq_getLast?]
  cases hs : path.segments.getLast? with
  | none =>
    rw [List.getLast?_eq_none_iff] at hs
    simp [hs] at h
  | some s => rfl

theorem pathMember_cases (h : build p = .ok t) (k : MemberKind) (path : Path) :
    (∃ c last i e, t.pathOwner path = .ok c ∧ path.segments.getLast? = some last ∧
      t.member? k c last.name = some i ∧ t.pathMember k path = .ok i ∧
      (t.members k)[i]? = some e) ∨
    (∃ c last owner, t.pathOwner path = .ok c ∧ path.segments.getLast? = some last ∧
      t.member? k c last.name = none ∧ t.pathMember k path =
        .error (.rejected (.memberNotFound owner last.name k last.span))) ∨
    ∃ reason, t.pathOwner path =
        .error (.rejected (.unresolvedAccess path.dotted reason path.span)) ∧
      t.pathMember k path =
        .error (.rejected (.unresolvedAccess path.dotted reason path.span)) := by
  unfold pathMember
  obtain ⟨c, ⟨hlen, -⟩, hok⟩ | ⟨-, reason, herr⟩ := pathOwner_class? h path
  · have hc := pathOwner_lt h hok
    rw [hok, lastSegment_last hlen]
    cases hi : t.member? k c (lastSegment path).name with
    | some i =>
      obtain ⟨e, he, hat, rfl⟩ := lookup_some h hc hi
      exact .inl ⟨c, _, _, e, rfl, rfl, hi, by simp only [he], hat⟩
    | none =>
      obtain ⟨name, herr⟩ := naming_rejected h hc (α := Nat) fun name =>
        .memberNotFound name (lastSegment path).name k (lastSegment path).span
      exact .inr (.inl ⟨c, _, name, rfl, rfl, hi, by simp only [lookup_none hc hi, herr]⟩)
  · exact .inr (.inr ⟨reason, herr, by rw [herr]⟩)

theorem pathMember_ok (h : build p = .ok t) {k : MemberKind} {path : Path} {i : Nat} :
    t.pathMember k path = .ok i ↔ ∃ c last, t.pathOwner path = .ok c ∧
      path.segments.getLast? = some last ∧ t.member? k c last.name = some i := by
  obtain ⟨c, last, i', e, hc, hlast, hi, hok, -⟩ | ⟨c, last, owner, hc, hlast, hi, herr⟩ |
    ⟨reason, hc, herr⟩ := pathMember_cases h k path
  · rw [hok, hc, hlast]
    simp [hi]
  · rw [herr, hc, hlast]
    simp [hi]
  · rw [herr, hc]
    simp

/-! ## The table of a program -/

/-- Numbers of classes, chains of names and dotted paths correspond one to one. -/
structure Faithful (p : Program) (t : Catalog) : Prop where
  /-- Classes are numbered by their positions in `preorder`. -/
  positions : t.classes.length = p.preorder.length ∧
    ∀ (c : ClassId) (e : ClassEntry), t.classes[c]? = some e → e.id = c ∧
      ∃ d, p.preorder[c]? = some d ∧ e.name = d.name.name ∧ e.span = d.name.span
  /-- The root alone has no class around it; that of any other class has a smaller number and
  declares it. -/
  parents : ∀ (c : ClassId) (e : ClassEntry), t.classes[c]? = some e →
    (e.parent = none ↔ c = root) ∧ ∀ q, e.parent = some q → q < c ∧
      ∃ d dq, p.preorder[c]? = some d ∧ p.preorder[q]? = some dq ∧ d ∈ dq.nested
  /-- One list of names leads to each class: its chain, which its dotted name joins. -/
  classes : ∀ c, c < t.classes.length → ∃ ns, Chain t c ns ∧
    t.className c = .ok (String.intercalate "." ns) ∧ ∀ segments, t.class? segments = some c ↔
      segments = ns
  bounded : ∀ segments c, t.class? segments = some c → c < t.classes.length
  owner : ∀ path c, t.pathOwner path = .ok c ↔
    2 ≤ path.segments.length ∧ t.class? (ownerNames path) = some c
  ownerless : ∀ path, (∃ reason, t.pathOwner path =
      .error (.rejected (.unresolvedAccess path.dotted reason path.span))) ↔
    path.segments.length < 2 ∨ t.class? (ownerNames path) = none
  members : ∀ k path i, t.pathMember k path = .ok i ↔ ∃ c last, t.pathOwner path = .ok c ∧
    path.segments.getLast? = some last ∧ DeclaredOn k p c last.name i

theorem build_faithful {p : Program} {t : Catalog} (h : build p = .ok t) : Faithful p t := by
  have hindexed := build_indexed h
  refine ⟨⟨hindexed.classes, fun c e he => ⟨hindexed.classIds he, build_entry h he⟩⟩,
    fun c e he => ⟨root_iff h he, fun q hq => ?_⟩, fun c hc => ?_,
    fun segments c hc => ((class?_iff_chain h segments c).mp hc).lt, fun _ _ => pathOwner_ok h,
    fun _ => pathOwner_error h, fun k path i => ?_⟩
  · obtain ⟨-, hp⟩ | ⟨q', d, dq, hp, hlt, hd, hdq, hmem⟩ := build_around h he
    · rw [hp] at hq
      cases hq
    · obtain rfl := Option.some.inj (hp.symm.trans hq)
      exact ⟨hlt, d, dq, hd, hdq, hmem⟩
  · obtain ⟨ns, hchain⟩ := build_chain h c hc
    refine ⟨ns, hchain, className_chain h hchain, fun segments => ?_⟩
    rw [class?_iff_chain h]
    exact ⟨fun hc => hc.unique hchain, fun hc => hc ▸ hchain⟩
  · simp only [pathMember_ok h, build_member? h]

open Syntax.Build in
/-- A class `Main` in a class `A` in a class `Main`; the first and the last have a field `x`. -/
def dolls : Program :=
  let withX := withField (emptyClass "Main") (field .int "x" none)
  withNested withX (withNested (emptyClass "A") withX)

theorem dolls_faithful : ∃ t, build dolls = .ok t ∧ t.class? ["Main", "A", "Main"] = some 2 ∧
    Faithful dolls t :=
  ⟨_, rfl, rfl, build_faithful (rfl : build dolls = _)⟩

end Catalog

end Cascade
