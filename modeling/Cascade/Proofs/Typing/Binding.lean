import Cascade.Proofs.Catalog.Paths
import Cascade.Proofs.Typing.Names
import Cascade.Proofs.Typing.Program
import Mathlib.Data.List.Forall2

/-!
# Cascade.Proofs.Typing.Binding

What each name of an accepted program stands for.

* `Typing.Binds`: the rules of binding, read off the journal of the scopes and the declarations of
  the classes alone.
* `Binds.unique`: they leave no choice.
* `keepList_binds`: all names of a list of statements are bound by these rules, those behind a
  `return` or a `break` too.
* `typeProgram_binds`: so are those of an accepted program, and a program with a name that has no
  binding is not accepted.
-/

namespace Cascade.Typing

open Syntax
open Catalog (Chain DeclaredOn)

/-- What a name that is used in class `c` stands for. -/
inductive Binds (p : Program) (t : Catalog) (c : ClassId) : Occurrence → Typed.Ref → Prop where
  /-- The latest declaration in the innermost open scope that declares the name. -/
  | slot {j : Journal} {id : Ident} {b : Binding} (hb : j.visible id.name = some b) :
      Binds p t c ⟨j, .name id⟩ (.place (.slot b.slot))
  /-- A field of the class itself, where no open scope declares the name. -/
  | ownField {j : Journal} {id : Ident} {f : FieldId} (hj : j.visible id.name = none)
      (hf : DeclaredOn .field p c id.name f) :
      Binds p t c ⟨j, .name id⟩ (.place (.field f))
  /-- A field of the class whose chain the path spells up to its last name. -/
  | field {j : Journal} {path : Path} {d : ClassId} {ns : List String} {x : String} {f : FieldId}
      (hd : Chain t d ns) (hpath : path.segments.map Ident.name = ns ++ [x])
      (hf : DeclaredOn .field p d x f) :
      Binds p t c ⟨j, .path path⟩ (.place (.field f))
  | method {j : Journal} {path : Path} {d : ClassId} {ns : List String} {x : String}
      {m : MethodId} (hd : Chain t d ns) (hpath : path.segments.map Ident.name = ns ++ [x])
      (hm : DeclaredOn .method p d x m) :
      Binds p t c ⟨j, .callee path⟩ (.method m)
  /-- A method of the class itself. -/
  | ownMethod {j : Journal} {path : Path} {m : MethodId} (hpath : path.isQualified = false)
      (hm : DeclaredOn .method p c path.dotted m) :
      Binds p t c ⟨j, .callee path⟩ (.method m)
  /-- The output routine, where the class has no method of its name. -/
  | print {j : Journal} {path : Path} (hpath : path.isQualified = false)
      (hm : ∀ m, ¬ DeclaredOn .method p c path.dotted m)
      (hname : path.dotted = printName) : Binds p t c ⟨j, .callee path⟩ .print

/-! ## Paths -/

theorem dotted_unqualified {path : Path} (h : path.isQualified = false) :
    path.dotted = (match path.segments with | [] => "" | s :: _ => s.name) := by
  unfold Path.isQualified at h
  unfold Path.dotted
  cases hs : path.segments with
  | nil => rfl
  | cons s ss =>
    cases ss with
    | nil => rfl
    | cons s' ss => simp [hs] at h

theorem qualified_of_chain {t : Catalog} {d : ClassId} {ns : List String} {x : String}
    {path : Path} (hd : Chain t d ns) (hpath : path.segments.map Ident.name = ns ++ [x]) :
    path.isQualified = true := by
  have hlen : path.segments.length = ns.length + 1 := by
    simpa using congrArg List.length hpath
  have hpos := List.length_pos_iff.mpr hd.ne_nil
  unfold Path.isQualified
  simp only [decide_eq_true_eq]
  omega

section

variable {p : Program} {t : Catalog}

theorem pathOwner_spells (hb : Catalog.build p = .ok t) {path : Path} {d : ClassId}
    {last : Ident} (hd : t.pathOwner path = .ok d) (hlast : path.segments.getLast? = some last) :
    ∃ ns, Chain t d ns ∧ path.segments.map Ident.name = ns ++ [last.name] := by
  obtain ⟨-, hclass⟩ := (Catalog.pathOwner_ok hb).mp hd
  refine ⟨_, (Catalog.class?_iff_chain hb _ _).mp hclass, ?_⟩
  have hmap : (path.segments.map Ident.name).getLast? = some last.name := by simp [hlast]
  exact (List.dropLast_append_getLast? _ hmap).symm

theorem spells_unique (hb : Catalog.build p = .ok t) {path : Path} {d d' : ClassId}
    {ns ns' : List String} {x x' : String} (hd : Chain t d ns)
    (hpath : path.segments.map Ident.name = ns ++ [x]) (hd' : Chain t d' ns')
    (hpath' : path.segments.map Ident.name = ns' ++ [x']) : d = d' ∧ x = x' := by
  obtain ⟨rfl, hx⟩ := List.append_inj' (hpath.symm.trans hpath') rfl
  have hclass := fun c => Catalog.class?_iff_chain hb ns c
  exact ⟨Option.some.inj (((hclass d).mpr hd).symm.trans ((hclass d').mpr hd')),
    (List.cons.inj hx).1⟩

/-- A name stands for one thing at most. -/
theorem Binds.unique (hb : Catalog.build p = .ok t) {c : ClassId} {o : Occurrence}
    {r r' : Typed.Ref} (h : Binds p t c o r) (h' : Binds p t c o r') : r = r' := by
  cases h with
  | slot hv =>
    cases h' with
    | slot hv' =>
      obtain rfl := Option.some.inj (hv.symm.trans hv')
      rfl
    | ownField hv' => cases hv.symm.trans hv'
  | ownField hv hf =>
    cases h' with
    | slot hv' => cases hv.symm.trans hv'
    | ownField _ hf' => rw [hf.unique hb hf']
  | field hd hpath hf =>
    cases h' with
    | field hd' hpath' hf' =>
      obtain ⟨rfl, rfl⟩ := spells_unique hb hd hpath hd' hpath'
      rw [hf.unique hb hf']
  | method hd hpath hm =>
    cases h' with
    | method hd' hpath' hm' =>
      obtain ⟨rfl, rfl⟩ := spells_unique hb hd hpath hd' hpath'
      rw [hm.unique hb hm']
    | ownMethod hq | print hq => cases (qualified_of_chain hd hpath).symm.trans hq
  | ownMethod hq hm =>
    cases h' with
    | method hd hpath => cases (qualified_of_chain hd hpath).symm.trans hq
    | ownMethod _ hm' => rw [hm.unique hb hm']
    | print _ hno => exact absurd hm (hno _)
  | print hq hno =>
    cases h' with
    | method hd hpath => cases (qualified_of_chain hd hpath).symm.trans hq
    | ownMethod _ hm => exact absurd hm (hno _)
    | print => rfl

end

/-! ## Expressions -/

def Callee.ref : Callee → Typed.Ref
  | .method m => .method m
  | .print => .print

/-- The table is that of the program, and the scopes are as a journal tells. -/
structure Told (p : Program) (cx : Context) (s : Scopes) (j : Journal) : Prop where
  built : Catalog.build p = .ok cx.table
  agrees : s.Agrees j
  ordered : j.Ordered

section

variable {p : Program} {cx : Context} {s : Scopes} {j : Journal}

theorem Told.start (hb : Catalog.build p = .ok cx.table) (policy : Redeclaration) :
    Told p cx (.start policy) (.start policy) :=
  ⟨hb, Scopes.start_agrees policy, Journal.start_ordered policy⟩

theorem Told.act (h : Told p cx s j) (a : Act) : Told p cx (s.act a) (j.note a) :=
  ⟨h.built, h.agrees.act h.ordered a, h.ordered.note a⟩

theorem resolveName_binds (ht : Told p cx s j) {id : Ident}
    {place : Typed.Place} {ty : Ty} (h : resolveName cx s id = .ok (place, ty)) :
    Binds p cx.table cx.owner ⟨j, .name id⟩ (.place place) := by
  unfold resolveName at h
  rw [ht.agrees.lookup] at h
  split at h
  · rename_i b hv
    cases h
    exact .slot hv
  rename_i hv
  split at h
  · cases h
  · rename_i f hf
    cases h
    have hmember := (Catalog.lookup_entry (Catalog.build_indexed ht.built).memberIds hf).1
    exact .ownField hv ((Catalog.build_member? ht.built).mp hmember)
  · cases h

theorem resolvePath_binds (hb : Catalog.build p = .ok cx.table) (j : Journal) {path : Path}
    {place : Typed.Place} {ty : Ty}
    (h : resolvePath cx path = .ok (place, ty)) :
    Binds p cx.table cx.owner ⟨j, .path path⟩ (.place place) := by
  unfold resolvePath at h
  split at h
  · cases h
  rename_i f hf
  split at h
  · cases h
  cases h
  obtain ⟨d, last, hd, hlast, hfield⟩ := (Catalog.pathMember_ok hb).mp hf
  obtain ⟨ns, hchain, hpath⟩ := pathOwner_spells hb hd hlast
  exact .field hchain hpath ((Catalog.build_member? hb).mp hfield)

theorem typeTarget_binds (ht : Told p cx s j) {target : Expr}
    {place : Typed.Place} {ty : Ty} (h : typeTarget cx s target = .ok (place, ty)) :
    List.Forall₂ (Binds p cx.table cx.owner) (target.uses.map (.mk j)) [.place place] := by
  rw [← target.uses_stripParens]
  unfold typeTarget at h
  split at h
  · rename_i id hid
    rw [hid]
    exact .cons (resolveName_binds ht h) .nil
  · rename_i path hpath
    rw [hpath]
    exact .cons (resolvePath_binds ht.built j h) .nil
  · cases h

theorem resolveCallee_binds (hb : Catalog.build p = .ok cx.table) (j : Journal) {path : Path}
    {callee : Callee} (h : resolveCallee cx path = .ok callee) :
    Binds p cx.table cx.owner ⟨j, .callee path⟩ callee.ref := by
  unfold resolveCallee at h
  cases hq : path.isQualified with
  | true =>
    rw [hq, if_pos rfl] at h
    split at h
    · cases h
    rename_i m hm
    cases h
    obtain ⟨d, last, hd, hlast, hmethod⟩ := (Catalog.pathMember_ok hb).mp hm
    obtain ⟨ns, hchain, hpath⟩ := pathOwner_spells hb hd hlast
    exact .method hchain hpath ((Catalog.build_member? hb).mp hmethod)
  | false =>
    rw [hq, if_neg Bool.false_ne_true] at h
    extract_lets name at h
    have hname : path.dotted = name := dotted_unqualified hq
    rw [← hname] at h
    split at h
    · cases h
    · rename_i e he
      cases h
      have hmember := (Catalog.lookup_entry (Catalog.build_indexed hb).memberIds he).1
      exact .ownMethod hq ((Catalog.build_member? hb).mp hmember)
    rename_i hno
    split at h
    · rename_i hprint
      cases h
      refine .print hq (fun m hm => ?_) hprint
      cases (Catalog.lookup_absent hno).symm.trans ((Catalog.build_member? hb).mpr hm)
    · unfold Catalog.naming at h
      split at h
      · cases h
      · cases h

mutual

theorem typeExpr_binds (ht : Told p cx s j) :
    ∀ (e : Expr) (t : Typed.Expr), typeExpr cx s e = .ok t →
      List.Forall₂ (Binds p cx.table cx.owner) (e.uses.map (.mk j)) t.refs
  | .int n suffixed span, t, h | .float x span, t, h => by
    simp only [typeExpr] at h
    cases h
    exact .nil
  | .name id, t, h => by
    simp only [typeExpr] at h
    split at h
    · cases h
    · rename_i hp
      cases h
      exact .cons (resolveName_binds ht hp) .nil
  | .path path, t, h => by
    simp only [typeExpr] at h
    split at h
    · cases h
    · rename_i hp
      cases h
      exact .cons (resolvePath_binds ht.built j hp) .nil
  | .sign op operand span, t, h => by
    simp only [typeExpr] at h
    split at h
    · cases h
    · rename_i he
      rw [typeSign_refs h]
      exact typeExpr_binds ht operand _ he
  | .update op before target span, t, h => by
    simp only [typeExpr] at h
    split at h
    · cases h
    rename_i hp
    split at h
    · cases h
    cases h
    have hbound := typeTarget_binds ht hp
    exact hbound
  | .binary op left right span, t, h => by
    simp only [typeExpr] at h
    split at h
    · cases h
    rename_i hl
    split at h
    · cases h
    rename_i hr
    rw [typeBinary_refs h, Expr.uses, List.map_append]
    exact List.rel_append (typeExpr_binds ht left _ hl) (typeExpr_binds ht right _ hr)
  | .logical op left right span, t, h => by
    simp only [typeExpr] at h
    split at h
    · cases h
    rename_i hl
    split at h
    · cases h
    rename_i hnl
    split at h
    · cases h
    rename_i hr
    split at h
    · cases h
    rename_i hnr
    cases h
    obtain ⟨rfl, -⟩ := needValue_ok hnl
    obtain ⟨rfl, -⟩ := needValue_ok hnr
    rw [Typed.Expr.refs, Expr.uses, List.map_append]
    exact List.rel_append (typeExpr_binds ht left _ hl) (typeExpr_binds ht right _ hr)
  | .assign target value span, t, h => by
    simp only [typeExpr] at h
    split at h
    · cases h
    rename_i hp
    split at h
    · cases h
    rename_i hv
    split at h
    · cases h
    rename_i hf
    cases h
    rw [Typed.Expr.refs, fit_refs hf, Expr.uses, List.map_append]
    exact List.rel_append (typeTarget_binds ht hp) (typeExpr_binds ht value _ hv)
  | .call callee args span, t, h => by
    simp only [typeExpr] at h
    split at h
    · cases h
    · rename_i m hm
      unfold typeMethodCall at h
      split at h
      · cases h
      split at h
      · rename_i hargs
        cases h
        obtain rfl := List.eq_nil_of_length_eq_zero hargs
        exact .cons (resolveCallee_binds ht.built j hm) .nil
      split at h
      · cases h
      · cases h
    · rename_i hp
      obtain ⟨rs, hrefs, hargs⟩ := typePrint_binds ht span args t h
      rw [hrefs]
      exact .cons (resolveCallee_binds ht.built j hp) hargs
  | .paren inner _, t, h => by
    simp only [typeExpr] at h
    exact typeExpr_binds ht inner t h

theorem typePrint_binds (ht : Told p cx s j) (span : Span) :
    ∀ (args : List Expr) (t : Typed.Expr), typePrint cx s span args = .ok t →
      ∃ rs, t.refs = .print :: rs ∧
        List.Forall₂ (Binds p cx.table cx.owner) ((usesOfArgs args).map (.mk j)) rs
  | [], t, h => by
    simp only [typePrint] at h
    cases h
    exact ⟨[], rfl, .nil⟩
  | [arg], t, h => by
    simp only [typePrint] at h
    split at h
    · cases h
    rename_i hv
    split at h
    · cases h
    rename_i hn
    cases h
    obtain ⟨rfl, -⟩ := needValue_ok hn
    refine ⟨_, rfl, ?_⟩
    rw [usesOfArgs, usesOfArgs, List.append_nil]
    exact typeExpr_binds ht arg _ hv
  | _ :: _ :: _, t, h => by
    simp only [typePrint] at h
    cases h

end

/-! ## Statements -/

theorem typeInit_binds (ht : Told p cx s j) {ty : Ty} {init : Option Expr}
    {r : Option Typed.Expr} (h : typeInit cx s ty init = .ok r) :
    List.Forall₂ (Binds p cx.table cx.owner) ((usesOfOption init).map (.mk j))
      (Typed.refsOfOption r) := by
  unfold typeInit at h
  split at h
  · cases h
    exact .nil
  split at h
  · cases h
  rename_i hv
  split at h
  · cases h
  rename_i hf
  cases h
  rw [Typed.refsOfOption, fit_refs hf]
  exact typeExpr_binds ht _ _ hv

theorem typeReturn_binds (ht : Told p cx s j) {value : Option Expr}
    {span : Span} {t : Typed.Stmt} (h : typeReturn cx s value span = .ok t) :
    List.Forall₂ (Binds p cx.table cx.owner) ((usesOfOption value).map (.mk j)) t.refs := by
  unfold typeReturn at h
  split at h
  · split at h
    · cases h
      exact .nil
    · cases h
  · split at h
    · cases h
    rename_i hv
    split at h
    · cases h
    split at h
    · cases h
    rename_i hf
    cases h
    rw [Typed.Stmt.refs, Typed.refsOfOption, fit_refs hf]
    exact typeExpr_binds ht _ _ hv

/-- The label of an accepted case is a constant, and so it uses no name. -/
theorem typeLabel_uses (ht : Told p cx s j) {test : Expr}
    {e : Typed.Expr} {n : Int} (h : typeLabel cx s test = .ok (e, n)) : test.uses = [] := by
  unfold typeLabel at h
  split at h
  · cases h
  rename_i he
  split at h
  · cases h
  rename_i hi
  obtain ⟨rfl, -⟩ := needIntegral_ok hi
  split at h
  · cases h
  rename_i e _ _ hn
  have hrefs : e.refs = [] := by
    unfold Typed.Expr.label? at hn
    split at hn
    · split at hn
      · rename_i hc
        exact Typed.Expr.refs_constant hc
      · cases hn
    · cases hn
  have hbound := typeExpr_binds ht test _ he
  rw [hrefs] at hbound
  exact List.map_eq_nil_iff.mp (List.forall₂_nil_right_iff.mp hbound)

theorem typeLabels_uses (ht : Told p cx s j) :
    ∀ {cases : List Case} {ls : Labels} {labels : List (Option Int)} {compare : Ty},
      typeLabels cx s ls cases = .ok (labels, compare) →
      labels.length = cases.length ∧ usesOfLabels cases = []
  | [], ls, labels, compare, h => by
    simp only [typeLabels] at h
    cases h
    exact ⟨rfl, rfl⟩
  | c :: cs, ls, labels, compare, h => by
    simp only [typeLabels] at h
    split at h
    · rename_i htest
      split at h
      · cases h
      split at h
      · cases h
      rename_i hrest
      cases h
      obtain ⟨hlen, huses⟩ := typeLabels_uses ht hrest
      refine ⟨congrArg (· + 1) hlen, ?_⟩
      rw [usesOfLabels, List.flatMap_cons, htest]
      exact huses
    · rename_i test htest
      split at h
      · cases h
      rename_i hl
      split at h
      · cases h
      split at h
      · cases h
      rename_i hrest
      cases h
      obtain ⟨hlen, huses⟩ := typeLabels_uses ht hrest
      refine ⟨congrArg (· + 1) hlen, ?_⟩
      rw [usesOfLabels, List.flatMap_cons, htest]
      exact List.append_eq_nil_iff.mpr ⟨typeLabel_uses ht hl, huses⟩

/-- What typing some statements does: afterwards the scopes are as the journal of their events
tells, with a slot for each declaration, and every name among them is bound. -/
structure Bound (p : Program) (cx : Context) (j : Journal) (es : List Event) (st st' : State)
    (rs : List Typed.Ref) : Prop where
  told : Told p cx st'.scopes (j.through es)
  storage : st'.scopes.locals = st.scopes.locals ++ localsOf es
  binds : List.Forall₂ (Binds p cx.table cx.owner) (Occurrence.among j es) rs

theorem Bound.nothing {st st' : State} (ht : Told p cx st.scopes j)
    (h : st'.scopes = st.scopes) : Bound p cx j [] st st' [] :=
  ⟨h ▸ ht, by rw [h]; exact (List.append_nil _).symm, .nil⟩

theorem Bound.append {es fs : List Event} {st st' st'' : State} {rs qs : List Typed.Ref}
    (h : Bound p cx j es st st' rs) (h' : Bound p cx (j.through es) fs st' st'' qs) :
    Bound p cx j (es ++ fs) st st'' (rs ++ qs) := by
  refine ⟨?_, ?_, ?_⟩
  · rw [j.through_append]
    exact h'.told
  · rw [h'.storage, h.storage, localsOf_append, List.append_assoc]
  · rw [Occurrence.among_append]
    exact List.rel_append h.binds h'.binds

theorem Bound.uses {us : List Use} {st : State} {rs : List Typed.Ref}
    (ht : Told p cx st.scopes j)
    (h : List.Forall₂ (Binds p cx.table cx.owner) (us.map (.mk j)) rs) :
    Bound p cx j (us.map .use) st st rs := by
  refine ⟨?_, ?_, ?_⟩
  · rw [j.through_uses]
    exact ht
  · rw [localsOf_uses, List.append_nil]
  · rw [Occurrence.among_uses]
    exact h

/-- Statements in a scope of their own. -/
theorem Bound.enclose {st st' : State} {kind : ScopeKind} {es : List Event}
    {rs : List Typed.Ref} (ht : Told p cx st.scopes j)
    (h : Bound p cx (j.note (.push kind)) es (st.enter kind) st' rs) :
    Bound p cx j (.act (.push kind) :: es ++ [.act .pop]) st (st'.exit kind) rs := by
  have hopen : Bound p cx j [.act (.push kind)] st (st.enter kind) [] :=
    ⟨ht.act (.push kind), (List.append_nil _).symm, .nil⟩
  have hclose : Bound p cx ((j.note (.push kind)).through es) [.act .pop] st' (st'.exit kind)
      [] := by
    refine ⟨h.told.act .pop, ?_, .nil⟩
    have hpop : st'.scopes.pop.locals = st'.scopes.locals := by
      unfold Scopes.pop
      split <;> rfl
    exact hpop.trans (List.append_nil _).symm
  have hall := hopen.append (h.append hclose)
  rwa [List.append_nil] at hall

theorem report_scopes {st st' : State} {w : Warning} {r : Except (Failure Rejection) Unit}
    (h : report cx st w = (r, st')) : st'.scopes = st.scopes := by
  unfold report at h
  split at h
  · cases h; rfl
  split at h
  · cases h; rfl
  · cases h; rfl

theorem follow_scopes {st st' : State} {reach : Reach} {s : Stmt} {completes : Bool}
    {r : Except (Failure Rejection) Reach} (h : follow cx st reach s completes = (r, st')) :
    st'.scopes = st.scopes := by
  unfold follow at h
  split at h
  · cases h; rfl
  · split at h
    · cases h; rfl
    split at h
    · rename_i hr
      cases h
      exact report_scopes hr
    · rename_i hr
      cases h
      exact report_scopes hr
  · cases h; rfl

theorem typeDeclare_binds {st st' : State} (ht : Told p cx st.scopes j) {ty : Ty} {name : Ident}
    {init : Option Expr} {t : Typed.Stmt} (span : Span)
    (h : typeDeclare cx st ty name init = (.ok t, st')) :
    Bound p cx j (Stmt.declare ty name init span).events st st' t.refs := by
  unfold typeDeclare at h
  split at h
  · cases h
  split at h
  · cases h
  rename_i hinit
  split at h
  · cases h
  rename_i scopes declared hdecl
  have hact : scopes = st.scopes.act (.declare name.name ty name.span) := by
    simp only [Scopes.act, hdecl]
  have hadd : scopes = (st.scopes.add name.name ty name.span).1 :=
    congrArg Prod.fst (Scopes.declare_ok hdecl)
  dsimp only at h
  -- the warning about a hidden variable changes no scope
  have hst : st'.scopes = scopes ∧ t.refs = Typed.refsOfOption ‹_› := by
    split at h
    · cases h
      exact ⟨rfl, rfl⟩
    split at h
    · cases h
    · rename_i hr
      cases h
      exact ⟨report_scopes hr, rfl⟩
  have hdeclare : Bound p cx j [.act (.declare name.name ty name.span)] st st' [] := by
    refine ⟨?_, ?_, .nil⟩
    · rw [hst.1, hact]
      exact ht.act _
    · rw [hst.1, hadd]
      rfl
  have hbound := (Bound.uses ht (typeInit_binds ht hinit)).append
    (by rw [j.through_uses]; exact hdeclare)
  rw [List.append_nil] at hbound
  rw [hst.2]
  exact hbound

mutual

theorem keepStmt_binds {p : Program} {cx : Context} : ∀ (s : Stmt) {st st' : State} {j : Journal}
    {t : Typed.Stmt}, Told p cx st.scopes j → keepStmt cx st s = (.ok t, st') →
    Bound p cx j s.events st st' t.refs
  | .block body _, st, st', j, t, ht, h => by
    simp only [keepStmt] at h
    split at h
    · cases h
    rename_i hbody
    cases h
    exact .enclose ht (keepList_binds body (ht.act (.push .block)) hbody)
  | .declare ty name init span, st, st', j, t, ht, h => by
    simp only [keepStmt] at h
    exact typeDeclare_binds ht span h
  | .expr e _, st, st', j, t, ht, h => by
    simp only [keepStmt] at h
    split at h
    · cases h
    rename_i he
    cases h
    exact .uses ht (typeExpr_binds ht e _ he)
  | .switch scrutinee cases _, st, st', j, t, ht, h => by
    simp only [keepStmt] at h
    split at h
    · cases h
    rename_i he
    split at h
    · cases h
    rename_i hi
    obtain ⟨rfl, -⟩ := needIntegral_ok hi
    split at h
    · cases h
    rename_i hl
    split at h
    · cases h
    rename_i hbodies
    cases h
    obtain ⟨hlen, huses⟩ := typeLabels_uses ht hl
    obtain ⟨hlen', hbound⟩ := keepBodies_binds cases (ht.act (.push .switch)) hbodies
    rw [Stmt.events, huses, List.append_nil, Typed.Stmt.refs, Typed.Expr.refs_cast,
      Typed.refsOfCases_zipWith (hlen.trans hlen'.symm)]
    refine (Bound.uses ht (typeExpr_binds ht scrutinee _ he)).append ?_
    rw [j.through_uses]
    exact .enclose ht hbound
  | .leave _, st, st', j, t, ht, h => by
    simp only [keepStmt] at h
    split at h
    · cases h
    · cases h
      exact .nothing ht rfl
  | .ret value span, st, st', j, t, ht, h => by
    simp only [keepStmt, Prod.mk.injEq] at h
    obtain ⟨hret, rfl⟩ := h
    exact .uses ht (typeReturn_binds ht hret)
  | .empty _, st, st', j, t, ht, h => by
    simp only [keepStmt] at h
    cases h
    exact .nothing ht rfl

theorem keepList_binds {p : Program} {cx : Context} : ∀ (ss : List Stmt) {reach : Reach}
    {st st' : State} {j : Journal} {ts : List Typed.Stmt}, Told p cx st.scopes j →
    keepList cx st reach ss = (.ok ts, st') →
    Bound p cx j (eventsOfList ss) st st' (Typed.refsOfList ts)
  | [], reach, st, st', j, ts, ht, h => by
    simp only [keepList] at h
    cases h
    exact .nothing ht rfl
  | s :: ss, reach, st, st', j, ts, ht, h => by
    simp only [keepList] at h
    split at h
    · cases h
    rename_i hs
    split at h
    · cases h
    rename_i hf
    split at h
    · cases h
    rename_i hrest
    cases h
    have hstmt := keepStmt_binds s ht hs
    have hfollow := hstmt.append (.nothing hstmt.told (follow_scopes hf))
    rw [List.append_nil, List.append_nil] at hfollow
    exact hfollow.append (keepList_binds ss hfollow.told hrest)

theorem keepBodies_binds {p : Program} {cx : Context} : ∀ (cs : List Case) {st st' : State}
    {j : Journal} {bodies : List (List Typed.Stmt)}, Told p cx st.scopes j →
    keepBodies cx st cs = (.ok bodies, st') →
    bodies.length = cs.length ∧
      Bound p cx j (eventsOfCases cs) st st' (bodies.flatMap Typed.refsOfList)
  | [], st, st', j, bodies, ht, h => by
    simp only [keepBodies] at h
    cases h
    exact ⟨rfl, .nothing ht rfl⟩
  | .mk _ body _ :: cs, st, st', j, bodies, ht, h => by
    simp only [keepBodies] at h
    split at h
    · cases h
    rename_i hbody
    split at h
    · cases h
    rename_i hrest
    cases h
    have hlist := keepList_binds body ht hbody
    obtain ⟨hlen, hbound⟩ := keepBodies_binds cs hlist.told hrest
    exact ⟨congrArg (· + 1) hlen, hlist.append hbound⟩

end

end

/-! ## Programs -/

def bodySites (policy : Redeclaration) (d : MethodDecl) : List Occurrence :=
  Occurrence.among (.start policy) (eventsOfList d.body)

/-- The names in the initial value of a field, where no local variable is in scope. -/
def initSites (policy : Redeclaration) (d : FieldDecl) : List Occurrence :=
  Occurrence.among (.start policy) ((usesOfOption d.init).map .use)

/-- The names in the members of a class. -/
def classSites (policy : Redeclaration) (cd : ClassDecl) : List Occurrence :=
  cd.fields.flatMap (initSites policy) ++ cd.methods.flatMap (bodySites policy)

/-- The method of an accepted program that comes from a declaration in class `c`. Its body is what
is left of one in which nothing is dropped, and in that one every name is bound. -/
structure MethodBound (settings : Settings) (p : Program) (t : Catalog) (c : ClassId)
    (d : MethodDecl) (m : Typed.Method) (whole : List Typed.Stmt) : Prop where
  kept : ∃ st, keepList ⟨t, settings, c, d.returns⟩ (.start settings) .live d.body =
    (.ok whole, st)
  body : m.body = Typed.trimList whole
  binds : List.Forall₂ (Binds p t c) (bodySites settings.switchRedeclaration d)
    (Typed.refsOfList whole)
  /-- Every declaration has its own slot, in the order in which they are written. -/
  locals : m.locals = localsOf (eventsOfList d.body)
  /-- The slot that a name is bound to is recorded under that name. -/
  recorded : ∀ o ∈ bodySites settings.switchRedeclaration d, ∀ id b, o.use = .name id →
    o.before.visible id.name = some b → m.locals[b.slot]? = some ⟨id.name, b.ty, b.span⟩

/-- All names of an accepted program are bound, class by class. -/
structure LexicallyBound (settings : Settings) (p : Program) (a : Accepted) : Prop where
  built : Catalog.build p = .ok a.table
  methods : ∀ {c : ClassId} {cd : ClassDecl} {k : Nat} {d : MethodDecl},
    p.preorder[c]? = some cd → cd.methods[k]? = some d → ∃ m whole,
      a.program.methods[((p.preorder.take c).flatMap ClassDecl.methods).length + k]? = some m ∧
      MethodBound settings p a.table c d m whole
  fields : ∀ {c : ClassId} {cd : ClassDecl} {k : Nat} {d : FieldDecl},
    p.preorder[c]? = some cd → cd.fields[k]? = some d → ∃ f,
      a.program.fields[((p.preorder.take c).flatMap ClassDecl.fields).length + k]? = some f ∧
      List.Forall₂ (Binds p a.table c) (initSites settings.switchRedeclaration d)
        (Typed.refsOfOption f.init)

/-- Some name in a class stands for nothing. -/
def Unbound (settings : Settings) (p : Program) (t : Catalog) : Prop :=
  ∃ c cd, p.preorder[c]? = some cd ∧ ∃ o ∈ classSites settings.switchRedeclaration cd,
    ∀ r, ¬ Binds p t c o r

theorem typeMethod_bound {settings : Settings} {p : Program} {t : Catalog}
    (hb : Catalog.build p = .ok t) {c : ClassId} {d : MethodDecl} {i : MethodId}
    (hd : Catalog.Declares ClassDecl.methods p c d i) {m : Typed.Method} {ws : List Warning}
    (h : typeMethod t settings i d = .ok (m, ws)) :
    ∃ whole, MethodBound settings p t c d m whole := by
  obtain ⟨info, name, body, st, hinfo, -, hbody, -, rfl, -⟩ := typeMethod_ok h
  have hentry := (Catalog.build_declared (k := .method) hb).mpr
    ⟨c, _, hd.method, rfl⟩
  obtain rfl := Except.ok.inj (hinfo.symm.trans (Catalog.memberAt_ok.mpr hentry))
  obtain ⟨whole, hkept, rfl⟩ := typeList_of_ok hbody
  have hstart : Told p ⟨t, settings, c, d.returns⟩ (State.start settings).scopes
      (.start settings.switchRedeclaration) := .start hb _
  have hbound := keepList_binds d.body hstart hkept
  refine ⟨whole, ⟨st, hkept⟩, rfl, hbound.binds, hbound.storage, ?_⟩
  intro o ho id b _ hvisible
  -- the declaration is still in the journal when the body ends
  have hlogged : b ∈ (Journal.through (.start settings.switchRedeclaration)
      (eventsOfList d.body)).log :=
    (Occurrence.among_log _ _ o ho).subset (Journal.firstIn_logged hvisible)
  have hrecord := hbound.told.agrees.recorded b hlogged
  rwa [(Journal.firstIn_mem hvisible).1] at hrecord

theorem typeField_bound {settings : Settings} {p : Program} {t : Catalog}
    (hb : Catalog.build p = .ok t) {c : ClassId} {d : FieldDecl} {i : FieldId}
    (hd : Catalog.Declares ClassDecl.fields p c d i) {f : Typed.Field}
    (h : typeField t settings i d = .ok f) :
    List.Forall₂ (Binds p t c) (initSites settings.switchRedeclaration d)
      (Typed.refsOfOption f.init) := by
  obtain ⟨info, name, init, hinfo, -, -, hinit, rfl⟩ := typeField_ok h
  have hentry := (Catalog.build_declared (k := .field) hb).mpr
    ⟨c, _, hd.field, rfl⟩
  obtain rfl := Except.ok.inj (hinfo.symm.trans (Catalog.memberAt_ok.mpr hentry))
  rw [initSites, Occurrence.among_uses]
  exact typeInit_binds (Told.start hb settings.switchRedeclaration) hinit

theorem typeProgram_bound {settings : Settings} {p : Program} {a : Accepted}
    (h : typeProgram settings p = .ok a) : LexicallyBound settings p a := by
  have hmembers := typeProgram_members h
  have hb := hmembers.built
  refine ⟨hb, fun {c cd k d} hc hk => ?_, fun {c cd k d} hc hk => ?_⟩
  · have hd : Catalog.Declares ClassDecl.methods p c d _ := ⟨cd, k, hc, hk, rfl⟩
    obtain ⟨m, ws, hm, hok⟩ := hmembers.method (Catalog.declares_iff.mpr ⟨c, hd⟩)
    obtain ⟨whole, hbound⟩ := typeMethod_bound hb hd hok
    exact ⟨m, whole, hm, hbound⟩
  · have hd : Catalog.Declares ClassDecl.fields p c d _ := ⟨cd, k, hc, hk, rfl⟩
    obtain ⟨f, hf, hok⟩ := hmembers.field (Catalog.declares_iff.mpr ⟨c, hd⟩)
    exact ⟨f, hf, typeField_bound hb hd hok⟩

/-- A list that is related element by element leaves out none of its elements. -/
theorem forall₂_exists {α β : Type} {R : α → β → Prop} {as : List α} {bs : List β}
    (h : List.Forall₂ R as bs) {x : α} (hx : x ∈ as) : ∃ y, R x y := by
  induction h with
  | nil => cases hx
  | cons hab _ ih =>
    obtain rfl | hx := List.mem_cons.mp hx
    · exact ⟨_, hab⟩
    · exact ih hx

theorem LexicallyBound.site {settings : Settings} {p : Program} {a : Accepted}
    (h : LexicallyBound settings p a) {c : ClassId} {cd : ClassDecl}
    (hc : p.preorder[c]? = some cd) {o : Occurrence}
    (ho : o ∈ classSites settings.switchRedeclaration cd) : ∃ r, Binds p a.table c o r := by
  obtain ho | ho := List.mem_append.mp ho
  · obtain ⟨d, hd, ho⟩ := List.mem_flatMap.mp ho
    obtain ⟨k, hk⟩ := List.getElem?_of_mem hd
    obtain ⟨f, -, hbound⟩ := h.fields hc hk
    exact forall₂_exists hbound ho
  · obtain ⟨d, hd, ho⟩ := List.mem_flatMap.mp ho
    obtain ⟨k, hk⟩ := List.getElem?_of_mem hd
    obtain ⟨m, whole, -, hbound⟩ := h.methods hc hk
    exact forall₂_exists hbound.binds ho

/-- In an accepted program every name is bound, and a program with a name that stands for nothing
is not accepted. -/
theorem typeProgram_binds (settings : Settings) (p : Program) :
    (∀ a, typeProgram settings p = .ok a → LexicallyBound settings p a) ∧
      ∀ t, Catalog.build p = .ok t → Unbound settings p t →
        ∃ e, typeProgram settings p = .error e := by
  refine ⟨fun a h => typeProgram_bound h, fun t hb hun => ?_⟩
  obtain ⟨c, cd, hc, o, ho, hno⟩ := hun
  cases h : typeProgram settings p with
  | error e => exact ⟨e, rfl⟩
  | ok a =>
    have hbound := typeProgram_bound h
    obtain rfl : a.table = t := Except.ok.inj (hbound.built.symm.trans hb)
    obtain ⟨r, hr⟩ := hbound.site hc ho
    exact absurd hr (hno r)

open Syntax.Build in
/-- A local variable that hides a field, starts with the value of that field and is then stepped. -/
def hidden : Program :=
  let main := method .void "main"
    [block [declare .int "x" (some (name "x")), expr (postIncrement (paren (name "x")))],
      print (path ["Main", "x"])]
  withMethod (withField (emptyClass "Main") (field .int "x" (some (int 3)))) main

open Syntax.Build in
/-- A nested class that names a field of the class around it alone. -/
def stray : Program :=
  let inner := withMethod (emptyClass "A") (method .void "show" [print (name "x")])
  let main := method .void "main" [expr (call ["Main", "A", "show"] [])]
  withNested (withMethod (withField (emptyClass "Main") (field .int "x" none)) main) inner

theorem hidden_stray_binds :
    (∃ a, typeProgram .default hidden = .ok a ∧ LexicallyBound .default hidden a) ∧
      ∃ e, typeProgram .default stray = .error e := by
  refine ⟨⟨_, rfl, (typeProgram_binds .default hidden).1 _ rfl⟩, ?_⟩
  refine (typeProgram_binds .default stray).2 _ rfl ⟨1, _, rfl, ⟨_, .name ⟨"x", .zero⟩⟩,
    .tail _ (.head _), fun r hr => ?_⟩
  cases hr with
  | slot hvisible => cases hvisible
  | ownField _ hfield =>
    obtain ⟨d, ⟨cd, k, hc, hk, -⟩, -⟩ := hfield
    cases hc
    cases hk

end Cascade.Typing
