import Cascade.Proofs.Catalog.Naming
import Cascade.Proofs.Typing.Program

/-!
# Cascade.Proofs.Typing.Faults

How typing of a part of a program fails.

* `InBody`: a result, or an error that is about the part itself. Typing of expressions gives such
  an answer, and by `typeList_inBody` typing of statements does: no number is used that the table
  has nothing under, and that control reaches the end of a method is found of its body as a whole.
* `typeMethod_missingReturn`: the error is found exactly where a body is typed and completes though
  a value is due.
* `typeProgram_noStray`: typing of a program uses no number without an entry.
-/

namespace Cascade

/-- Control can reach the end of a method that has to give a value. -/
def Rejection.isMissingReturn : Rejection → Bool
  | .missingReturn .. => true
  | _ => false

namespace Typing

open Syntax

/-- What comes of typing a part of a body: a result, or an error that is not about its end. -/
def InBody {α : Type} : Except (Failure Rejection) α → Prop
  | .error (.rejected r) => r.isMissingReturn = false
  | .error (.stray _) => False
  | .ok _ => True

namespace InBody

variable {α β : Type} {e : Failure Rejection}

/-- The error of a part is the error of the whole. -/
theorem error {r : Except (Failure Rejection) α} (h : InBody r) (he : r = .error e) :
    InBody (.error e : Except (Failure Rejection) β) := by
  subst he
  cases e with
  | _ => exact h

theorem fails {r : Outcome α} {st : State} (h : InBody r.1) (he : r = (.error e, st)) :
    InBody (.error e : Except (Failure Rejection) β) := by
  subst he
  cases e with
  | _ => exact h

theorem rejected (h : InBody (.error e : Except (Failure Rejection) α)) :
    ∃ r, e = .rejected r ∧ r.isMissingReturn = false := by
  cases e with
  | rejected r => exact ⟨r, rfl, h⟩
  | stray s => exact h.elim

end InBody

structure Context.Based (q : Program) (cx : Context) : Prop where
  built : Catalog.build q = .ok cx.table
  owner : cx.owner < cx.table.classes.length

/-! ## Paths and names -/

section

variable {q : Program} {t : Catalog} {k : MemberKind}

theorem memberAt_exists {i : Nat} (hi : i < (t.members k).length) :
    ∃ e, t.memberAt k i = .ok e ∧ (t.members k)[i]? = some e :=
  ⟨_, by simp only [Catalog.memberAt, List.getElem?_eq_getElem hi], List.getElem?_eq_getElem hi⟩

theorem classAt_exists {c : ClassId} (hc : c < t.classes.length) : ∃ e, t.classAt c = .ok e := by
  rw [Catalog.classAt, List.getElem?_eq_getElem hc]
  exact ⟨_, rfl⟩

/-- A look-up on a class of the program has an answer. -/
theorem lookup_answers (h : Catalog.build q = .ok t) {c : ClassId} (hc : c < t.classes.length)
    (x : String) : ∃ r, t.lookup k c x = .ok r := by
  cases hi : t.member? k c x with
  | none => exact ⟨_, Catalog.lookup_none hc hi⟩
  | some i =>
    obtain ⟨e, he, -⟩ := Catalog.lookup_some h hc hi
    exact ⟨_, he⟩

theorem naming_inBody (h : Catalog.build q = .ok t) {c : ClassId} (hc : c < t.classes.length)
    {α : Type} {e : String → Rejection} (he : ∀ name, (e name).isMissingReturn = false) :
    InBody (t.naming c e : Except (Failure Rejection) α) := by
  obtain ⟨name, hname⟩ := Catalog.naming_rejected h hc (α := α) e
  rw [hname]
  exact he name

theorem pathMember_inBody (h : Catalog.build q = .ok t) (path : Path) :
    InBody (t.pathMember k path) := by
  obtain ⟨_, _, _, _, _, _, _, hok, _⟩ | ⟨_, _, _, _, _, _, herr⟩ | ⟨_, _, herr⟩ :=
    Catalog.pathMember_cases h k path
  · rw [hok]
    trivial
  · rw [herr]
    rfl
  · rw [herr]
    rfl

end

variable {q : Program} {cx : Context} {scopes : Scopes}

theorem resolveName_inBody (hcx : cx.Based q) (id : Ident) : InBody (resolveName cx scopes id) := by
  obtain ⟨r, hr⟩ := lookup_answers (k := .field) hcx.built hcx.owner id.name
  unfold resolveName
  split
  · trivial
  rw [hr]
  cases r with
  | none => rfl
  | some e => trivial

theorem resolvePath_inBody (hcx : cx.Based q) (p : Path) : InBody (resolvePath cx p) := by
  unfold resolvePath
  split
  · exact (pathMember_inBody hcx.built p).error ‹_›
  rename_i i hi
  obtain ⟨_, _, _, _, hfound⟩ := (Catalog.pathMember_ok hcx.built).mp hi
  obtain ⟨e, he, -⟩ := memberAt_exists ((Catalog.build_indexed hcx.built).member? hfound)
  rw [he]
  trivial

theorem typeTarget_inBody (hcx : cx.Based q) (target : Expr) :
    InBody (typeTarget cx scopes target) := by
  unfold typeTarget
  split
  · exact resolveName_inBody hcx _
  · exact resolvePath_inBody hcx _
  · rfl

theorem resolveCallee_inBody (hcx : cx.Based q) (p : Path) : InBody (resolveCallee cx p) := by
  unfold resolveCallee
  split
  · split
    · exact (pathMember_inBody hcx.built p).error ‹_›
    · trivial
  extract_lets name
  obtain ⟨r, hr⟩ := lookup_answers (k := .method) hcx.built hcx.owner name
  rw [hr]
  cases r with
  | some e => trivial
  | none =>
    dsimp only
    split
    · trivial
    · exact naming_inBody hcx.built hcx.owner fun _ => rfl

theorem resolveCallee_lt (hcx : cx.Based q) {p : Path} {m : MethodId}
    (h : resolveCallee cx p = .ok (.method m)) :
    m < cx.table.methods.length := by
  have hindexed := Catalog.build_indexed hcx.built
  unfold resolveCallee at h
  split at h
  · split at h
    · cases h
    rename_i hm
    cases h
    obtain ⟨_, _, _, _, hfound⟩ := (Catalog.pathMember_ok hcx.built).mp hm
    exact hindexed.member? hfound
  extract_lets name at h
  split at h
  · cases h
  · rename_i e he
    cases h
    have hfound := ((Catalog.lookup_iff hcx.built hcx.owner).mp he).1
    exact hindexed.member? hfound
  · split at h
    · cases h
    · unfold Catalog.naming at h
      split at h
      · cases h
      · cases h

/-! ## Expressions -/

theorem mismatch_inBody {α : Type} (e : Misfit) (span : Span) :
    InBody (.error (.rejected (mismatch e span)) : Except (Failure Rejection) α) := by
  cases e with
  | _ => rfl

theorem fit_inBody (settings : Settings) (v : Typed.Expr) (t : Ty) :
    InBody (fit settings v t) := by
  unfold fit
  split
  · exact mismatch_inBody _ _
  · trivial

theorem needValue_inBody (e : Typed.Expr) : InBody (needValue e) := by
  unfold needValue
  split
  · exact mismatch_inBody _ _
  · trivial

theorem needIntegral_inBody (e : Typed.Expr) : InBody (needIntegral e) := by
  unfold needIntegral
  split
  · exact (needValue_inBody e).error ‹_›
  split
  · trivial
  · rfl

theorem typeMethodCall_inBody (hcx : cx.Based q) {m : MethodId} (hm : m < cx.table.methods.length)
    (args : Nat) (span : Span) : InBody (typeMethodCall cx m args span) := by
  obtain ⟨e, he, -⟩ := memberAt_exists (k := .method) hm
  obtain ⟨name, hname⟩ := Catalog.memberName_exists (k := .method) hcx.built hm
  unfold typeMethodCall
  rw [he, hname]
  dsimp only
  split
  · trivial
  · rfl

theorem typeSign_inBody (op : SignOp) (e : Typed.Expr) (span : Span) :
    InBody (typeSign op e span) := by
  unfold typeSign
  split
  · exact mismatch_inBody _ _
  · cases op with
    | _ => trivial

theorem typeBinary_inBody (op : BinaryOp) (l r : Typed.Expr) (span : Span) :
    InBody (typeBinary op l r span) := by
  unfold typeBinary
  split
  · exact mismatch_inBody _ _
  · trivial

mutual

theorem typeExpr_inBody (hcx : cx.Based q) : ∀ e : Expr, InBody (typeExpr cx scopes e)
  | .int n suffixed span => by
    rw [typeExpr]
    trivial
  | .float x span => by
    rw [typeExpr]
    trivial
  | .name id => by
    rw [typeExpr]
    split
    · exact (resolveName_inBody hcx id).error ‹_›
    · trivial
  | .path p => by
    rw [typeExpr]
    split
    · exact (resolvePath_inBody hcx p).error ‹_›
    · trivial
  | .sign op operand span => by
    rw [typeExpr]
    split
    · exact (typeExpr_inBody hcx operand).error ‹_›
    · exact typeSign_inBody op _ span
  | .update op before target span => by
    rw [typeExpr]
    split
    · exact (typeTarget_inBody hcx target).error ‹_›
    split
    · exact mismatch_inBody _ _
    · trivial
  | .binary op left right span => by
    rw [typeExpr]
    split
    · exact (typeExpr_inBody hcx left).error ‹_›
    split
    · exact (typeExpr_inBody hcx right).error ‹_›
    · exact typeBinary_inBody op _ _ span
  | .logical op left right span => by
    rw [typeExpr]
    split
    · exact (typeExpr_inBody hcx left).error ‹_›
    split
    · exact (needValue_inBody _).error ‹_›
    split
    · exact (typeExpr_inBody hcx right).error ‹_›
    split
    · exact (needValue_inBody _).error ‹_›
    · trivial
  | .assign target value span => by
    rw [typeExpr]
    split
    · exact (typeTarget_inBody hcx target).error ‹_›
    split
    · exact (typeExpr_inBody hcx value).error ‹_›
    split
    · exact (fit_inBody _ _ _).error ‹_›
    · trivial
  | .call callee args span => by
    rw [typeExpr]
    split
    · exact (resolveCallee_inBody hcx callee).error ‹_›
    · exact typeMethodCall_inBody hcx (resolveCallee_lt hcx ‹_›) args.length span
    · exact typePrint_inBody hcx args
  | .paren inner _ => by
    rw [typeExpr]
    exact typeExpr_inBody hcx inner

theorem typePrint_inBody (hcx : cx.Based q) {span : Span} : ∀ args : List Expr,
    InBody (typePrint cx scopes span args)
  | [] => by
    rw [typePrint]
    trivial
  | [arg] => by
    rw [typePrint]
    split
    · exact (typeExpr_inBody hcx arg).error ‹_›
    split
    · exact (needValue_inBody _).error ‹_›
    · trivial
  | _ :: _ :: _ => by
    rw [typePrint]
    · rfl
    · exact nofun
    · exact nofun

end

/-! ## Statements -/

theorem report_inBody (st : State) (w : Warning) : InBody (report cx st w).1 := by
  unfold report
  split
  · trivial
  split
  · rfl
  · trivial

theorem typeInit_inBody (hcx : cx.Based q) (t : Ty) (init : Option Expr) :
    InBody (typeInit cx scopes t init) := by
  unfold typeInit
  split
  · trivial
  split
  · exact (typeExpr_inBody hcx _).error ‹_›
  split
  · exact (fit_inBody _ _ _).error ‹_›
  · trivial

theorem typeDeclare_inBody (hcx : cx.Based q) (st : State) (t : Ty) (name : Ident)
    (init : Option Expr) :
    InBody (typeDeclare cx st t name init).1 := by
  unfold typeDeclare
  split
  · rfl
  split
  · exact (typeInit_inBody hcx _ _).error ‹_›
  split
  · rfl
  extract_lets st1
  split
  · trivial
  split
  · exact (report_inBody _ _).fails ‹_›
  · trivial

theorem typeReturn_inBody (hcx : cx.Based q) (value : Option Expr) (span : Span) :
    InBody (typeReturn cx scopes value span) := by
  unfold typeReturn
  split
  · split
    · trivial
    · rfl
  split
  · exact (typeExpr_inBody hcx _).error ‹_›
  split
  · rfl
  split
  · exact (fit_inBody _ _ _).error ‹_›
  · trivial

theorem typeLabel_inBody (hcx : cx.Based q) (test : Expr) : InBody (typeLabel cx scopes test) := by
  unfold typeLabel
  split
  · exact (typeExpr_inBody hcx _).error ‹_›
  split
  · exact (needIntegral_inBody _).error ‹_›
  split
  · rfl
  · trivial

theorem typeLabels_inBody (hcx : cx.Based q) : ∀ (cs : List Case) (ls : Labels),
    InBody (typeLabels cx scopes ls cs)
  | [], _ => trivial
  | c :: cs, ls => by
    rw [typeLabels]
    split
    · split
      · rfl
      split
      · exact (typeLabels_inBody hcx cs _).error ‹_›
      · trivial
    · split
      · exact (typeLabel_inBody hcx _).error ‹_›
      split
      · rfl
      extract_lets compare
      split
      · exact (typeLabels_inBody hcx cs _).error ‹_›
      · trivial

mutual

theorem typeStmt_inBody (hcx : cx.Based q) : ∀ (s : Stmt) (st : State),
    InBody (typeStmt cx st s).1
  | .block body _, st => by
    rw [typeStmt]
    split
    · exact (typeList_inBody hcx body _ _).fails ‹_›
    · trivial
  | .declare t name init _, st => by
    rw [typeStmt]
    exact typeDeclare_inBody hcx st t name init
  | .expr e _, st => by
    rw [typeStmt]
    split
    · exact (typeExpr_inBody hcx e).error ‹_›
    · trivial
  | .switch scrutinee cases _, st => by
    rw [typeStmt]
    split
    · exact (typeExpr_inBody hcx scrutinee).error ‹_›
    split
    · exact (needIntegral_inBody _).error ‹_›
    split
    · exact (typeLabels_inBody hcx cases _).error ‹_›
    split
    · exact (typeBodies_inBody hcx cases _).fails ‹_›
    · trivial
  | .leave _, st => by
    rw [typeStmt]
    split
    · rfl
    · trivial
  | .ret value span, st => by
    rw [typeStmt]
    exact typeReturn_inBody hcx value span
  | .empty _, st => by
    rw [typeStmt]
    trivial

theorem typeList_inBody (hcx : cx.Based q) : ∀ (ss : List Stmt) (reach : Reach) (st : State),
    InBody (typeList cx st reach ss).1
  | [], _, _ => by
    rw [typeList]
    trivial
  | s :: ss, reach, st => by
    rw [typeList]
    split
    · exact (typeStmt_inBody hcx s st).fails ‹_›
    cases reach with
    | live =>
      dsimp only
      split
      · exact (typeList_inBody hcx ss _ _).fails ‹_›
      · trivial
    | dead =>
      dsimp only
      split
      · exact typeList_inBody hcx ss _ _
      split
      · exact (report_inBody _ _).fails ‹_›
      · exact typeList_inBody hcx ss _ _
    | reported => exact typeList_inBody hcx ss _ _

theorem typeBodies_inBody (hcx : cx.Based q) : ∀ (cs : List Case) (st : State),
    InBody (typeBodies cx st cs).1
  | [], _ => by
    rw [typeBodies]
    trivial
  | .mk _ body _ :: cs, st => by
    rw [typeBodies]
    split
    · exact (typeList_inBody hcx body _ _).fails ‹_›
    split
    · exact (typeBodies_inBody hcx cs _).fails ‹_›
    · trivial

end

/-- A missing return is found where the body is typed and completes though a value is due. -/
theorem typeMethod_missingReturn {table : Catalog} (hq : Catalog.build q = .ok table)
    (settings : Settings) {id : MethodId} {info : MemberEntry}
    (hinfo : table.memberAt .method id = .ok info) {name : String}
    (hname : table.memberName .method id = .ok name) (d : MethodDecl) :
    typeMethod table settings id d =
        .error (.rejected (.missingReturn name info.ty d.name.span)) ↔
      info.ty ≠ .void ∧ ∃ body st,
        typeBody ⟨table, settings, info.owner, info.ty⟩ (.start settings) d.body =
          (.ok body, st) ∧ Typed.allComplete body = true := by
  have hvoid : info.ty.isVoid = false ↔ info.ty ≠ .void := by
    rw [← Bool.not_eq_true, Ty.isVoid_iff]
  have hcx : Context.Based q ⟨table, settings, info.owner, info.ty⟩ :=
    ⟨hq, (Catalog.build_indexed hq).owners (Catalog.memberAt_ok.mp hinfo)⟩
  rw [← hvoid]
  unfold typeMethod
  rw [hinfo, hname]
  dsimp only
  split
  · rename_i e st hb
    have hin : InBody (.error e : Except (Failure Rejection) Unit) :=
      (typeList_inBody hcx d.body .live _).fails hb
    refine iff_of_false ?_ ?_
    · intro he
      cases he
      cases hin
    · rintro ⟨-, body, st', hb', -⟩
      rw [hb] at hb'
      cases hb'
  · rename_i body st hb
    split
    · rename_i hdue
      rw [Bool.and_eq_true, Bool.not_eq_true'] at hdue
      exact iff_of_true rfl ⟨hdue.1, body, st, hb, hdue.2⟩
    · rename_i hdue
      refine iff_of_false ?_ ?_
      · intro he
        cases he
      · rintro ⟨hv, body', st', hb', hc⟩
        rw [hb] at hb'
        cases hb'
        rw [hv, hc] at hdue
        exact hdue rfl

/-! ## Whole programs -/

/-- No number without an entry has been used. -/
def NoStray {ε α : Type} : Except (Failure ε) α → Prop
  | .error (.stray _) => False
  | .error (.rejected _) => True
  | .ok _ => True

theorem InBody.noStray {α : Type} {r : Except (Failure Rejection) α} (h : InBody r) :
    NoStray r := by
  cases r with
  | ok x => trivial
  | error e =>
    cases e with
    | rejected r => trivial
    | stray s => exact h.elim

theorem NoStray.error {ε α β : Type} {e : Failure ε} {r : Except (Failure ε) α}
    (h : NoStray r) (he : r = .error e) : NoStray (.error e : Except (Failure ε) β) := by
  subst he
  cases e with
  | _ => exact h

section

variable {table : Catalog} {settings : Settings} {id : Nat}

theorem typeField_noStray (hq : Catalog.build q = .ok table) (hid : id < table.fields.length)
    (d : FieldDecl) : NoStray (typeField table settings id d) := by
  obtain ⟨info, hinfo, -⟩ := memberAt_exists (k := .field) hid
  obtain ⟨name, hname⟩ := Catalog.memberName_exists (k := .field) hq hid
  have hcx : Context.Based q ⟨table, settings, info.owner, .void⟩ :=
    ⟨hq, (Catalog.build_indexed hq).owners (Catalog.memberAt_ok.mp hinfo)⟩
  unfold typeField
  rw [hinfo, hname]
  dsimp only
  split
  · trivial
  split
  · exact (typeInit_inBody hcx _ _).noStray.error ‹_›
  · trivial

theorem typeMethod_noStray (hq : Catalog.build q = .ok table) (hid : id < table.methods.length)
    (d : MethodDecl) : NoStray (typeMethod table settings id d) := by
  obtain ⟨info, hinfo, -⟩ := memberAt_exists (k := .method) hid
  obtain ⟨name, hname⟩ := Catalog.memberName_exists (k := .method) hq hid
  have hcx : Context.Based q ⟨table, settings, info.owner, info.ty⟩ :=
    ⟨hq, (Catalog.build_indexed hq).owners (Catalog.memberAt_ok.mp hinfo)⟩
  unfold typeMethod
  rw [hinfo, hname]
  dsimp only
  split
  · rename_i hbody
    exact ((typeList_inBody hcx d.body .live _).fails hbody (β := Unit)).noStray.error rfl
  split
  · trivial
  · trivial

theorem typeFields_noStray {jobs : List (FieldDecl × FieldId)}
    (h : ∀ job ∈ jobs, NoStray (typeField table settings job.2 job.1)) :
    NoStray (typeFields table settings jobs) := by
  induction jobs with
  | nil => trivial
  | cons job rest ih =>
    obtain ⟨hjob, hrest⟩ := List.forall_mem_cons.mp h
    unfold typeFields
    split
    · exact hjob.error ‹_›
    split
    · exact (ih hrest).error ‹_›
    · trivial

theorem firstError_noStray {rs : List (Except (Failure Rejection) Typed.Method)}
    (h : ∀ r ∈ rs, NoStray r) : NoStray (firstError rs) := by
  induction rs with
  | nil => trivial
  | cons r rs ih =>
    obtain ⟨hr, hrs⟩ := List.forall_mem_cons.mp h
    cases r with
    | error e => exact hr.error rfl
    | ok m =>
      unfold firstError
      split
      · exact (ih hrs).error ‹_›
      · trivial

end

/-- Typing of a program looks nothing up under a number without an entry. -/
theorem typeProgram_noStray (settings : Settings) (p : Program) :
    NoStray (typeProgram settings p) := by
  unfold typeProgram
  split
  · rename_i e he
    obtain ⟨r, -, rfl⟩ := Catalog.build_error.mp he
    trivial
  rename_i table hq
  have hindexed := Catalog.build_indexed hq
  obtain ⟨root, hroot⟩ := classAt_exists hindexed.root
  obtain ⟨entry, hentry⟩ := lookup_answers (k := .method) hq hindexed.root settings.entryPoint
  rw [hroot, hentry]
  cases entry with
  | none => trivial
  | some entry =>
    dsimp only
    split
    · refine (typeFields_noStray fun job hjob => ?_).error ‹_›
      have hlt := (List.mem_zipIdx hjob).2.1
      exact typeField_noStray hq (by rw [hindexed.fields]; omega) job.1
    split
    · rename_i hmethods
      rw [typeMethods_results] at hmethods
      refine (firstError_noStray fun r hr => ?_).error hmethods
      obtain ⟨job, hjob, rfl⟩ := List.mem_map.mp hr
      have hlt := (List.mem_zipIdx hjob).2.1
      have hv : NoStray (typeMethod table settings job.2 job.1) :=
        typeMethod_noStray hq (by rw [hindexed.methods]; omega) job.1
      unfold verdict Verdict.result
      split
      · trivial
      · exact hv.error ‹_›
    · trivial

end Typing
end Cascade
