import Cascade.Proofs.Typing.TwoSettings
import Cascade.Proofs.Typing.Program

/-!
# Cascade.Proofs.Typing.Options

What the choices of a user can change in the typing of a program.

* `gather`, `typeProgram_gather`: the methods with all their warnings, one after another.
* `Settles`: a member or a program typed under some settings, and the same under others.
* `typeProgram_settles`: wider rules and another choice of warnings, both at once.
* `warnings_settle`: the choice of warnings only filters them, or makes one of them an error.
* `wider_unseen`: wider rules change nothing in what narrower ones accept.
-/

namespace Cascade

namespace Settings

def warned (settings : Settings) (c : WarningSettings) : Settings :=
  ⟨settings.entryPoint, settings.switchRedeclaration, settings.constantNarrowing,
    settings.parallel, c⟩

def ruled (settings : Settings) (policy : Redeclaration) (narrowing : Bool) : Settings :=
  ⟨settings.entryPoint, policy, narrowing, settings.parallel, settings.warnings⟩

end Settings

namespace Typing

open Syntax

variable {α : Type} {table : Catalog} {s s' : Settings}

/-! ## Methods one after another -/

/-- The methods and all their warnings, or the first error. -/
def gather : List Verdict → Except (Failure Rejection) (List Typed.Method × List Warning)
  | [] => .ok ([], [])
  | .error e :: _ => .error e
  | .ok (m, ws) :: vs =>
    match gather vs with
    | .error e => .error e
    | .ok (ms, more) => .ok (m :: ms, ws ++ more)

theorem gather_eq : ∀ vs : List Verdict, gather vs =
    match firstError (vs.map Verdict.result) with
    | .error e => .error e
    | .ok ms => .ok (ms, vs.flatMap Verdict.warnings)
  | [] => rfl
  | .error e :: vs => rfl
  | .ok (m, ws) :: vs => by
    simp only [gather, gather_eq vs, List.map_cons, Verdict.result, firstError]
    cases firstError (vs.map Verdict.result) <;> rfl

/-- The verdicts on all methods of a program. -/
def verdicts (table : Catalog) (settings : Settings) (p : Program) : List Verdict :=
  (Program.methods p).zipIdx.map (verdict table settings)

theorem typeProgram_gather (settings : Settings) (p : Program) : typeProgram settings p =
    match Catalog.build p with
    | .error e => .error e
    | .ok table =>
      match table.classAt Catalog.root with
      | .error s => .error (.stray s)
      | .ok root =>
        match table.lookup .method Catalog.root settings.entryPoint with
        | .error s => .error (.stray s)
        | .ok none => .error (.rejected (.missingEntry root.name settings.entryPoint p.name.span))
        | .ok (some entry) =>
          match typeFields table settings (Program.fields p).zipIdx with
          | .error e => .error e
          | .ok fields =>
            match gather (verdicts table settings p) with
            | .error e => .error e
            | .ok (methods, warnings) =>
              .ok ⟨⟨root.name, fields, methods, entry.id⟩, table, warnings⟩ := by
  have hresults : ∀ table : Catalog,
      (typeMethods table settings (Program.methods p).zipIdx).1 =
        (verdicts table settings p).map Verdict.result := by
    intro table
    rw [typeMethods_results, verdicts, List.map_map]
    rfl
  have hwarnings : ∀ table : Catalog,
      (typeMethods table settings (Program.methods p).zipIdx).2.sorted =
        (verdicts table settings p).flatMap Verdict.warnings := by
    intro table
    rw [(typeMethods_eq table settings _).2, inOrder_sorted, verdicts, List.flatMap_map]
  simp only [typeProgram, hresults, hwarnings, gather_eq]
  cases Catalog.build p with
  | error e => rfl
  | ok table =>
    dsimp only
    cases table.classAt Catalog.root with
    | error s => rfl
    | ok root =>
      dsimp only
      rcases table.lookup .method Catalog.root settings.entryPoint with e | - | entry
      · rfl
      · rfl
      dsimp only
      cases typeFields table settings (Program.fields p).zipIdx with
      | error e => rfl
      | ok fields =>
        dsimp only
        cases firstError ((verdicts table settings p).map Verdict.result) <;> rfl

/-! ## Members -/

/-- What comes with warnings under some settings, beside the same under others. -/
inductive Settles (s s' : Settings) : Except (Failure Rejection) (α × List Warning) →
    Except (Failure Rejection) (α × List Warning) → Prop where
  | ok {a : α} {ws : List Warning} :
      Settles s s' (.ok (a, ws)) (s'.warnings.settle ws fun kept => (a, kept))
  | error {e : Failure Rejection} {r : Except (Failure Rejection) (α × List Warning)} :
      (s.SameRules s' → ∃ e', r = .error e' ∧ s'.warnings.Turns e e') → Settles s s' (.error e) r

namespace Settles

variable {a : α} {ws : List Warning}

theorem kept (h : ws.find? s'.warnings.denies = none) :
    Settles s s' (.ok (a, ws)) (.ok (a, ws.filter s'.warnings.keeps)) := by
  have hok := @Settles.ok α s s' a ws
  rwa [WarningSettings.settle, h] at hok

theorem denied {w : Warning} (h : ws.find? s'.warnings.denies = some w) :
    Settles s s' (.ok (a, ws)) (.error (.rejected (.denied w))) := by
  have hok := @Settles.ok α s s' a ws
  rwa [WarningSettings.settle, h] at hok

end Settles

section

variable (h : s.Widens s')
include h

theorem typeField_within (id : FieldId) (d : FieldDecl) :
    Within s s' (typeField table s id d) (typeField table s' id d) := by
  have hinit : ∀ info : MemberEntry, Within s s'
      (typeInit ⟨table, s, info.owner, .void⟩ (.start s.switchRedeclaration) info.ty d.init)
      (typeInit ⟨table, s', info.owner, .void⟩ (.start s'.switchRedeclaration) info.ty d.init) :=
    fun info =>
      @typeInit_within ⟨table, s, info.owner, .void⟩ s s' h (.start .reject) info.ty d.init
  refine ⟨fun hok => ?_, fun hs => ?_⟩
  · obtain ⟨info, name, init, hinfo, hname, hvoid, hi, rfl⟩ := typeField_ok hok
    simp only [typeField, hinfo, hname, hvoid, (hinit info).ok hi, Bool.false_eq_true, if_false]
  · simp only [typeField, (hinit _).same hs]

theorem typeFields_within (ds : List (FieldDecl × FieldId)) :
    Within s s' (typeFields table s ds) (typeFields table s' ds) := by
  induction ds with
  | nil => exact ⟨id, fun _ => rfl⟩
  | cons d ds ih =>
    obtain ⟨d, id⟩ := d
    refine ⟨fun hok => ?_, fun hs => ?_⟩
    · simp only [typeFields] at hok ⊢
      split at hok
      · cases hok
      rename_i hf
      split at hok
      · cases hok
      rename_i hfs
      rw [(typeField_within h id d).ok hf, ih.ok hfs]
      exact hok
    · simp only [typeFields, (typeField_within h id d).same hs, ih.same hs]

variable (hq : s.warnings = .default)
include hq

theorem typeMethod_settles (id : MethodId) (d : MethodDecl) :
    Settles s s' (typeMethod table s id d) (typeMethod table s' id d) := by
  simp only [typeMethod]
  cases table.memberAt .method id with
  | error e => exact .error fun _ => ⟨_, rfl, .inl rfl⟩
  | ok info =>
    have hbody : Beside s s' [] []
        (typeBody ⟨table, s, info.owner, info.ty⟩ (.start s) d.body)
        (typeBody ⟨table, s', info.owner, info.ty⟩ (.start s') d.body) :=
      @typeBody_beside ⟨table, s, info.owner, info.ty⟩ s s' h hq d.body (.start .reject) 0 [] []
    dsimp only
    revert hbody
    generalize typeBody ⟨table, s, info.owner, info.ty⟩ (.start s) d.body = o
    generalize typeBody ⟨table, s', info.owner, info.ty⟩ (.start s') d.body = o'
    intro hbody
    cases hbody with
    | @ok body scopes depth more hnone =>
      dsimp only
      split
      · exact .error fun _ => ⟨_, rfl, .inl rfl⟩
      split
      · exact .error fun _ => ⟨_, rfl, .inl rfl⟩
      · exact .kept hnone
    | @denied body scopes depth more w st hw =>
      have hturns : ∀ e, s'.warnings.Turns e (.rejected (.denied w)) :=
        fun _ => .inr ⟨w, List.find?_some hw, rfl⟩
      dsimp only
      split
      · exact .error fun _ => ⟨_, rfl, hturns _⟩
      split
      · exact .error fun _ => ⟨_, rfl, hturns _⟩
      · exact .denied hw
    | error hfails =>
      refine .error fun hs => ?_
      obtain ⟨e', st', rfl, he⟩ := hfails hs
      exact ⟨e', rfl, he⟩

end

theorem gather_cons_settles {v v' : Verdict} {vs vs' : List Verdict} (h : Settles s s' v v')
    (hs : Settles s s' (gather vs) (gather vs')) :
    Settles s s' (gather (v :: vs)) (gather (v' :: vs')) := by
  cases h with
  | @ok m ws =>
    cases hw : ws.find? s'.warnings.denies with
    | some w =>
      simp only [gather, WarningSettings.settle, hw]
      cases gather vs with
      | error e => exact .error fun _ => ⟨_, rfl, .inr ⟨w, List.find?_some hw, rfl⟩⟩
      | ok r => exact .denied (by rw [List.find?_append, hw]; rfl)
    | none =>
      simp only [gather, WarningSettings.settle, hw]
      revert hs
      generalize gather vs = r
      generalize gather vs' = r'
      intro hs
      cases hs with
      | @ok ms more =>
        cases hmore : more.find? s'.warnings.denies with
        | some w =>
          simp only [WarningSettings.settle, hmore]
          exact .denied (by rw [List.find?_append, hw, hmore]; rfl)
        | none =>
          simp only [WarningSettings.settle, hmore, ← List.filter_append]
          exact .kept (by rw [List.find?_append, hw, hmore]; rfl)
      | error hfails =>
        refine .error fun hs => ?_
        obtain ⟨e', rfl, he⟩ := hfails hs
        exact ⟨e', rfl, he⟩
  | error hfails =>
    refine .error fun hs => ?_
    obtain ⟨e', rfl, he⟩ := hfails hs
    exact ⟨e', rfl, he⟩

theorem verdicts_settle (h : s.Widens s') (hq : s.warnings = .default) (p : Program) :
    Settles s s' (gather (verdicts table s p)) (gather (verdicts table s' p)) := by
  unfold verdicts
  induction (Program.methods p).zipIdx with
  | nil => exact .kept rfl
  | cons job jobs ih => exact gather_cons_settles (typeMethod_settles h hq job.2 job.1) ih

/-! ## Programs -/

/-- Under wider rules and with any choice of warnings, an accepted program is accepted with the same
tree, or a warning is an error. If the rules are the same and a program is rejected, it is so with
the same error, or with a warning that is one. -/
theorem typeProgram_settles (h : s.Widens s') (hq : s.warnings = .default)
    (hentry : s'.entryPoint = s.entryPoint) (p : Program) :
    match typeProgram s p with
    | .ok a => typeProgram s' p =
      s'.warnings.settle a.warnings fun kept => ⟨a.program, a.table, kept⟩
    | .error e => s.SameRules s' →
      ∃ e', typeProgram s' p = .error e' ∧ s'.warnings.Turns e e' := by
  rw [typeProgram_gather s, typeProgram_gather s', hentry]
  cases Catalog.build p with
  | error e => exact fun _ => ⟨_, rfl, .inl rfl⟩
  | ok table =>
    dsimp only
    cases table.classAt Catalog.root with
    | error e => exact fun _ => ⟨_, rfl, .inl rfl⟩
    | ok root =>
      dsimp only
      rcases table.lookup .method Catalog.root s.entryPoint with e | - | entry
      · exact fun _ => ⟨_, rfl, .inl rfl⟩
      · exact fun _ => ⟨_, rfl, .inl rfl⟩
      dsimp only
      have hfields := @typeFields_within table s s' h (Program.fields p).zipIdx
      cases hf : typeFields table s (Program.fields p).zipIdx with
      | error e =>
        intro hs
        rw [hfields.same hs, hf]
        exact ⟨e, rfl, .inl rfl⟩
      | ok fields =>
        rw [hfields.ok hf]
        dsimp only
        have hmethods := @verdicts_settle table s s' h hq p
        revert hmethods
        generalize gather (verdicts table s p) = r
        generalize gather (verdicts table s' p) = r'
        intro hmethods
        cases hmethods with
        | @ok methods ws =>
          simp only [WarningSettings.settle]
          cases ws.find? s'.warnings.denies <;> rfl
        | error hfails =>
          intro hs
          obtain ⟨e', rfl, he⟩ := hfails hs
          exact ⟨e', rfl, he⟩

/-- The choice of warnings filters them, or it ends typing with one of them. If a program is
accepted where all warnings are reported and none is fatal, then under any choice it becomes the
same tree, with those warnings that are reported, in the same order; unless one of them is fatal,
for then the first such one is the error. If a program is rejected there, it is rejected under any
choice, with the same error or with a fatal warning. -/
theorem warnings_settle (settings : Settings) (c : WarningSettings) (p : Program) :
    match typeProgram (settings.warned .default) p with
    | .ok a => typeProgram (settings.warned c) p =
      c.settle a.warnings fun kept => ⟨a.program, a.table, kept⟩
    | .error e => ∃ e', typeProgram (settings.warned c) p = .error e' ∧ c.Turns e e' := by
  have hsame : (settings.warned .default).SameRules (settings.warned c) := ⟨rfl, rfl⟩
  have h := typeProgram_settles hsame.widens rfl rfl p
  cases hp : typeProgram (settings.warned .default) p with
  | ok a =>
    rw [hp] at h
    exact h
  | error e =>
    rw [hp] at h
    exact h hsame

open Syntax.Build in
/-- Of a hidden variable and a statement that control cannot get to, the one is not reported and the
other is an error. -/
example :
    let body := [declare .int "k" none, block [declare .int "k" none], retNone, print (int 1)]
    let p := withMethod (emptyClass "Main") (method .void "main" body)
    typeProgram (Settings.default.warned ⟨[.shadowedVariable], [], true⟩) p =
      .error (.rejected (.denied (.unreachableCode .zero))) := by
  rfl

/-- The rules that accept more are conservative. What is accepted by the rules that accept least is
accepted by all others, with the same tree and the same warnings, and whatever the choice of
warnings is. -/
theorem wider_unseen {settings : Settings} {p : Program} {a : Accepted}
    (h : typeProgram (settings.ruled .reject false) p = .ok a) (policy : Redeclaration)
    (narrowing : Bool) : typeProgram (settings.ruled policy narrowing) p = .ok a := by
  have hrules : ∀ policy narrowing,
      ((settings.warned .default).ruled .reject false).Widens (settings.ruled policy narrowing) :=
    fun _ _ => ⟨.inl rfl, .inl rfl⟩
  -- both sides beside the narrow rules without a choice of warnings
  have hnarrow := typeProgram_settles (hrules .reject false) rfl rfl p
  have hwide := typeProgram_settles (hrules policy narrowing) rfl rfl p
  cases hp : typeProgram ((settings.warned .default).ruled .reject false) p with
  | ok a₀ =>
    rw [hp] at hnarrow hwide
    exact hwide.trans (hnarrow.symm.trans h)
  | error e =>
    rw [hp] at hnarrow
    obtain ⟨e', he', -⟩ := hnarrow ⟨rfl, rfl⟩
    rw [h] at he'
    cases he'

open Syntax.Build in
/-- A program with a variable that hides another one, a switch whose cases declare variables, a
label of a higher type, and conversions that lose nothing. -/
def shaded : Program :=
  let main := method .void "main"
    [declare .int "k" (some (int 1)),
      block [declare .long "k" (some (name "k"))],
      switch (name "k")
        [case (int 1) [declare .long "j" (some (name "k")), leave],
          case (long 2) [declare .double "i" (some (name "j")), retNone, print (name "i")],
          otherwise [expr (assign (name "k") (int 7))]]]
  withMethod (emptyClass "Main") main

/-- It is accepted by the narrowest rules, with a warning for the hidden variable and one for the
statement behind the `return`. -/
theorem shaded_wider_unseen :
    ∃ a, typeProgram (Settings.default.ruled .reject false) shaded = .ok a ∧
      a.warnings.map Warning.kind = [.shadowedVariable, .unreachableCode] ∧
      ∀ policy narrowing,
        typeProgram (Settings.default.ruled policy narrowing) shaded = .ok a := by
  have hwarned : (typeProgram (Settings.default.ruled .reject false) shaded).toOption.map
      (fun a => a.warnings.map Warning.kind) =
        some [.shadowedVariable, .unreachableCode] := by
    decide +kernel
  cases h : typeProgram (Settings.default.ruled .reject false) shaded with
  | error e =>
    rw [h] at hwarned
    cases hwarned
  | ok a =>
    rw [h] at hwarned
    exact ⟨a, rfl, Option.some.inj hwarned, wider_unseen h⟩

end Typing
end Cascade
