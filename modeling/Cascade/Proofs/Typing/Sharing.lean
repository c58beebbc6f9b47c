import Cascade.Proofs.Typing.Agree
import Cascade.Proofs.Typing.Program

/-!
# Cascade.Proofs.Typing.Sharing

Whether methods are typed by one worker or by several, and in whatever order several get at them
and act, no difference can be seen: not in the results and not in the warnings, and so not in what
becomes of a program.

* `Settings.sharing`: the one choice among the settings that is about workers; `typeMethod_sharing`:
  no method is typed differently for it.
* `typeProgramBy`: typing of a program where it is left open how the methods are worked through.
* `sharing_unseen`: all of this together.
-/

namespace Cascade

/-- The settings with another choice of whether workers share the methods. -/
def Settings.sharing (settings : Settings) (shared : Bool) : Settings :=
  ⟨settings.entryPoint, settings.switchRedeclaration, settings.constantNarrowing, shared,
    settings.warnings⟩

namespace Typing

open Syntax

variable {table : Catalog} {settings : Settings} {shared : Bool}

/-! ## Members -/

theorem same_sharing (table : Catalog) (settings : Settings) (shared : Bool) (owner : ClassId)
    (returns : Ty) :
    Context.Same ⟨table, settings, owner, returns⟩
      ⟨table, settings.sharing shared, owner, returns⟩ :=
  ⟨⟨rfl, rfl, rfl⟩, rfl, rfl⟩

theorem typeField_sharing (id : FieldId) (d : FieldDecl) :
    typeField table (settings.sharing shared) id d = typeField table settings id d := by
  simp only [typeField, typeInit_same (same_sharing table settings shared _ _).toSameValues]
  rfl

theorem typeFields_sharing (ds : List (FieldDecl × FieldId)) :
    typeFields table (settings.sharing shared) ds = typeFields table settings ds := by
  induction ds with
  | nil => rfl
  | cons d ds ih =>
    obtain ⟨d, id⟩ := d
    simp only [typeFields, typeField_sharing, ih]

theorem typeMethod_sharing (id : MethodId) (d : MethodDecl) :
    typeMethod table (settings.sharing shared) id d = typeMethod table settings id d := by
  simp only [typeMethod, typeBody_same (same_sharing table settings shared _ _)]
  rfl

theorem verdict_sharing : verdict table (settings.sharing shared) = verdict table settings :=
  funext fun job => typeMethod_sharing job.2 job.1

/-! ## Programs -/

/-- Typing of a program, where `work` says what becomes of its methods against a table. -/
def typeProgramBy (work : Catalog → List (Except (Failure Rejection) Typed.Method) × Sink)
    (settings : Settings) (p : Program) : Except (Failure Rejection) Accepted :=
  match Catalog.build p with
  | .error e => .error e
  | .ok table =>
    match table.classAt Catalog.root with
    | .error s => .error (.stray s)
    | .ok root =>
      match table.lookup .method Catalog.root settings.entryPoint with
      | .error s => .error (.stray s)
      | .ok none => .error (.rejected (.missingEntry root.name settings.entryPoint p.name.span))
      | .ok (some entry) =>
        match typeFields table settings (Program.fields p).zipIdx with
        | .error e => .error e
        | .ok fields =>
          match firstError (work table).1 with
          | .error e => .error e
          | .ok methods =>
            .ok ⟨⟨root.name, fields, methods, entry.id⟩, table, (work table).2.sorted⟩

theorem typeProgram_by (settings : Settings) (p : Program) :
    typeProgram settings p = typeProgramBy
      (fun table => typeMethods table settings (Program.methods p).zipIdx) settings p :=
  rfl

theorem typeProgramBy_sharing
    (work : Catalog → List (Except (Failure Rejection) Typed.Method) × Sink) (p : Program) :
    typeProgramBy work (settings.sharing shared) p = typeProgramBy work settings p := by
  simp only [typeProgramBy, typeFields_sharing]
  rfl

/-- Of what becomes of the methods, only the results and the sorted warnings matter. -/
theorem typeProgramBy_congr
    {work work' : Catalog → List (Except (Failure Rejection) Typed.Method) × Sink}
    (h : ∀ table, (work table).1 = (work' table).1 ∧
      (work table).2.sorted = (work' table).2.sorted) (p : Program) :
    typeProgramBy work settings p = typeProgramBy work' settings p := by
  simp only [typeProgramBy, (h _).1, (h _).2]

/-- Several workers type the methods of a program as one worker does. Whichever of them acts next,
and whichever of the waiting methods it is handed, they come to an end, for there are only so many
acts and one is always possible until then; and there the results and the sorted warnings are those
of one worker that goes through the methods in their order. So a program is accepted with the same
tree and the same warnings, or rejected with the same error, by all workers in all orders, and the
setting by which they are called in changes nothing. -/
theorem sharing_unseen (settings : Settings) :
    (∀ (table : Catalog) (jobs : List (MethodDecl × MethodId)) (workers : Nat), 0 < workers →
      ∀ k c, Crew.Acts (verdict table settings) k (.start workers jobs) c →
        k ≤ 4 * jobs.length + workers ∧
        (c.isFinished = false → ∃ c', Crew.Step (verdict table settings) c c') ∧
        (c.isFinished = true →
          c.results = (inOrder (verdict table settings) 0 .empty jobs).1 ∧
          c.sink.sorted = (inOrder (verdict table settings) 0 .empty jobs).2.sorted)) ∧
    (∀ (p : Program) (work : Catalog → List (Except (Failure Rejection) Typed.Method) × Sink),
      (∀ table, Crew.CanDeliver (verdict table settings) (Program.methods p).zipIdx
        (work table)) →
      ∀ shared, typeProgram (settings.sharing shared) p = typeProgramBy work settings p) ∧
    ∀ (p : Program) (shared shared' : Bool),
      typeProgram (settings.sharing shared) p = typeProgram (settings.sharing shared') p := by
  have halone : ∀ (p : Program) (shared : Bool), typeProgram (settings.sharing shared) p =
      typeProgramBy (fun table => inOrder (verdict table settings) 0 .empty
        (Program.methods p).zipIdx) settings p := by
    intro p shared
    rw [typeProgram_by, typeProgramBy_sharing]
    refine typeProgramBy_congr (fun table => ?_) p
    rw [← verdict_sharing]
    exact typeMethods_eq table (settings.sharing shared) (Program.methods p).zipIdx
  refine ⟨fun table jobs workers hworkers k c h => ⟨?_, Crew.progress, h.finished_eq hworkers⟩,
    fun p work hwork shared => ?_, fun p shared shared' => ?_⟩
  · have := h.reached.left
    omega
  · rw [halone p shared, ← typeProgramBy_congr (fun table => (hwork table).eq) p]
  · rw [halone p shared, halone p shared']

theorem tally_sharing_unseen : ∃ table jobs, Catalog.build tally = .ok table ∧
    jobs = (Program.methods tally).zipIdx ∧
    (∃ k c, Crew.Acts (verdict table .default) k (.start 3 jobs) c ∧ c.isFinished = true ∧
      c.results = (inOrder (verdict table .default) 0 .empty jobs).1 ∧
      c.sink.sorted = (inOrder (verdict table .default) 0 .empty jobs).2.sorted) ∧
    typeProgram (Settings.default.sharing true) tally =
      typeProgramBy (fun table => Typing.shared 3 (verdict table .default)
        (Program.methods tally).zipIdx) .default tally := by
  obtain ⟨hcrew, hprogram, -⟩ := sharing_unseen .default
  refine ⟨_, _, rfl, rfl, ?_, hprogram tally _ (fun _ => shared_yields _ _ (by decide)) true⟩
  obtain ⟨k, hk⟩ := Pool.run_acts (verdict _ .default)
    (Program.methods tally).zipIdx (Pool.rounds 3 _) (Pool.start 3)
  exact ⟨k, _, hk, Pool.rounds_finish 3,
    (hcrew _ _ 3 (by decide) k _ hk).2.2 (Pool.rounds_finish 3)⟩

end Typing
end Cascade
