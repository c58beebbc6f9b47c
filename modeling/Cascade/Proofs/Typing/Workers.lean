import Cascade.Proofs.Typing.Crew

/-!
# Cascade.Proofs.Typing.Workers

Workers that get the jobs in their order and act by a schedule are a crew like any other.

* `Pool.act_step`, `Pool.run_acts`: what they do are acts of a crew.
* `Pool.rounds_finish`: taking turns lets them finish.
* `shared_yields`: so they come to what a crew can come to.
-/

namespace Cascade.Typing

variable {α : Type} {check : α → Verdict} {jobs : List α}

/-- How often a worker can act on its own before it has finished, at most. -/
def Stage.left (jobs : List α) (next : Nat) : Stage α → Nat
  | .take => 4 * (jobs.length - next) + 1
  | .check .. => 4 * (jobs.length - next) + 4
  | .report .. => 4 * (jobs.length - next) + 3
  | .deliver .. => 4 * (jobs.length - next) + 2
  | .finished => 0

theorem Stage.left_mono {next next' : Nat} (h : next ≤ next') (s : Stage α) :
    Stage.left jobs next' s ≤ Stage.left jobs next s := by
  cases s <;> simp only [Stage.left] <;> omega

namespace Pool

def crew (jobs : List α) (p : Pool α) : Crew α :=
  ⟨jobs.zipIdx.drop p.next, p.sink, p.delivered, p.stages⟩

/-- What a worker does is an act, if it does anything. -/
theorem act_step (check : α → Verdict) (jobs : List α) (p : Pool α) (w : Nat) :
    act check jobs p w = p ∨ Crew.Step check (p.crew jobs) ((act check jobs p w).crew jobs) := by
  unfold act
  split
  · rename_i hw
    split
    · rename_i job hjob
      obtain ⟨hlt, rfl⟩ := List.getElem?_eq_some_iff.mp hjob
      have hwaiting : (p.crew jobs).waiting =
          [] ++ (jobs[p.next], p.next) :: jobs.zipIdx.drop (p.next + 1) := by
        have hdrop := List.drop_eq_getElem_cons (l := jobs.zipIdx) (i := p.next)
          (by simpa using hlt)
        rwa [List.getElem_zipIdx, Nat.zero_add] at hdrop
      exact .inr (.take hw hwaiting)
    · rename_i hnone
      have hnil : (p.crew jobs).waiting = [] :=
        List.drop_eq_nil_of_le (by simpa using List.getElem?_eq_none_iff.mp hnone)
      exact .inr (.finish hw hnil)
  · rename_i hw
    exact .inr (.check hw)
  · rename_i hw
    exact .inr (.report hw)
  · rename_i hw
    exact .inr (.deliver hw)
  · exact .inl rfl
  · exact .inl rfl

theorem run_acts (check : α → Verdict) (jobs : List α) (schedule : List Nat) : ∀ p : Pool α, ∃ k,
    Crew.Acts check k (p.crew jobs) ((run check jobs schedule p).crew jobs) := by
  induction schedule with
  | nil => exact fun _ => ⟨0, .refl⟩
  | cons w ws ih =>
    intro p
    obtain ⟨k, hk⟩ := ih (act check jobs p w)
    obtain hsame | hstep := act_step check jobs p w
    · rw [hsame] at hk
      refine ⟨k, ?_⟩
      show Crew.Acts check k _ ((run check jobs ws (act check jobs p w)).crew jobs)
      rwa [hsame]
    · exact ⟨k + 1, .step hstep hk⟩

/-! ## Taking turns -/

def left (jobs : List α) (p : Pool α) (w : Nat) : Nat :=
  match p.stages[w]? with
  | some s => Stage.left jobs p.next s
  | none => 0

theorem next_le_act (p : Pool α) (w : Nat) : p.next ≤ (act check jobs p w).next := by
  unfold act
  split
  · split
    · exact Nat.le_succ _
    · exact Nat.le_refl _
  all_goals exact Nat.le_refl _

theorem act_stages_ne (p : Pool α) {v w : Nat} (h : v ≠ w) :
    (act check jobs p v).stages[w]? = p.stages[w]? := by
  unfold act
  split
  · split <;> exact List.getElem?_set_ne h
  · exact List.getElem?_set_ne h
  · exact List.getElem?_set_ne h
  · exact List.getElem?_set_ne h
  · rfl
  · rfl

/-- The acts of others leave a worker no more to do. -/
theorem left_act_ne (check : α → Verdict) (jobs : List α) (p : Pool α) {v w : Nat} (h : v ≠ w) :
    left jobs (act check jobs p v) w ≤ left jobs p w := by
  unfold left
  rw [act_stages_ne p h]
  split
  · exact Stage.left_mono (next_le_act p v) _
  · exact Nat.le_refl _

/-- Its own act brings a worker nearer to the end. -/
theorem left_act (check : α → Verdict) (jobs : List α) (p : Pool α) (w : Nat) :
    left jobs (act check jobs p w) w ≤ left jobs p w - 1 := by
  cases hw : p.stages[w]? with
  | none => simp [act, left, hw]
  | some s =>
    obtain ⟨hlt, -⟩ := List.getElem?_eq_some_iff.mp hw
    cases s with
    | take =>
      cases hj : jobs[p.next]? with
      | none => simp only [act, left, hw, hj, List.getElem?_set_self hlt, Stage.left]; omega
      | some job =>
        obtain ⟨hn, -⟩ := List.getElem?_eq_some_iff.mp hj
        simp only [act, left, hw, hj, List.getElem?_set_self hlt, Stage.left]
        omega
    | check => simp only [act, left, hw, List.getElem?_set_self hlt, Stage.left]; omega
    | report => simp only [act, left, hw, List.getElem?_set_self hlt, Stage.left]; omega
    | deliver => simp only [act, left, hw, List.getElem?_set_self hlt, Stage.left]; omega
    | finished => simp only [act, left, hw, Stage.left]; omega

/-- A schedule on which a worker stands often enough lets it finish. -/
theorem left_run (check : α → Verdict) (jobs : List α) (w : Nat) :
    ∀ (schedule : List Nat) (p : Pool α),
    left jobs (run check jobs schedule p) w ≤ left jobs p w - schedule.count w := by
  intro schedule
  induction schedule with
  | nil =>
    intro p
    simp [run]
  | cons v vs ih =>
    intro p
    have ih := ih (act check jobs p v)
    have hrun : run check jobs (v :: vs) p = run check jobs vs (act check jobs p v) := rfl
    rw [hrun, List.count_cons]
    by_cases h : v = w
    · subst h
      have := left_act check jobs p v
      simp only [beq_self_eq_true, if_true]
      omega
    · have := left_act_ne check jobs p h
      simp only [beq_eq_false_iff_ne.mpr h, Bool.false_eq_true, if_false]
      omega

theorem length_act (p : Pool α) (w : Nat) :
    (act check jobs p w).stages.length = p.stages.length := by
  unfold act
  split
  · split <;> exact List.length_set
  · exact List.length_set
  · exact List.length_set
  · exact List.length_set
  · rfl
  · rfl

theorem length_run : ∀ (schedule : List Nat) (p : Pool α),
    (run check jobs schedule p).stages.length = p.stages.length := by
  intro schedule
  induction schedule with
  | nil =>
    intro p
    rfl
  | cons w ws ih =>
    intro p
    exact (ih (act check jobs p w)).trans (length_act p w)

theorem count_rounds {workers w : Nat} (h : w < workers) (n : Nat) :
    (rounds workers n).count w = 4 * n + 1 := by
  have : (List.range workers).count w = 1 := List.count_range.trans (by simp [h])
  simp [rounds, List.count_flatten, this]

/-- Taking turns lets all workers finish. -/
theorem rounds_finish (workers : Nat) :
    (run check jobs (rounds workers jobs.length) (start workers)).isFinished = true := by
  refine List.all_eq_true.mpr fun s hs => ?_
  obtain ⟨w, hw⟩ := List.mem_iff_getElem?.mp hs
  obtain ⟨hlt, -⟩ := List.getElem?_eq_some_iff.mp hw
  rw [length_run] at hlt
  have hlt : w < workers := by simpa [start] using hlt
  have h := left_run check jobs w (rounds workers jobs.length) (start workers)
  have h0 : left jobs (start workers : Pool α) w = 4 * jobs.length + 1 := by
    simp [left, start, hlt, Stage.left]
  rw [count_rounds hlt, h0, Nat.sub_self] at h
  simp only [left, hw] at h
  cases s with
  | finished => rfl
  | take => simp [Stage.left] at h
  | check => simp [Stage.left] at h
  | report => simp [Stage.left] at h
  | deliver => simp [Stage.left] at h

end Pool

theorem shared_yields (check : α → Verdict) (jobs : List α) {n : Nat} (hn : 0 < n) :
    Crew.CanDeliver check jobs (shared n check jobs) := by
  obtain ⟨k, hk⟩ := Pool.run_acts check jobs (Pool.rounds n jobs.length) (Pool.start n)
  exact ⟨n, k, _, hn, hk, Pool.rounds_finish n, rfl⟩

end Cascade.Typing
