import Cascade.Typing.Workers
import Mathlib.Algebra.BigOperators.Group.Multiset.Basic
import Mathlib.Data.Multiset.AddSub

/-!
# Cascade.Proofs.Typing.Crew

Workers that share jobs in any way at all. Which worker acts next is open, and so is which of the
waiting jobs a worker is handed; only that each job is handed out once is sure. An act is to take a
job, to check it, to hand in its warnings or to deliver its result, and acts do not overlap.

The proof is one of conservation. What is delivered and what is still to be delivered make up the
same results after every act, only at other places, and so it is with the warnings. At the end all
of it is handed in, and sorting by the numbers of the jobs, which are all different, leaves one
order.

* `Crew.Step`, `Crew.Acts`: one act, and some number of them.
* `Step.results`, `Step.batches`, `Step.left`: what an act conserves, and that acts run out.
* `Acts.finished_eq`: at the end the results and the sorted warnings are those of `inOrder`.
* `CanDeliver`: what a crew can come to.
-/

namespace Cascade.Typing

variable {α : Type} {check : α → Verdict}

/-! ## Sorting -/

/-- Sorting by numbers that are all different leaves one order. -/
theorem mergeSort_eq {β : Type} {l l' : List (MethodId × β)} (hp : l.Perm l')
    (hl : (l'.map Prod.fst).Pairwise (· < ·)) : l.mergeSort (fun a b => a.1 ≤ b.1) = l' := by
  have hlt : l'.Pairwise fun a b => a.1 < b.1 := List.pairwise_map.mp hl
  have hsorted : (l.mergeSort fun a b => a.1 ≤ b.1).Pairwise fun a b => a.1 ≤ b.1 := by
    refine (List.pairwise_mergeSort ?_ ?_ l).imp fun h => by simpa using h
    · intro a b c hab hbc
      exact decide_eq_true (Nat.le_trans (of_decide_eq_true hab) (of_decide_eq_true hbc))
    · intro a b
      simpa using Nat.le_total a.1 b.1
  have hperm := (List.mergeSort_perm l fun a b => a.1 ≤ b.1).trans hp
  refine hperm.eq_of_pairwise ?_ hsorted (hlt.imp Nat.le_of_lt)
  intro a b ha hb hab hba
  exact List.inj_on_of_nodup_map (hl.imp Nat.ne_of_lt) (hperm.mem_iff.mp ha) hb
    (Nat.le_antisymm hab hba)

/-! ## Warnings -/

def Verdict.warnings : Verdict → List Warning
  | .ok (_, ws) => ws
  | .error _ => []

/-- What the sink gets from a verdict: one batch, or nothing if there are no warnings. -/
def Verdict.batch (m : MethodId) : Verdict → List (MethodId × List Warning)
  | .ok (_, ws) => if ws.isEmpty then [] else [(m, ws)]
  | .error _ => []

theorem Sink.report_batches (s : Sink) (m : MethodId) (v : Verdict) :
    (s.report m v).batches = s.batches ++ v.batch m := by
  cases v with
  | error e => exact (List.append_nil _).symm
  | ok p =>
    obtain ⟨method, ws⟩ := p
    simp only [Sink.report, Sink.push, Verdict.batch]
    split
    · exact (List.append_nil _).symm
    · rfl

/-- All batches of some jobs that are numbered. -/
def batchesOf (check : α → Verdict) (jobs : List (α × MethodId)) :
    List (MethodId × List Warning) :=
  jobs.flatMap fun job => (check job.1).batch job.2

/-- All results of some jobs that are numbered. -/
def resultsOf (check : α → Verdict) (jobs : List (α × MethodId)) :
    List (MethodId × Except (Failure Rejection) Typed.Method) :=
  jobs.map fun job => (job.2, (check job.1).result)

theorem batch_fst (v : Verdict) (m : MethodId) : ((v.batch m).map Prod.fst).Sublist [m] := by
  cases v with
  | error e => exact List.nil_sublist _
  | ok p =>
    simp only [Verdict.batch]
    split
    · exact List.nil_sublist _
    · exact List.Sublist.refl _

theorem batchesOf_fst (check : α → Verdict) (jobs : List (α × MethodId)) :
    ((batchesOf check jobs).map Prod.fst).Sublist (jobs.map Prod.snd) := by
  induction jobs with
  | nil => exact List.Sublist.refl _
  | cons job jobs ih =>
    simp only [batchesOf, List.flatMap_cons, List.map_append, List.map_cons] at ih ⊢
    exact (batch_fst _ _).append ih

theorem zipIdx_snd_pairwise (jobs : List α) (m : MethodId) :
    ((jobs.zipIdx m).map Prod.snd).Pairwise (· < ·) := by
  rw [List.zipIdx_map_snd]
  exact List.pairwise_lt_range'

theorem batchesOf_pairwise (check : α → Verdict) (jobs : List α) :
    ((batchesOf check jobs.zipIdx).map Prod.fst).Pairwise (· < ·) :=
  (zipIdx_snd_pairwise jobs 0).sublist (batchesOf_fst check _)

theorem resultsOf_pairwise (check : α → Verdict) (jobs : List α) :
    ((resultsOf check jobs.zipIdx).map Prod.fst).Pairwise (· < ·) := by
  rw [resultsOf, List.map_map]
  exact zipIdx_snd_pairwise jobs 0

theorem inOrder_results (check : α → Verdict) : ∀ (jobs : List α) (m : MethodId) (sink : Sink),
    (inOrder check m sink jobs).1 = jobs.map fun job => (check job).result := by
  intro jobs
  induction jobs with
  | nil =>
    intro m sink
    rfl
  | cons job jobs ih =>
    intro m sink
    simp only [inOrder, List.map_cons]
    rw [ih]

theorem inOrder_batches (check : α → Verdict) : ∀ (jobs : List α) (m : MethodId) (sink : Sink),
    (inOrder check m sink jobs).2.batches = sink.batches ++ batchesOf check (jobs.zipIdx m) := by
  intro jobs
  induction jobs with
  | nil =>
    intro m sink
    exact (List.append_nil _).symm
  | cons job jobs ih =>
    intro m sink
    simp only [inOrder]
    rw [ih, Sink.report_batches, List.append_assoc]
    rfl

theorem batch_warnings (v : Verdict) (m : MethodId) :
    (v.batch m).flatMap Prod.snd = v.warnings := by
  cases v with
  | error e => rfl
  | ok r =>
    obtain ⟨method, ws⟩ := r
    cases ws with
    | nil => rfl
    | cons w ws => exact List.append_nil _

theorem inOrder_sorted (check : α → Verdict) (jobs : List α) :
    (inOrder check 0 .empty jobs).2.sorted = jobs.flatMap fun job => (check job).warnings := by
  have hin : (inOrder check 0 .empty jobs).2.batches = batchesOf check jobs.zipIdx :=
    (inOrder_batches check jobs 0 .empty).trans (List.nil_append _)
  rw [Sink.sorted, hin, mergeSort_eq (List.Perm.refl _) (batchesOf_pairwise check jobs), batchesOf,
    List.flatMap_assoc]
  simp only [batch_warnings]
  exact (List.flatMap_map Prod.fst (fun job => (check job).warnings) jobs.zipIdx).symm.trans
    (by rw [List.zipIdx_map_fst])

/-- Whatever the order in which the batches of all jobs came in, sorting makes it that of the
jobs. -/
theorem sorted_eq {sink : Sink} {jobs : List α}
    (h : sink.batches.Perm (batchesOf check jobs.zipIdx)) :
    sink.sorted = (inOrder check 0 .empty jobs).2.sorted := by
  have hin : (inOrder check 0 .empty jobs).2.batches = batchesOf check jobs.zipIdx :=
    (inOrder_batches check jobs 0 .empty).trans (List.nil_append _)
  rw [Sink.sorted, Sink.sorted, hin, mergeSort_eq h (batchesOf_pairwise check jobs),
    mergeSort_eq (List.Perm.refl _) (batchesOf_pairwise check jobs)]

/-! ## Acts -/

/-- The result that a worker has in hand, or is going to have. -/
def Stage.pending (check : α → Verdict) :
    Stage α → Multiset (MethodId × Except (Failure Rejection) Typed.Method)
  | .take => 0
  | .check m job => {(m, (check job).result)}
  | .report m v => {(m, v.result)}
  | .deliver m v => {(m, v.result)}
  | .finished => 0

/-- The warnings that a worker has in hand, or is going to have, and has not handed in. -/
def Stage.unreported (check : α → Verdict) : Stage α → Multiset (MethodId × List Warning)
  | .take => 0
  | .check m job => (check job).batch m
  | .report m v => v.batch m
  | .deliver _ _ => 0
  | .finished => 0

/-- How many acts a worker is from its end, if it takes no more jobs. -/
def Stage.ahead : Stage α → Nat
  | .take => 1
  | .check _ _ => 4
  | .report _ _ => 3
  | .deliver _ _ => 2
  | .finished => 0

/-- Workers at work, and the jobs that wait, each with its number. -/
structure Crew (α : Type) where
  waiting : List (α × MethodId)
  sink : Sink
  delivered : List (MethodId × Except (Failure Rejection) Typed.Method)
  stages : List (Stage α)

namespace Crew

def start (workers : Nat) (jobs : List α) : Crew α :=
  ⟨jobs.zipIdx, .empty, [], List.replicate workers .take⟩

def isFinished (c : Crew α) : Bool := c.stages.all Pool.hasFinished

def results (c : Crew α) : List (Except (Failure Rejection) Typed.Method) :=
  (c.delivered.mergeSort fun a b => a.1 ≤ b.1).map Prod.snd

/-- One act of one worker. It may take any of the jobs that wait, and it ends when none waits. -/
inductive Step (check : α → Verdict) (c : Crew α) : Crew α → Prop where
  | take {w : Nat} {job : α} {m : MethodId} {before after : List (α × MethodId)} :
      c.stages[w]? = some .take → c.waiting = before ++ (job, m) :: after →
      Step check c ⟨before ++ after, c.sink, c.delivered, c.stages.set w (.check m job)⟩
  | finish {w : Nat} : c.stages[w]? = some .take → c.waiting = [] →
      Step check c ⟨c.waiting, c.sink, c.delivered, c.stages.set w .finished⟩
  | check {w : Nat} {m : MethodId} {job : α} : c.stages[w]? = some (.check m job) →
      Step check c ⟨c.waiting, c.sink, c.delivered, c.stages.set w (.report m (check job))⟩
  | report {w : Nat} {m : MethodId} {v : Verdict} : c.stages[w]? = some (.report m v) →
      Step check c ⟨c.waiting, c.sink.report m v, c.delivered, c.stages.set w (.deliver m v)⟩
  | deliver {w : Nat} {m : MethodId} {v : Verdict} : c.stages[w]? = some (.deliver m v) →
      Step check c ⟨c.waiting, c.sink, c.delivered ++ [(m, v.result)], c.stages.set w .take⟩

/-- The workers get from one state to another by a number of acts. -/
inductive Acts (check : α → Verdict) : Nat → Crew α → Crew α → Prop where
  | refl {c : Crew α} : Acts check 0 c c
  | step {k : Nat} {c c' c'' : Crew α} : Step check c c' → Acts check k c' c'' →
      Acts check (k + 1) c c''

def allResults (check : α → Verdict) (c : Crew α) :
    Multiset (MethodId × Except (Failure Rejection) Typed.Method) :=
  resultsOf check c.waiting + ((c.stages.map (Stage.pending check)).sum + c.delivered)

def allBatches (check : α → Verdict) (c : Crew α) : Multiset (MethodId × List Warning) :=
  batchesOf check c.waiting + ((c.stages.map (Stage.unreported check)).sum + c.sink.batches)

/-- How many acts the workers have ahead of them. -/
def aheadOf (stages : List (Stage α)) : Nat := stages.foldr (fun s n => s.ahead + n) 0

/-- How many acts there are still to come. -/
def left (c : Crew α) : Nat := 4 * c.waiting.length + aheadOf c.stages

/-- A worker stops only when no job waits. -/
def Spent (c : Crew α) : Prop := Stage.finished ∈ c.stages → c.waiting = []

theorem sum_set {M : Type} [AddCommMonoid M] (count : Stage α → M) {s : Stage α} (s' : Stage α) :
    ∀ {stages : List (Stage α)} {w : Nat}, stages[w]? = some s →
    count s + ((stages.set w s').map count).sum = count s' + (stages.map count).sum
  | [], _, h => by cases h
  | t :: ts, 0, h => by
    obtain rfl : t = s := by simpa using h
    simp only [List.set_cons_zero, List.map_cons, List.sum_cons]
    exact add_left_comm _ _ _
  | t :: ts, w + 1, h => by
    have htail : ts[w]? = some s := by simpa using h
    simp only [List.set_cons_succ, List.map_cons, List.sum_cons]
    rw [add_left_comm, sum_set count s' htail, add_left_comm]

theorem aheadOf_set {stages : List (Stage α)} {w : Nat} {s : Stage α} (s' : Stage α)
    (h : stages[w]? = some s) :
    s.ahead + aheadOf (stages.set w s') = s'.ahead + aheadOf stages := by
  have hsum := sum_set Stage.ahead s' h
  rwa [List.sum_eq_foldr, List.sum_eq_foldr, List.foldr_map, List.foldr_map] at hsum

variable {c c' : Crew α} {jobs : List α} {workers k : Nat}

theorem coe_middle {β : Type} (x : β) (before after : List β) :
    ((before ++ x :: after : List β) : Multiset β) = {x} + ↑(before ++ after) :=
  Multiset.coe_eq_coe.mpr List.perm_middle

theorem Step.results (h : Step check c c') : c'.allResults check = c.allResults check := by
  cases h with
  | @take w job m before after hw hwaiting =>
    have hsum := sum_set (Stage.pending check) (.check m job) hw
    simp only [Stage.pending, zero_add] at hsum
    simp only [allResults, hwaiting, hsum, resultsOf, List.map_append, List.map_cons, coe_middle]
    ac_rfl
  | finish hw _ =>
    have hsum := sum_set (Stage.pending check) .finished hw
    simp only [Stage.pending, zero_add] at hsum
    simp only [allResults, hsum]
  | @check w m job hw =>
    have hsum := sum_set (Stage.pending check) (.report m (check job)) hw
    simp only [allResults, add_left_cancel hsum]
  | @report w m v hw =>
    have hsum := sum_set (Stage.pending check) (.deliver m v) hw
    simp only [allResults, add_left_cancel hsum]
  | @deliver w m v hw =>
    have hsum := sum_set (Stage.pending check) .take hw
    simp only [Stage.pending, zero_add] at hsum
    simp only [allResults, ← hsum, ← Multiset.coe_add, Multiset.coe_singleton]
    ac_rfl

theorem Step.batches (h : Step check c c') : c'.allBatches check = c.allBatches check := by
  cases h with
  | @take w job m before after hw hwaiting =>
    have hsum := sum_set (Stage.unreported check) (.check m job) hw
    simp only [Stage.unreported, zero_add] at hsum
    simp only [allBatches, hwaiting, hsum, batchesOf, List.flatMap_append, List.flatMap_cons,
      ← Multiset.coe_add]
    ac_rfl
  | finish hw _ =>
    have hsum := sum_set (Stage.unreported check) .finished hw
    simp only [Stage.unreported, zero_add] at hsum
    simp only [allBatches, hsum]
  | @check w m job hw =>
    have hsum := sum_set (Stage.unreported check) (.report m (check job)) hw
    simp only [allBatches, add_left_cancel hsum]
  | @report w m v hw =>
    have hsum := sum_set (Stage.unreported check) (.deliver m v) hw
    simp only [Stage.unreported, zero_add] at hsum
    simp only [allBatches, ← hsum, Sink.report_batches, ← Multiset.coe_add]
    ac_rfl
  | @deliver w m v hw =>
    have hsum := sum_set (Stage.unreported check) .take hw
    simp only [Stage.unreported, zero_add] at hsum
    simp only [allBatches, hsum]

theorem Step.left (h : Step check c c') : c'.left + 1 = c.left := by
  cases h with
  | @take w job m before after hw hwaiting =>
    have hsum := aheadOf_set (.check m job) hw
    have hlen : c.waiting.length = (before ++ after).length + 1 := by
      rw [hwaiting, List.length_append, List.length_cons, List.length_append, Nat.add_assoc]
    simp only [Stage.ahead] at hsum
    simp only [Crew.left, hlen]
    omega
  | finish hw _ =>
    have hsum := aheadOf_set .finished hw
    simp only [Stage.ahead] at hsum
    simp only [Crew.left]
    omega
  | @check w m job hw =>
    have hsum := aheadOf_set (.report m (check job)) hw
    simp only [Stage.ahead] at hsum
    simp only [Crew.left]
    omega
  | @report w m v hw =>
    have hsum := aheadOf_set (.deliver m v) hw
    simp only [Stage.ahead] at hsum
    simp only [Crew.left]
    omega
  | @deliver w m v hw =>
    have hsum := aheadOf_set .take hw
    simp only [Stage.ahead] at hsum
    simp only [Crew.left]
    omega

theorem Step.length (h : Step check c c') : c'.stages.length = c.stages.length := by
  cases h <;> exact List.length_set

theorem Step.spent (h : Step check c c') (hc : c.Spent) : c'.Spent := by
  -- Only a worker that finds nothing to take stops, and nothing comes back.
  have hold : ∀ {w : Nat} {s : Stage α}, Stage.finished ∈ c.stages.set w s → .finished ≠ s →
      c.waiting = [] := fun hmem hs =>
    hc ((List.mem_or_eq_of_mem_set hmem).resolve_right hs)
  cases h with
  | take _ hwaiting =>
    intro hmem
    rw [hold hmem nofun] at hwaiting
    simp at hwaiting
  | finish _ hnil => exact fun _ => hnil
  | check _ | report _ | deliver _ => exact fun hmem => hold hmem nofun

/-- As long as a worker is not at its end, some act is possible. -/
theorem progress (h : c.isFinished = false) : ∃ c', Step check c c' := by
  obtain ⟨s, hs, hne⟩ := List.all_eq_false.mp h
  obtain ⟨w, hw⟩ := List.mem_iff_getElem?.mp hs
  cases s with
  | finished => exact absurd rfl hne
  | take =>
    cases hwaiting : c.waiting with
    | nil => exact ⟨_, .finish hw hwaiting⟩
    | cons job rest =>
      have hfirst : c.waiting = [] ++ (job.1, job.2) :: rest := hwaiting
      exact ⟨_, .take hw hfirst⟩
  | check m job => exact ⟨_, .check hw⟩
  | report m v => exact ⟨_, .report hw⟩
  | deliver m v => exact ⟨_, .deliver hw⟩

/-! ## Runs -/

/-- What holds of every state that workers get to. -/
structure Reached (check : α → Verdict) (jobs : List α) (workers k : Nat) (c : Crew α) : Prop where
  results : c.allResults check = (start workers jobs).allResults check
  batches : c.allBatches check = (start workers jobs).allBatches check
  left : k + c.left = 4 * jobs.length + workers
  length : c.stages.length = workers
  spent : c.Spent

theorem start_left (workers : Nat) (jobs : List α) :
    (start workers jobs).left = 4 * jobs.length + workers := by
  have hahead : aheadOf (List.replicate workers (Stage.take : Stage α)) = workers := by
    induction workers with
    | zero => rfl
    | succ n ih => exact (congrArg (1 + ·) ih).trans (Nat.add_comm 1 n)
  simp [Crew.left, start, hahead]

theorem start_spent (workers : Nat) (jobs : List α) : (start workers jobs).Spent :=
  fun h => nomatch (List.mem_replicate.mp h).2

theorem Acts.reached (h : Acts check k (start workers jobs) c) :
    Reached check jobs workers k c := by
  suffices hsteps : ∀ {k c₀ c n}, Acts check k c₀ c → Reached check jobs workers n c₀ →
      Reached check jobs workers (n + k) c by
    have h := hsteps (n := 0) h ⟨rfl, rfl, by rw [start_left, Nat.zero_add], by simp [start],
      start_spent workers jobs⟩
    rwa [Nat.zero_add] at h
  intro k c₀ c n h
  induction h generalizing n with
  | refl => exact id
  | @step k c c' c'' hstep _ ih =>
    intro hc
    have hleft := hstep.left
    have hc' : Reached check jobs workers (n + 1) c' :=
      ⟨hstep.results.trans hc.results, hstep.batches.trans hc.batches, by have := hc.left; omega,
        hstep.length.trans hc.length, hstep.spent hc.spent⟩
    rw [Nat.add_comm k 1, ← Nat.add_assoc]
    exact ih hc'

theorem start_allResults (workers : Nat) (jobs : List α) :
    (start workers jobs).allResults check = resultsOf check jobs.zipIdx := by
  simp [allResults, start, Stage.pending]

theorem start_allBatches (workers : Nat) (jobs : List α) :
    (start workers jobs).allBatches check = batchesOf check jobs.zipIdx := by
  simp [allBatches, start, Stage.unreported, Sink.empty]

/-- When all workers are at their ends, they have delivered what one worker gets that goes through
the jobs in their order, and the sorted warnings are the same. -/
theorem Acts.finished_eq (hworkers : 0 < workers) (h : Acts check k (start workers jobs) c)
    (hf : c.isFinished = true) :
    c.results = (inOrder check 0 .empty jobs).1 ∧
      c.sink.sorted = (inOrder check 0 .empty jobs).2.sorted := by
  obtain ⟨hresults, hbatches, -, hlength, hspent⟩ := h.reached
  have hall : ∀ s ∈ c.stages, s = .finished := fun s hs => by
    have := List.all_eq_true.mp hf s hs
    cases s <;> first | rfl | cases this
  obtain ⟨s, hs⟩ := List.exists_mem_of_length_pos (hlength ▸ hworkers)
  have hwaiting : c.waiting = [] := hspent (hall s hs ▸ hs)
  have hstages : c.stages = List.replicate workers .finished :=
    List.eq_replicate_iff.mpr ⟨hlength, hall⟩
  rw [start_allResults, allResults, hwaiting, hstages] at hresults
  rw [start_allBatches, allBatches, hwaiting, hstages] at hbatches
  simp only [resultsOf, batchesOf, Stage.pending, Stage.unreported, List.map_replicate,
    List.sum_replicate, nsmul_zero, List.map_nil, List.flatMap_nil, Multiset.coe_nil, zero_add]
    at hresults hbatches
  refine ⟨?_, sorted_eq (Multiset.coe_eq_coe.mp hbatches)⟩
  rw [Crew.results, mergeSort_eq (Multiset.coe_eq_coe.mp hresults) (resultsOf_pairwise check jobs),
    inOrder_results]
  have hfst : (jobs.zipIdx.map Prod.fst).map (fun job => (check job).result) =
      jobs.map fun job => (check job).result := by rw [List.zipIdx_map_fst]
  rw [List.map_map] at hfst ⊢
  exact hfst

/-- What some number of workers can come to, in whatever order they get the jobs and act. -/
def CanDeliver (check : α → Verdict) (jobs : List α)
    (o : List (Except (Failure Rejection) Typed.Method) × Sink) : Prop :=
  ∃ workers k c, 0 < workers ∧ Acts check k (start workers jobs) c ∧ c.isFinished = true ∧
    o = (c.results, c.sink)

theorem CanDeliver.eq {o : List (Except (Failure Rejection) Typed.Method) × Sink}
    (h : CanDeliver check jobs o) :
    o.1 = (inOrder check 0 .empty jobs).1 ∧
      o.2.sorted = (inOrder check 0 .empty jobs).2.sorted := by
  obtain ⟨workers, k, c, hworkers, hacts, hf, rfl⟩ := h
  exact hacts.finished_eq hworkers hf

end Crew

end Cascade.Typing
