import Cascade.Failure
import Cascade.Typed.Tree

/-!
# Cascade.Typing.Workers

Distribution of the methods of a program over workers. Typing one method depends on no other, so
any number of workers may share the methods: each takes the next job, types its method, hands in
the warnings and then the result. A schedule says which worker acts next, and nothing else is
left to chance.

* `Pool.results` and `Sink.sorted` put what was handed in back into the order of the methods.
* `inOrder` is the same work done by one worker from front to back.
-/

namespace Cascade.Typing

abbrev Verdict := Except (Failure Rejection) (Typed.Method × List Warning)

structure Sink where
  batches : List (MethodId × List Warning)
  deriving DecidableEq, Repr

namespace Sink

def empty : Sink := ⟨[]⟩

/-- Hand in the warnings of a method, all at once. -/
def push (s : Sink) (m : MethodId) (ws : List Warning) : Sink :=
  if ws.isEmpty then s else ⟨s.batches ++ [(m, ws)]⟩

def sorted (s : Sink) : List Warning :=
  (s.batches.mergeSort fun a b => a.1 ≤ b.1).flatMap Prod.snd

/-- Hand in what a verdict holds; an error holds no warnings. -/
def report (s : Sink) (m : MethodId) : Verdict → Sink
  | .ok (_, ws) => s.push m ws
  | .error _ => s

end Sink

def Verdict.result (v : Verdict) : Except (Failure Rejection) Typed.Method :=
  match v with
  | .ok (m, _) => .ok m
  | .error e => .error e

/-- Work through jobs one after another; the first of them is for method `m`. -/
def inOrder (check : α → Verdict) (m : MethodId) (sink : Sink) :
    List α → List (Except (Failure Rejection) Typed.Method) × Sink
  | [] => ([], sink)
  | job :: jobs =>
    let v := check job
    let rest := inOrder check (m + 1) (sink.report m v) jobs
    (v.result :: rest.1, rest.2)

inductive Stage (α : Type) where
  | take
  | check (m : MethodId) (job : α)
  | report (m : MethodId) (v : Verdict)
  | deliver (m : MethodId) (v : Verdict)
  | finished

/-- Workers at work. The jobs from number `next` on are still to be taken. -/
structure Pool (α : Type) where
  next : MethodId
  sink : Sink
  delivered : List (MethodId × Except (Failure Rejection) Typed.Method)
  stages : List (Stage α)

namespace Pool

def start (workers : Nat) : Pool α := ⟨0, .empty, [], List.replicate workers .take⟩

def act (check : α → Verdict) (jobs : List α) (p : Pool α) (w : Nat) : Pool α :=
  match p.stages[w]? with
  | some .take =>
    match jobs[p.next]? with
    | some job => ⟨p.next + 1, p.sink, p.delivered, p.stages.set w (.check p.next job)⟩
    | none => ⟨p.next, p.sink, p.delivered, p.stages.set w .finished⟩
  | some (.check m job) => ⟨p.next, p.sink, p.delivered, p.stages.set w (.report m (check job))⟩
  | some (.report m v) =>
    ⟨p.next, p.sink.report m v, p.delivered, p.stages.set w (.deliver m v)⟩
  | some (.deliver m v) =>
    ⟨p.next, p.sink, p.delivered ++ [(m, v.result)], p.stages.set w .take⟩
  | some .finished => p
  | none => p

def run (check : α → Verdict) (jobs : List α) (schedule : List Nat) (p : Pool α) : Pool α :=
  schedule.foldl (act check jobs) p

def hasFinished : Stage α → Bool
  | .finished => true
  | _ => false

def isFinished (p : Pool α) : Bool := p.stages.all hasFinished

def results (p : Pool α) : List (Except (Failure Rejection) Typed.Method) :=
  (p.delivered.mergeSort fun a b => a.1 ≤ b.1).map Prod.snd

/-- Every worker in turn, often enough for one of them to do all the work alone. -/
def rounds (workers jobs : Nat) : List Nat :=
  (List.replicate (4 * jobs + 1) (List.range workers)).flatten

end Pool

def shared (workers : Nat) (check : α → Verdict) (jobs : List α) :
    List (Except (Failure Rejection) Typed.Method) × Sink :=
  let p := Pool.run check jobs (Pool.rounds workers jobs.length) (Pool.start workers)
  (p.results, p.sink)

end Cascade.Typing
