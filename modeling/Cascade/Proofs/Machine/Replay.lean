import Cascade.Proofs.Machine.Steps

/-!
# Cascade.Proofs.Machine.Replay

The same run, met again with another destination for its output and after another number of steps.

Nothing in a run looks at the destination, except that a refused line ends it. So where two
destinations refuse the same lines for the same reasons (`Output.SameReplies`), runs go alike in
both, and they take as many steps.

* `State.Replays`: the same state but for the output and the number of steps.
* `step_replays`, `call_replays`: steps and calls from it.
* `calls`: several calls one after the other; `calls_replays`: the same for them.
-/

namespace Cascade.Machine

open Code

/-- Related destinations take the same lines, refuse others for the same reasons, and stay related
either way. -/
structure Output.SameReplies {σ τ : Type} [Output σ] [Output τ] (R : σ → τ → Prop) : Prop where
  result : ∀ {o : σ} {o' : τ} (v : Option Scalar), R o o' →
    (Output.println o v).1 = (Output.println o' v).1
  keeps : ∀ {o : σ} {o' : τ} (v : Option Scalar), R o o' →
    R (Output.println o v).2 (Output.println o' v).2

theorem Output.sameReplies_eq {σ : Type} [Output σ] : Output.SameReplies (Eq : σ → σ → Prop) where
  result _ h := h ▸ rfl
  keeps _ h := h ▸ rfl

/-- What was printed before makes no difference to what is printed next. -/
theorem Lines.sameReplies (before before' : Lines) :
    Output.SameReplies fun o o' : Lines =>
      ∃ lines, o = before ++ lines ∧ o' = before' ++ lines where
  result _ _ := rfl
  keeps v h := by
    obtain ⟨lines, rfl, rfl⟩ := h
    exact ⟨lines.push (lineText v), Array.push_append .., Array.push_append ..⟩

section

variable {σ τ : Type} (R : σ → τ → Prop) (j k : Nat)

/-- One state, met `k` and `j` steps after some start, with related destinations for the output. -/
inductive State.Replays : State σ → State τ → Prop where
  | intro {slots : Slots} {frames : List Frame} {fields : List Scalar} {output : σ} {output' : τ}
      {steps steps' : Nat} : R output output' → steps + j = steps' + k →
      Replays ⟨slots, frames, fields, output, steps⟩ ⟨slots, frames, fields, output', steps'⟩

inductive Outcome.Replays : Outcome σ → Outcome τ → Prop where
  | next {s : State σ} {t : State τ} : State.Replays R j k s t → Replays (.next s) (.next t)
  | done {s : State σ} {t : State τ} (v : Option Scalar) : State.Replays R j k s t →
      Replays (.done v s) (.done v t)
  | fault {s : State σ} {t : State τ} (e : Fault) : State.Replays R j k s t →
      Replays (.fault e s) (.fault e t)

def SameAnswer {α : Type} (e : α × State σ) (e' : α × State τ) : Prop :=
  e.1 = e'.1 ∧ State.Replays R j k e.2 e'.2

/-- A call is made active in both, or in neither for one reason. -/
inductive SamePush : Except (Fault × State σ) (State σ) → Except (Fault × State τ) (State τ) →
    Prop where
  | ok {s : State σ} {t : State τ} : State.Replays R j k s t → SamePush (.ok s) (.ok t)
  | error {s : State σ} {t : State τ} (e : Fault) : State.Replays R j k s t →
      SamePush (.error (e, s)) (.error (e, t))

end

variable {σ τ : Type} {R : σ → τ → Prop} {j k : Nat} {m : Module} {limits : Limits}
variable {s : State σ} {t : State τ}

/-! ## Steps -/

theorem State.Replays.unwind (h : s.Replays R j k t) : s.unwind.Replays R j k t.unwind := by
  cases h with
  | intro ho hn =>
    simp only [State.unwind]
    split
    · exact .intro ho hn
    · exact .intro ho hn

theorem store_replays (h : s.Replays R j k t) (i : Nat) (v : Scalar) :
    (store s i v).Replays R j k (store t i v) := by
  cases h with
  | intro ho hn =>
    simp only [store]
    split
    · exact .next (.intro ho hn)
    · exact .fault _ (.intro ho hn)

variable (m limits) in
theorem State.push_replays (h : s.Replays R j k t) (f : FunctionId) (dest : Option Register) :
    SamePush R j k (s.push m limits f dest) (t.push m limits f dest) := by
  cases h with
  | intro ho hn =>
    simp only [State.push]
    split
    · exact .error _ (.intro ho hn)
    split
    · exact .error _ (.intro ho hn)
    split
    · exact .error _ (.intro ho hn)
    split
    · exact .error _ (.intro ho hn)
    · exact .ok (.intro ho hn)

theorem leave_replays (h : s.Replays R j k t) (fr : Frame) (rest : List Frame) (name : String)
    (v : Option Scalar) : (leave s fr rest name v).Replays R j k (leave t fr rest name v) := by
  cases h with
  | intro ho hn =>
    unfold leave
    split
    · exact .done _ (.intro ho hn)
    · exact .next (.intro ho hn)
    · cases v with
      | none => exact .fault _ (.intro ho hn)
      | some v => exact store_replays (.intro ho hn) _ v

theorem execTerm_replays (h : s.Replays R j k t) (fr : Frame) (rest : List Frame) (f : Function)
    (term : Terminator) :
    (execTerm s fr rest f term).Replays R j k (execTerm t fr rest f term) := by
  cases id h with
  | intro ho hn =>
    cases term with
    | jump => exact .next (.intro ho hn)
    | unreachable => exact .fault _ h
    | branch c yes no =>
      simp only [execTerm]
      split
      · exact .fault _ h
      · exact .next (.intro ho hn)
    | switch r cases otherwise =>
      simp only [execTerm]
      split
      · exact .fault _ h
      · split
        · exact .fault _ h
        · exact .next (.intro ho hn)
    | ret r =>
      simp only [execTerm]
      split
      · exact .fault _ h
      · exact leave_replays h fr rest f.name _

variable [Output σ] [Output τ]

theorem print_replays (hR : Output.SameReplies R) {o : σ} {o' : τ} (ho : R o o')
    (v : Option Scalar) :
    ∃ r p p', Output.println o v = (r, p) ∧ Output.println o' v = (r, p') ∧ R p p' :=
  ⟨_, _, _, rfl, Prod.ext (hR.result v ho).symm rfl, hR.keeps v ho⟩

theorem execInstr_replays (hR : Output.SameReplies R) (h : s.Replays R j k t) (fr : Frame)
    (i : Instr) : (execInstr m limits s fr i).Replays R j k (execInstr m limits t fr i) := by
  cases id h with
  | intro ho hn =>
    cases i with
    | const d v => exact store_replays h _ v
    | copy d r | unary d op r | loadLocal d n | storeLocal n r | loadField d f =>
      simp only [execInstr]
      split
      · exact .fault _ h
      · exact store_replays h _ _
    | convert d r =>
      simp only [execInstr]
      split
      · exact .fault _ h
      · split
        · exact .fault _ h
        · exact store_replays h _ _
    | binary d op l r =>
      simp only [execInstr]
      split
      · exact .fault _ h
      · split
        · exact .fault _ h
        · split
          · exact .fault _ h
          · exact store_replays h _ _
    | storeField f r =>
      simp only [execInstr]
      split
      · exact .fault _ h
      · split
        · exact .next (.intro ho hn)
        · exact .fault _ h
    | call d f =>
      have hpush := State.push_replays m limits h f d
      simp only [execInstr]
      generalize State.push m limits (_ : State σ) f d = o at hpush
      generalize State.push m limits (_ : State τ) f d = o' at hpush
      cases hpush with
      | ok h' => exact .next h'
      | error e h' => exact .fault e h'
    | print r =>
      simp only [execInstr]
      split
      · exact .fault _ h
      · rename_i v _
        obtain ⟨r, p, p', hp, hp', hpp⟩ := print_replays hR ho v
        rw [hp, hp']
        cases r with
        | ok => exact .next (.intro hpp hn)
        | error e => exact .fault _ (.intro hpp hn)

variable (m limits) in
theorem step_replays (hR : Output.SameReplies R) (h : s.Replays R j k t) :
    (step m limits s).Replays R j k (step m limits t) := by
  cases id h with
  | @intro slots frames fields output output' steps steps' ho hn =>
    have hn' : steps + 1 + j = steps' + 1 + k := by omega
    unfold step
    dsimp only
    split
    · exact .done _ h
    · split
      · exact .fault _ h
      · split
        · exact .fault _ h
        · split
          · exact execInstr_replays hR (.intro ho hn') _ _
          · exact execTerm_replays (.intro ho hn') _ _ _ _

/-! ## Calls -/

theorem exec_replays (hR : Output.SameReplies R) (fuel : Nat) (h : s.Replays R j k t) :
    Option.Rel (SameAnswer R j k) (exec m limits fuel s) (exec m limits fuel t) := by
  induction fuel generalizing s t with
  | zero => exact .none
  | succ fuel ih =>
    rw [exec, exec]
    have hstep := step_replays m limits hR h
    generalize step m limits s = o at hstep
    generalize step m limits t = o' at hstep
    cases hstep with
    | next h' => exact ih h'
    | done v h' => exact .some ⟨rfl, h'⟩
    | fault e h' => exact .some ⟨rfl, h'.unwind⟩

variable (m limits) in
/-- A call does the same again, whatever was printed and counted before. -/
theorem call_replays (hR : Output.SameReplies R) (fuel : Nat) (f : FunctionId)
    (h : s.Replays R j k t) :
    Option.Rel (SameAnswer R j k) (call m limits fuel f s) (call m limits fuel f t) := by
  have hpush := State.push_replays m limits h f none
  unfold call
  generalize s.push m limits f none = o at hpush
  generalize t.push m limits f none = o' at hpush
  cases hpush with
  | ok h' => exact exec_replays hR fuel h'
  | error e h' => exact .some ⟨rfl, h'⟩

/-- Calls from outside one after the other, whether they fail or not: how each of them ends, and the
state that the last one leaves. -/
def calls (m : Module) (limits : Limits) (fuel : Nat) :
    List FunctionId → State σ → Option (List (Except Fault (Option Scalar)) × State σ)
  | [], s => some ([], s)
  | f :: fs, s =>
    match call m limits fuel f s with
    | none => none
    | some (r, s) =>
      match calls m limits fuel fs s with
      | none => none
      | some (rs, s) => some (r :: rs, s)

theorem calls_replays (hR : Output.SameReplies R) (fuel : Nat) (fs : List FunctionId)
    (h : s.Replays R j k t) :
    Option.Rel (SameAnswer R j k) (calls m limits fuel fs s) (calls m limits fuel fs t) := by
  induction fs generalizing s t with
  | nil => exact .some ⟨rfl, h⟩
  | cons f fs ih =>
    have hcall := call_replays m limits hR fuel f h
    rw [calls, calls]
    generalize call m limits fuel f s = e at hcall
    generalize call m limits fuel f t = e' at hcall
    cases hcall with
    | none => exact .none
    | some hsame =>
      obtain ⟨hr, hs⟩ := hsame
      have hrest := ih hs
      dsimp only
      generalize calls m limits fuel fs (_ : State σ) = es at hrest
      generalize calls m limits fuel fs (_ : State τ) = es' at hrest
      cases hrest with
      | none => exact .none
      | some hsame' => exact .some ⟨by rw [hr, hsame'.1], hsame'.2⟩

end Cascade.Machine
