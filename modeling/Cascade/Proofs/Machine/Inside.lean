import Cascade.Proofs.Code.Acyclic
import Cascade.Proofs.Machine.Moves

/-!
# Cascade.Proofs.Machine.Inside

What a call does on its own, between its calls of others.

* `Inside`: steps of the innermost call, which calls nothing and does not return.
* `inside_of_steps`: steps that are possible where no call is allowed are such steps.
* `Inside.unique`: where the function has no cycle, a call comes to a place only once on its own.
-/

namespace Cascade.Machine

open Code

variable {σ : Type} [Output σ]

variable {m : Module} {limits : Limits}

/-- The innermost call, above the calls `rest`, gets from one state to another by steps of its
own. -/
inductive Inside (m : Module) (limits : Limits) (rest : List Frame) : State σ → State σ → Prop where
  | refl {s : State σ} : Inside m limits rest s s
  | cons {s s' s'' : State σ} {fr fr' : Frame} : s.frames = fr :: rest →
      step m limits s = .next s' → s'.frames = fr' :: rest → Inside m limits rest s' s'' →
      Inside m limits rest s s''

namespace Inside

variable {rest : List Frame}

theorem single {s s' : State σ} {fr fr' : Frame} (hs : s.frames = fr :: rest)
    (h : step m limits s = .next s') (hs' : s'.frames = fr' :: rest) :
    Inside m limits rest s s' :=
  .cons hs h hs' .refl

theorem trans {s s' s'' : State σ} (h : Inside m limits rest s s')
    (h' : Inside m limits rest s' s'') : Inside m limits rest s s'' := by
  induction h with
  | refl => exact h'
  | cons hs hstep hs' _ ih => exact .cons hs hstep hs' (ih h')

theorem comparable {s a b : State σ} (ha : Inside m limits rest s a)
    (hb : Inside m limits rest s b) :
    Inside m limits rest a b ∨ Inside m limits rest b a := by
  induction ha with
  | refl => exact .inl hb
  | cons hs hstep hs' ha ih =>
    cases hb with
    | refl => exact .inr (.cons hs hstep hs' ha)
    | cons _ hstep' _ hb =>
      cases hstep.symm.trans hstep'
      exact ih hb

end Inside

/-! ## Where no call is allowed -/

/-- Only calls depend on the limits. -/
theorem step_limits (limits limits' : Limits) {s : State σ} {fr : Frame} {rest : List Frame}
    {f : Function} {b : Block} (hs : s.frames = fr :: rest)
    (hf : m.functions[fr.function]? = some f) (hb : f.block? fr.block = some b)
    (h : ∀ d g, b.code[fr.next]? ≠ some (.call d g)) : step m limits s = step m limits' s := by
  simp only [step, hs, hf, hb]
  cases hi : b.code[fr.next]? with
  | none => rfl
  | some i =>
    cases i with
    | call d g => exact absurd hi (h d g)
    | _ => rfl

section

variable (h₀ : limits.maxCallDepth = 0)
include h₀

omit [Output σ] in
theorem push_refused {s s' : State σ} {g : FunctionId} {d : Option Register} :
    s.push m limits g d ≠ .ok s' := by
  intro hp
  cases State.push_pushes hp with
  | entered _ hdepth _ _ => omega

theorem steps_length {s s' : State σ} (h : Steps m limits s s') :
    s'.frames.length ≤ s.frames.length := by
  induction h with
  | refl => exact Nat.le_refl _
  | @cons s s₁ s' hstep _ ih =>
    refine Nat.le_trans ih ?_
    obtain ⟨fr, rest, hs⟩ := frames_of_next hstep
    obtain ⟨f, b, -, -, hm⟩ := next_moves hs hstep
    rw [hs]
    cases hm with
    | instr _ _ _ | jump _ _ => exact Nat.le_refl _
    | call _ hp => exact absurd hp (push_refused h₀)
    | returned _ _ _ => exact Nat.le_succ _

/-- Steps that are possible where no call is allowed are possible everywhere, and are those of one
call. -/
theorem inside_of_steps (limits' : Limits) {s s' : State σ} {fr fr' : Frame} {rest : List Frame}
    (hs : s.frames = fr :: rest) (h : Steps m limits s s') (hs' : s'.frames = fr' :: rest) :
    Inside m limits' rest s s' := by
  induction h generalizing fr with
  | refl => exact .refl
  | @cons s s₁ s' hstep hsteps ih =>
    obtain ⟨f, b, hf, hb, hm⟩ := next_moves hs hstep
    cases hm with
    | instr hi hcall _ =>
      have hany := step_limits limits limits' hs hf hb fun d g hc =>
        hcall d g (Option.some.inj (hi.symm.trans hc))
      exact .cons hs (hany ▸ hstep) rfl (ih rfl hs')
    | call _ hp => exact absurd hp (push_refused h₀)
    | jump hn _ =>
      have hany := step_limits limits limits' hs hf hb fun d g hc => nomatch hn.symm.trans hc
      exact .cons hs (hany ▸ hstep) rfl (ih rfl hs')
    | returned _ _ _ =>
      have hle := steps_length h₀ hsteps
      rw [hs', List.length_cons] at hle
      exact absurd hle (Nat.not_succ_le_self _)

end

/-! ## Places -/

def Ahead (rank : BlockId → Nat) (fr fr' : Frame) : Prop :=
  rank fr'.block < rank fr.block ∨ fr'.block = fr.block ∧ fr.next < fr'.next

theorem Ahead.trans {rank : BlockId → Nat} {fr fr' fr'' : Frame} (h : Ahead rank fr fr')
    (h' : Ahead rank fr' fr'') : Ahead rank fr fr'' := by
  obtain h | ⟨he, h⟩ := h
  · obtain h' | ⟨he', -⟩ := h'
    · exact .inl (Nat.lt_trans h' h)
    · exact .inl (he' ▸ h)
  · obtain h' | ⟨he', h'⟩ := h'
    · exact .inl (he ▸ h')
    · exact .inr ⟨he'.trans he, Nat.lt_trans h h'⟩

namespace Inside

variable {rest : List Frame} {f : Function} {rank : BlockId → Nat}

/-- A step of its own takes a call ahead in its function. -/
theorem step_ahead (hrank : f.Descends rank) {s s' : State σ} {fr fr' : Frame}
    (hs : s.frames = fr :: rest) (hf : m.functions[fr.function]? = some f)
    (h : step m limits s = .next s') (hs' : s'.frames = fr' :: rest) :
    fr'.function = fr.function ∧ Ahead rank fr fr' := by
  obtain ⟨f', b, hf', hb, hm⟩ := next_moves hs h
  obtain rfl : f' = f := Option.some.inj (hf'.symm.trans hf)
  cases hm with
  | instr _ _ _ =>
    obtain ⟨rfl, -⟩ := List.cons.inj hs'
    exact ⟨rfl, .inr ⟨rfl, Nat.lt_succ_self _⟩⟩
  | call _ hp =>
    cases State.push_pushes hp with
    | entered _ _ _ _ =>
      have := congrArg List.length hs'
      simp at this
  | jump _ hl =>
    obtain ⟨rfl, -⟩ := List.cons.inj hs'
    exact ⟨rfl, .inl (hrank _ _ (by rw [Function.successors, hb]; exact hl))⟩
  | returned _ _ _ =>
    have := congrArg List.length hs'
    simp at this

theorem ahead (hrank : f.Descends rank) {s s' : State σ} (h : Inside m limits rest s s') :
    ∀ {fr fr' : Frame}, s.frames = fr :: rest → m.functions[fr.function]? = some f →
      s'.frames = fr' :: rest → s' = s ∨ Ahead rank fr fr' := by
  induction h with
  | refl => exact fun _ _ _ => .inl rfl
  | @cons s s₁ s' _ fr₁ hs hstep hs₁ _ ih =>
    intro fr fr' hs hf hs'
    obtain ⟨hid, h₁⟩ := step_ahead hrank hs hf hstep hs₁
    obtain rfl | h₂ := ih hs₁ (hid ▸ hf) hs'
    · obtain ⟨rfl, -⟩ := List.cons.inj (hs₁.symm.trans hs')
      exact .inr h₁
    · exact .inr (h₁.trans h₂)

/-- From one state a call comes to a place in one state only. -/
theorem unique (hrank : f.Descends rank) {s a b : State σ} {fr fa fb : Frame}
    (hs : s.frames = fr :: rest) (hf : m.functions[fr.function]? = some f)
    (ha : Inside m limits rest s a) (hb : Inside m limits rest s b) (hfa : a.frames = fa :: rest)
    (hfb : b.frames = fb :: rest) (hblock : fa.block = fb.block) (hnext : fa.next = fb.next) :
    a = b := by
  have hfound : ∀ {t : State σ} {ft : Frame}, Inside m limits rest s t → t.frames = ft :: rest →
      m.functions[ft.function]? = some f := by
    intro t ft ht
    clear ha hb
    induction ht generalizing fr with
    | refl =>
      intro ht
      obtain ⟨rfl, -⟩ := List.cons.inj (hs.symm.trans ht)
      exact hf
    | cons hs₀ hstep hs₁ _ ih =>
      obtain ⟨rfl, -⟩ := List.cons.inj (hs.symm.trans hs₀)
      exact ih hs₁ ((step_ahead hrank hs hf hstep hs₁).1 ▸ hf)
  obtain hab | hba := comparable ha hb
  · obtain rfl | h | ⟨-, h⟩ := hab.ahead hrank hfa (hfound ha hfa) hfb
    · rfl
    · exact absurd h (hblock ▸ Nat.lt_irrefl _)
    · exact absurd h (hnext ▸ Nat.lt_irrefl _)
  · obtain rfl | h | ⟨-, h⟩ := hba.ahead hrank hfb (hfound hb hfb) hfa
    · rfl
    · exact absurd h (hblock ▸ Nat.lt_irrefl _)
    · exact absurd h (hnext ▸ Nat.lt_irrefl _)

end Inside

end Cascade.Machine
