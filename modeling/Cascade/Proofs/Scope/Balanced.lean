import Cascade.Proofs.Scope.Arena

/-!
# Cascade.Proofs.Scope.Balanced

Acts in which every scope that is opened is closed again, and no other scope is closed.

* `Scopes.Resumes`, `Arena.OthersKept`: the same scope is innermost as before, and nothing but that
  one may bind other names. In an arena this goes for the closed scopes too.
* `Balanced.resumes`, `Balanced.othersKept`: so it is after balanced acts.
-/

namespace Cascade

/-- Every scope that is opened is closed again, and no other scope is closed. -/
inductive Balanced : List Act → Prop where
  | nil : Balanced []
  | declare (x : String) (ty : Ty) (span : Span) : Balanced [.declare x ty span]
  | append {as bs : List Act} : Balanced as → Balanced bs → Balanced (as ++ bs)
  | nested (kind : ScopeKind) {as : List Act} : Balanced as →
      Balanced (.push kind :: as ++ [.pop])

/-! ## Open scopes -/

namespace Scopes

/-- The scopes that are open are the ones that were open before. Only the innermost one may bind
more names, and storage is only added. -/
structure Resumes (s s' : Scopes) : Prop where
  policy : s'.policy = s.policy
  inner : s'.inner.id = s.inner.id ∧ s'.inner.kind = s.inner.kind
  outer : s'.outer = s.outer
  locals : s.locals <+: s'.locals
  /-- A name of the innermost scope means what it meant, or else a variable declared since. -/
  bound : ∀ x b, s.inner.find? x = some b → ∃ b', s'.inner.find? x = some b' ∧
    (b' = b ∨ s.locals.length ≤ b'.slot)
  fresh : ∀ x b, s'.inner.find? x = some b → s.inner.find? x = some b ∨ s.locals.length ≤ b.slot

theorem Resumes.refl (s : Scopes) : Resumes s s :=
  ⟨rfl, ⟨rfl, rfl⟩, rfl, List.prefix_refl _, fun _ b h => ⟨b, h, .inl rfl⟩, fun _ _ h => .inl h⟩

theorem Resumes.trans {s s' s'' : Scopes} (h : Resumes s s') (h' : Resumes s' s'') :
    Resumes s s'' := by
  have hle := h.locals.length_le
  refine ⟨h'.policy.trans h.policy, ⟨h'.inner.1.trans h.inner.1, h'.inner.2.trans h.inner.2⟩,
    h'.outer.trans h.outer, h.locals.trans h'.locals, fun x b hb => ?_, fun x b hb => ?_⟩
  · obtain ⟨b', hb', hold⟩ := h.bound x b hb
    obtain ⟨b'', hb'', hold'⟩ := h'.bound x b' hb'
    refine ⟨b'', hb'', ?_⟩
    obtain rfl | hnew := hold'
    · exact hold
    · exact .inr (Nat.le_trans hle hnew)
  · obtain hb | hnew := h'.fresh x b hb
    · exact h.fresh x b hb
    · exact .inr (Nat.le_trans hle hnew)

theorem Resumes.add (s : Scopes) (x : String) (ty : Ty) (span : Span) :
    Resumes s (s.add x ty span).1 := by
  have hfind : ∀ y, (s.add x ty span).1.inner.find? y =
      if x = y then some ⟨x, ty, s.locals.length, s.inner.id, span⟩ else s.inner.find? y :=
    fun y => Scope.find?_bind _ _ y
  refine ⟨rfl, ⟨rfl, rfl⟩, rfl, List.prefix_append _ _, fun y b hb => ?_, fun y b hb => ?_⟩
  · rw [hfind]
    split
    · exact ⟨_, rfl, .inr (Nat.le_refl _)⟩
    · exact ⟨b, hb, .inl rfl⟩
  · rw [hfind] at hb
    split at hb
    · cases hb
      exact .inr (Nat.le_refl _)
    · exact .inl hb

theorem Resumes.declare (s : Scopes) (x : String) (ty : Ty) (span : Span) :
    Resumes s (s.act (.declare x ty span)) := by
  simp only [act, Scopes.declare]
  cases s.inner.find? x with
  | none => exact .add s x ty span
  | some earlier =>
    cases s.mayRebind with
    | true => exact .add s x ty span
    | false => exact .refl s

theorem Resumes.nested {s s' : Scopes} {kind : ScopeKind} (h : Resumes (s.push kind) s') :
    Resumes s s'.pop := by
  have houter : s'.outer = s.inner :: s.outer := h.outer
  simp only [pop, houter]
  exact ⟨h.policy, ⟨rfl, rfl⟩, rfl, h.locals, fun _ b hb => ⟨b, hb, .inl rfl⟩,
    fun _ _ hb => .inl hb⟩

/-- A look-up goes on to the scopes around the innermost one as before. -/
theorem Resumes.lookup {s s' : Scopes} (h : Resumes s s') (x : String) :
    s'.lookup x = (s'.inner.find? x).or (lookupIn x s.outer) := by
  rw [Scopes.lookup, lookupIn, h.outer]
  cases s'.inner.find? x <;> rfl

end Scopes

/-! ## Scopes in an arena -/

namespace Arena

/-- The same scope is current, and no other scope that was there before has changed. -/
structure OthersKept (a a' : Arena) : Prop where
  policy : a'.policy = a.policy
  current : a'.current = a.current
  parent : a'.node.parent = a.node.parent
  kind : a'.node.scope.kind = a.node.scope.kind
  length : a.nodes.length ≤ a'.nodes.length
  nodes : ∀ i, i < a.nodes.length → i ≠ a.current → a'.nodes[i]? = a.nodes[i]?
  locals : a.locals <+: a'.locals

theorem OthersKept.refl (a : Arena) : OthersKept a a :=
  ⟨rfl, rfl, rfl, rfl, Nat.le_refl _, fun _ _ _ => rfl, List.prefix_refl _⟩

theorem OthersKept.trans {a a' a'' : Arena} (h : OthersKept a a') (h' : OthersKept a' a'') :
    OthersKept a a'' := by
  refine ⟨h'.policy.trans h.policy, h'.current.trans h.current, h'.parent.trans h.parent,
    h'.kind.trans h.kind, Nat.le_trans h.length h'.length, fun i hi hne => ?_,
    h.locals.trans h'.locals⟩
  rw [h'.nodes i (Nat.lt_of_lt_of_le hi h.length) (h.current ▸ hne), h.nodes i hi hne]

theorem node_eq {a : Arena} {n : Node} (h : a.nodes[a.current]? = some n) : a.node = n :=
  Option.some.inj (a.node_get.symm.trans h)

theorem OthersKept.add (a : Arena) (x : String) (ty : Ty) (span : Span) :
    OthersKept a (a.add x ty span).1 := by
  have hnode : (a.add x ty span).1.node =
      ⟨a.node.scope.bind ⟨x, ty, a.locals.length, a.current, span⟩, a.node.parent⟩ :=
    node_eq (by simp [Arena.add, a.node_get])
  refine ⟨rfl, rfl, by rw [hnode], by rw [hnode]; rfl, ?_, fun i _ hne => ?_,
    List.prefix_append _ _⟩
  · simp [Arena.add]
  · simp [Arena.add, hne.symm]

theorem OthersKept.declare (a : Arena) (x : String) (ty : Ty) (span : Span) :
    OthersKept a (a.act (.declare x ty span)) := by
  simp only [act, Arena.declare]
  cases a.node.scope.find? x with
  | none => exact .add a x ty span
  | some earlier =>
    cases a.mayRebind with
    | true => exact .add a x ty span
    | false => exact .refl a

/-- What is done in a scope of its own changes no scope that was there before. -/
theorem OthersKept.nested {a a' : Arena} {kind : ScopeKind} (h : OthersKept (a.push kind) a') :
    OthersKept a a'.pop := by
  have hnew : (a.push kind).node = ⟨⟨a.nodes.length, kind, []⟩, some a.current⟩ :=
    node_eq (by simp [Arena.push])
  have hparent : a'.node.parent = some a.current := by rw [h.parent, hnew]
  have hpop : a'.pop.nodes = a'.nodes ∧ a'.pop.current = a.current ∧
      a'.pop.policy = a'.policy ∧ a'.pop.locals = a'.locals := by
    unfold Arena.pop
    split
    · rename_i hp
      cases hp.symm.trans hparent
    · rename_i q hp
      obtain rfl := Option.some.inj (hp.symm.trans hparent)
      exact ⟨rfl, rfl, rfl, rfl⟩
  have hlength : a.nodes.length < a'.nodes.length :=
    Nat.lt_of_lt_of_le (by simp [Arena.push]) h.length
  have hold : ∀ i, i < a.nodes.length → a'.pop.nodes[i]? = a.nodes[i]? := by
    intro i hi
    rw [hpop.1, h.nodes i (by simp [Arena.push]; omega) (Nat.ne_of_lt hi), Arena.push,
      List.getElem?_append_left hi]
  have hnode : a'.pop.node = a.node := by
    refine node_eq ?_
    rw [hpop.2.1, hold _ a.current_lt]
    exact a.node_get
  exact ⟨hpop.2.2.1.trans h.policy, hpop.2.1, by rw [hnode], by rw [hnode],
    by rw [hpop.1]; exact Nat.le_of_lt hlength, fun i hi _ => hold i hi,
    hpop.2.2.2 ▸ h.locals⟩

end Arena

/-! ## Balanced acts -/

/-- What holds over every declaration and around every scope holds over balanced acts. -/
theorem Balanced.fold {σ : Type} {act : σ → Act → σ} {R : σ → σ → Prop} (hrefl : ∀ s, R s s)
    (htrans : ∀ {s s' s''}, R s s' → R s' s'' → R s s'')
    (hdeclare : ∀ s x ty span, R s (act s (.declare x ty span)))
    (hnested : ∀ {s s' kind}, R (act s (.push kind)) s' → R s (act s' .pop)) {acts : List Act}
    (h : Balanced acts) (s : σ) : R s (acts.foldl act s) := by
  induction h generalizing s with
  | nil => exact hrefl s
  | declare x ty span => exact hdeclare s x ty span
  | append _ _ iha ihb =>
    rw [List.foldl_append]
    exact htrans (iha s) (ihb _)
  | nested kind _ ih =>
    rw [List.foldl_append, List.foldl_cons]
    exact hnested (ih (act s (.push kind)))

theorem Balanced.resumes {acts : List Act} (h : Balanced acts) (s : Scopes) :
    s.Resumes (acts.foldl Scopes.act s) :=
  h.fold .refl .trans .declare .nested s

theorem Balanced.othersKept {acts : List Act} (h : Balanced acts) (a : Arena) :
    a.OthersKept (acts.foldl Arena.act a) :=
  h.fold .refl .trans .declare .nested a

end Cascade
