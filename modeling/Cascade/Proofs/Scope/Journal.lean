import Cascade.Scope

/-!
# Cascade.Proofs.Scope.Journal

Scopes told by their history. Opening a scope, closing one and declaring a variable are the acts
on the scopes of a method; a journal of the acts keeps every accepted declaration for ever and says
which scopes are still open.

* `Journal.visible`: the latest declaration of a name in the innermost open scope with one.
* `Scopes.after_agrees`: after any acts the stack of scopes binds what the journal says.
* `Scopes.declare_eq`: a declaration has exactly the outcome that the journal says.
* `Journal.Gone.visible`: what was declared in a closed scope is never visible again.
-/

namespace Cascade

inductive Act where
  | push (kind : ScopeKind)
  | pop
  | declare (name : String) (ty : Ty) (span : Span)
  deriving DecidableEq, Repr

/-! ## Journals -/

/-- What some acts amount to: the open scopes with their kinds, the number of scopes opened so far
and all accepted declarations, the latest first. Nothing is ever taken out of the log. -/
structure Journal where
  policy : Redeclaration
  inner : ScopeId × ScopeKind
  outer : List (ScopeId × ScopeKind)
  made : Nat
  log : List Binding

namespace Journal

def start (policy : Redeclaration) : Journal := ⟨policy, (0, .method), [], 1, []⟩

def latest (j : Journal) (x : String) (c : ScopeId) : Option Binding :=
  j.log.find? fun b => b.scope == c && b.name == x

/-- The latest declaration of a name in the first of some scopes that declares it. -/
def firstIn (j : Journal) (x : String) : List (ScopeId × ScopeKind) → Option Binding
  | [] => none
  | c :: cs =>
    match j.latest x c.1 with
    | some b => some b
    | none => j.firstIn x cs

def visible (j : Journal) (x : String) : Option Binding := j.firstIn x (j.inner :: j.outer)

/-- What a declaration in the innermost scope hides. -/
def enclosing (j : Journal) (x : String) : Option Binding := j.firstIn x j.outer

/-- The innermost scope belongs to a switch and its cases may declare a name again. -/
def MayRebind (j : Journal) : Prop := j.inner.2 = .switch ∧ j.policy = .rebind

instance (j : Journal) : Decidable j.MayRebind := inferInstanceAs (Decidable (_ ∧ _))

/-- The declaration that a new one of the same name collides with. -/
def clash (j : Journal) (x : String) : Option Binding :=
  if j.MayRebind then none else j.latest x j.inner.1

def note (j : Journal) : Act → Journal
  | .push kind => ⟨j.policy, (j.made, kind), j.inner :: j.outer, j.made + 1, j.log⟩
  | .pop =>
    match j.outer with
    | [] => j
    | c :: cs => ⟨j.policy, c, cs, j.made, j.log⟩
  | .declare x ty span =>
    match j.clash x with
    | some _ => j
    | none =>
      ⟨j.policy, j.inner, j.outer, j.made, ⟨x, ty, j.log.length, j.inner.1, span⟩ :: j.log⟩

def of (policy : Redeclaration) (acts : List Act) : Journal := acts.foldl note (start policy)

theorem of_concat (policy : Redeclaration) (acts : List Act) (a : Act) :
    of policy (acts ++ [a]) = (of policy acts).note a := by
  simp [of]

def opened (j : Journal) : List ScopeId := (j.inner :: j.outer).map Prod.fst

/-- Scopes are numbered as they are opened, and only scopes opened so far are in use. -/
structure Ordered (j : Journal) : Prop where
  falling : j.opened.Pairwise (· > ·)
  inner_lt : j.inner.1 < j.made
  logged : ∀ b ∈ j.log, b.scope < j.made

theorem Ordered.lt {j : Journal} (h : j.Ordered) : ∀ c ∈ j.opened, c < j.made := by
  intro c hc
  obtain rfl | hc := List.mem_cons.mp hc
  · exact h.inner_lt
  · exact Nat.lt_trans ((List.pairwise_cons.mp h.falling).1 c hc) h.inner_lt

theorem start_ordered (policy : Redeclaration) : (start policy).Ordered :=
  ⟨by simp [opened, start], by simp [start], by simp [start]⟩

theorem Ordered.note {j : Journal} (h : j.Ordered) : ∀ a, (j.note a).Ordered
  | .push kind => by
    refine ⟨List.pairwise_cons.mpr ⟨h.lt, h.falling⟩, Nat.lt_succ_self _, fun b hb => ?_⟩
    exact Nat.lt_succ_of_lt (h.logged b hb)
  | .pop => by
    simp only [Journal.note]
    split
    · exact h
    · rename_i c cs ho
      obtain ⟨_, hrest⟩ := List.pairwise_cons.mp h.falling
      refine ⟨by simpa [opened, ho] using hrest, h.lt c.1 (by simp [opened, ho]), h.logged⟩
  | .declare x ty span => by
    simp only [Journal.note]
    split
    · exact h
    · refine ⟨h.falling, h.inner_lt, fun b hb => ?_⟩
      obtain rfl | hb := List.mem_cons.mp hb
      · exact h.inner_lt
      · exact h.logged b hb

/-! ## Closed scopes -/

theorem firstIn_mem {j : Journal} {x : String} {b : Binding} :
    ∀ {cs : List (ScopeId × ScopeKind)}, j.firstIn x cs = some b →
      b.name = x ∧ b.scope ∈ cs.map Prod.fst := by
  intro cs
  induction cs with
  | nil =>
    intro h
    cases h
  | cons c cs ih =>
    intro h
    simp only [firstIn] at h
    split at h
    · rename_i b' hb
      cases h
      have := List.find?_some hb
      simp only [Bool.and_eq_true, beq_iff_eq] at this
      simp [this]
    · obtain ⟨hx, hmem⟩ := ih h
      exact ⟨hx, List.mem_cons_of_mem _ hmem⟩

theorem firstIn_logged {j : Journal} {x : String} {b : Binding} :
    ∀ {cs : List (ScopeId × ScopeKind)}, j.firstIn x cs = some b → b ∈ j.log := by
  intro cs
  induction cs with
  | nil =>
    intro h
    cases h
  | cons c cs ih =>
    intro h
    simp only [firstIn] at h
    split at h
    · rename_i b' hb
      cases h
      exact List.mem_of_find?_eq_some hb
    · exact ih h

/-- The scope was opened and is closed again. -/
def Gone (j : Journal) (c : ScopeId) : Prop := c < j.made ∧ c ∉ j.opened

theorem Gone.note {j : Journal} {c : ScopeId} (h : j.Gone c) : ∀ a, (j.note a).Gone c
  | .push kind => by
    refine ⟨Nat.lt_succ_of_lt h.1, fun hc => ?_⟩
    obtain rfl | hc := List.mem_cons.mp hc
    · exact absurd h.1 (Nat.lt_irrefl _)
    · exact h.2 hc
  | .pop => by
    simp only [Journal.note]
    split
    · exact h
    · rename_i o os ho
      refine ⟨h.1, fun hc => h.2 ?_⟩
      rw [opened, ho]
      exact List.mem_cons_of_mem _ hc
  | .declare x ty span => by
    simp only [Journal.note]
    split <;> exact h

theorem Gone.foldl {c : ScopeId} : ∀ (acts : List Act) {j : Journal}, j.Gone c →
    (acts.foldl Journal.note j).Gone c := by
  intro acts
  induction acts with
  | nil => exact fun h => h
  | cons a acts ih => exact fun h => ih (h.note a)

/-- Whatever is done after a scope is closed, what was declared in it is not visible. -/
theorem Gone.visible {policy : Redeclaration} {acts : List Act} {c : ScopeId}
    (h : (of policy acts).Gone c) (more : List Act) {x : String} {b : Binding}
    (hb : (of policy (acts ++ more)).visible x = some b) : b.scope ≠ c := by
  have hgone : (of policy (acts ++ more)).Gone c := by
    rw [of, List.foldl_append]
    exact h.foldl more
  intro hc
  exact hgone.2 (hc ▸ (firstIn_mem hb).2)

end Journal

/-! ## The stack of scopes -/

theorem Scope.find?_bind (s : Scope) (b : Binding) (x : String) :
    (s.bind b).find? x = if b.name = x then some b else s.find? x := by
  unfold bind find?
  rw [List.find?_cons, List.find?_filter]
  by_cases hx : b.name = x
  · simp [hx]
  · simp only [beq_eq_false_iff_ne.mpr hx, if_neg hx]
    congr 1
    funext c
    by_cases hc : c.name = x
    · simp [hc, Ne.symm hx]
    · simp [hc]

namespace Scopes

/-- A declaration that fails changes nothing. -/
def act (s : Scopes) : Act → Scopes
  | .push kind => s.push kind
  | .pop => s.pop
  | .declare x ty span =>
    match s.declare x ty span with
    | .error _ => s
    | .ok (s, _) => s

/-- The scopes of a method after some acts. -/
def after (policy : Redeclaration) (acts : List Act) : Scopes := acts.foldl act (start policy)

/-- The open scopes are those of the journal and bind what it tells. -/
structure Agrees (s : Scopes) (j : Journal) : Prop where
  policy : s.policy = j.policy
  scopes : (s.inner :: s.outer).map (fun c => (c.id, c.kind)) = j.inner :: j.outer
  bindings : ∀ c ∈ s.inner :: s.outer, ∀ x, c.find? x = j.latest x c.id
  made : s.made = j.made
  locals : s.locals.length = j.log.length
  recorded : ∀ b ∈ j.log, s.locals[b.slot]? = some ⟨b.name, b.ty, b.span⟩

section

variable {s : Scopes} {j : Journal}

theorem lookupIn_firstIn {x : String} : ∀ {ss : List Scope},
    (∀ c ∈ ss, c.find? x = j.latest x c.id) →
    lookupIn x ss = j.firstIn x (ss.map fun c => (c.id, c.kind)) := by
  intro ss
  induction ss with
  | nil => exact fun _ => rfl
  | cons c ss ih =>
    intro h
    simp only [lookupIn, List.map_cons, Journal.firstIn, h c List.mem_cons_self]
    cases j.latest x c.id with
    | some b => rfl
    | none => exact ih fun c' hc' => h c' (List.mem_cons_of_mem _ hc')

theorem Agrees.lookup (h : Agrees s j) (x : String) : s.lookup x = j.visible x := by
  unfold Scopes.lookup Journal.visible
  rw [lookupIn_firstIn fun c hc => h.bindings c hc x, h.scopes]

theorem Agrees.inner (h : Agrees s j) : s.inner.id = j.inner.1 ∧ s.inner.kind = j.inner.2 := by
  have := List.head_eq_of_cons_eq h.scopes
  exact ⟨congrArg Prod.fst this, congrArg Prod.snd this⟩

theorem Agrees.outer (h : Agrees s j) : s.outer.map (fun c => (c.id, c.kind)) = j.outer :=
  List.tail_eq_of_cons_eq h.scopes

theorem Agrees.enclosing (h : Agrees s j) (x : String) :
    lookupIn x s.outer = j.enclosing x := by
  unfold Journal.enclosing
  rw [lookupIn_firstIn fun c hc => h.bindings c (List.mem_cons_of_mem _ hc) x, h.outer]

theorem Agrees.mayRebind (h : Agrees s j) : s.mayRebind = true ↔ j.MayRebind := by
  simp [Scopes.mayRebind, Journal.MayRebind, h.inner.2, h.policy]

/-- A declaration is rejected where the journal tells of a clash, and is entered otherwise. -/
theorem Agrees.declare (h : Agrees s j) (x : String) (ty : Ty) (span : Span) :
    s.declare x ty span =
      match j.clash x with
      | some earlier => .error earlier
      | none => .ok (s.add x ty span) := by
  unfold Scopes.declare Journal.clash
  rw [h.bindings s.inner List.mem_cons_self, h.inner.1]
  by_cases hr : j.MayRebind
  · cases j.latest x j.inner.1 <;> simp [hr, h.mayRebind.mpr hr]
  · cases j.latest x j.inner.1 <;> simp [hr, mt h.mayRebind.mp hr]

theorem Agrees.push (h : Agrees s j) (hj : j.Ordered) (kind : ScopeKind) :
    Agrees (s.push kind) (j.note (.push kind)) := by
  refine ⟨h.policy, ?_, fun c hc x => ?_, by rw [Scopes.push, h.made]; rfl, h.locals,
    h.recorded⟩
  · simp only [Scopes.push, Journal.note, List.map_cons, h.made]
    exact congrArg _ h.scopes
  · obtain rfl | hc := List.mem_cons.mp hc
    · -- no scope that was opened before has the number of the new one
      refine Eq.symm (List.find?_eq_none.mpr fun b hb => ?_)
      have hne : b.scope ≠ s.made := h.made ▸ Nat.ne_of_lt (hj.logged b hb)
      simp [Scopes.push, hne]
    · exact h.bindings c hc x

theorem Agrees.pop (h : Agrees s j) : Agrees s.pop (j.note .pop) := by
  have ho := h.outer
  simp only [Scopes.pop, Journal.note]
  split
  · rename_i hs
    rw [hs] at ho
    rw [← ho]
    exact h
  · rename_i o os hs
    rw [hs] at ho
    rw [← ho]
    exact ⟨h.policy, rfl, fun c hc x => h.bindings c (by simp [hs, List.mem_cons.mp hc]) x,
      h.made, h.locals, h.recorded⟩

theorem Agrees.add (h : Agrees s j) (hj : j.Ordered) (x : String) (ty : Ty) (span : Span) :
    Agrees (s.add x ty span).1
      ⟨j.policy, j.inner, j.outer, j.made, ⟨x, ty, j.log.length, j.inner.1, span⟩ :: j.log⟩ := by
  have hfalling := (List.pairwise_cons.mp hj.falling).1
  refine ⟨h.policy, h.scopes, fun c hc y => ?_, h.made, by simp [Scopes.add, h.locals],
    fun b hb => ?_⟩
  obtain rfl | hc := List.mem_cons.mp hc
  · change (s.inner.bind _).find? y = _
    rw [Scope.find?_bind, h.bindings s.inner List.mem_cons_self]
    by_cases hx : x = y
    · simp [Scopes.add, Scope.bind, Journal.latest, h.inner.1, h.locals, hx]
    · simp [Scopes.add, Scope.bind, Journal.latest, hx]
  · -- scopes further out have other numbers
    have hlt : c.id < j.inner.1 :=
      hfalling c.id (by rw [← h.outer]; simpa using ⟨c, hc, rfl⟩)
    rw [h.bindings c (List.mem_cons_of_mem _ hc)]
    simp [Journal.latest, Nat.ne_of_gt hlt]
  obtain rfl | hb := List.mem_cons.mp hb
  · simp [Scopes.add, h.locals]
  · have hkept := h.recorded b hb
    obtain ⟨hlt, -⟩ := List.getElem?_eq_some_iff.mp hkept
    exact (List.getElem?_append_left hlt).trans hkept

theorem Agrees.act (h : Agrees s j) (hj : j.Ordered) : ∀ a, Agrees (s.act a) (j.note a)
  | .push kind => h.push hj kind
  | .pop => h.pop
  | .declare x ty span => by
    simp only [Scopes.act, Journal.note, h.declare]
    cases j.clash x with
    | some earlier => exact h
    | none => exact h.add hj x ty span

end

theorem start_agrees (policy : Redeclaration) : Agrees (start policy) (.start policy) :=
  ⟨rfl, rfl, fun c hc x => by simp_all [start, Journal.start, Journal.latest, Scope.find?], rfl,
    rfl, by simp [Journal.start]⟩

theorem after_agrees (policy : Redeclaration) (acts : List Act) :
    Agrees (after policy acts) (.of policy acts) := by
  unfold after Journal.of
  generalize start policy = s, Journal.start policy = j, start_agrees policy = h,
    Journal.start_ordered policy = hj
  induction acts generalizing s j with
  | nil => exact h
  | cons a acts ih => exact ih _ _ (h.act hj a) (hj.note a)

theorem after_append (policy : Redeclaration) (acts more : List Act) :
    after policy (acts ++ more) = more.foldl act (after policy acts) := List.foldl_append

theorem after_concat (policy : Redeclaration) (acts : List Act) (a : Act) :
    after policy (acts ++ [a]) = (after policy acts).act a := after_append policy acts [a]

/-! ## Storage -/

theorem act_locals (s : Scopes) : ∀ a, s.locals <+: (s.act a).locals
  | .push _ => List.prefix_refl _
  | .pop => by
    simp only [act, pop]
    split <;> exact List.prefix_refl _
  | .declare x ty span => by
    simp only [act, declare]
    split
    · exact List.prefix_refl _
    · rename_i s' d h
      split at h
      · cases h; exact List.prefix_append _ _
      · split at h
        · cases h; exact List.prefix_append _ _
        · cases h

/-- What is recorded about storage is kept for ever. -/
theorem foldl_locals : ∀ (acts : List Act) (s : Scopes),
    s.locals <+: (acts.foldl act s).locals := by
  intro acts
  induction acts with
  | nil => exact fun _ => List.prefix_refl _
  | cons a acts ih => exact fun s => (act_locals s a).trans (ih _)

end Scopes

end Cascade
