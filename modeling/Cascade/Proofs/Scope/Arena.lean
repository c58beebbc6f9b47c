import Cascade.Proofs.Scope.Journal

/-!
# Cascade.Proofs.Scope.Arena

Scopes in an arena. No scope is ever taken out of it: each one links to the scope around it, one of
them is current, and a look-up climbs along the links.

* `Arena.Represents`: the scopes on the way up from the current one are the open scopes of a stack.
* `Arena.after_represents`: this holds after any acts, so an arena answers as the stack does.
* `after_lawful`: look-up and declaration, of either kind of scopes, told by the journal alone.
-/

namespace Cascade

structure Node where
  scope : Scope
  parent : Option ScopeId

/-- All scopes opened in a method so far, by number. -/
structure Arena where
  policy : Redeclaration
  nodes : List Node
  current : ScopeId
  locals : List Local
  /-- A scope is opened after the one around it. -/
  links : ∀ (i : ScopeId) (n : Node) (q : ScopeId), nodes[i]? = some n → n.parent = some q → q < i
  current_lt : current < nodes.length

namespace Arena

def start (policy : Redeclaration) : Arena where
  policy := policy
  nodes := [⟨⟨0, .method, []⟩, none⟩]
  current := 0
  locals := []
  links i n q h hq := by
    obtain ⟨hi, rfl⟩ := List.getElem?_eq_some_iff.mp h
    simp at hq
  current_lt := Nat.one_pos

def node (a : Arena) : Node := a.nodes.get ⟨a.current, a.current_lt⟩

theorem node_get (a : Arena) : a.nodes[a.current]? = some a.node :=
  List.getElem?_eq_getElem a.current_lt

def push (a : Arena) (kind : ScopeKind) : Arena where
  policy := a.policy
  nodes := a.nodes ++ [⟨⟨a.nodes.length, kind, []⟩, some a.current⟩]
  current := a.nodes.length
  locals := a.locals
  links i n q h hq := by
    rw [List.getElem?_append] at h
    split at h
    · exact a.links i n q h hq
    · rename_i hi
      rw [List.getElem?_singleton] at h
      split at h
      · cases h
        cases hq
        exact Nat.lt_of_lt_of_le a.current_lt (Nat.le_of_not_lt hi)
      · cases h
  current_lt := by simp

/-- Go back to the scope around the current one. The scope of the method stays current. -/
def pop (a : Arena) : Arena :=
  match h : a.node.parent with
  | none => a
  | some q =>
    { a with
      current := q
      current_lt := Nat.lt_trans (a.links _ _ q a.node_get h) a.current_lt }

/-- The binding of a name in a scope, or else in one further up. -/
def lookupFrom (a : Arena) (x : String) (c : ScopeId) : Option Binding :=
  match _hn : a.nodes[c]? with
  | none => none
  | some n =>
    match n.scope.find? x with
    | some b => some b
    | none =>
      match _hq : n.parent with
      | none => none
      | some q => a.lookupFrom x q
termination_by c
decreasing_by exact a.links c n q _hn _hq

def lookup (a : Arena) (x : String) : Option Binding := a.lookupFrom x a.current

def add (a : Arena) (x : String) (ty : Ty) (span : Span) : Arena × Declaration :=
  ({ a with
      nodes := a.nodes.modify a.current fun n =>
        ⟨n.scope.bind ⟨x, ty, a.locals.length, a.current, span⟩, n.parent⟩
      locals := a.locals ++ [⟨x, ty, span⟩]
      links := fun i n q h hq => by
        rw [List.getElem?_modify] at h
        obtain ⟨n', hn, rfl⟩ := Option.map_eq_some_iff.mp h
        refine a.links i n' q hn ?_
        split at hq <;> exact hq
      current_lt := by rw [List.length_modify]; exact a.current_lt },
    ⟨a.locals.length, (a.node.parent.bind (a.lookupFrom x)).map Binding.span⟩)

def mayRebind (a : Arena) : Bool := a.node.scope.kind == .switch && a.policy == .rebind

def declare (a : Arena) (x : String) (ty : Ty) (span : Span) :
    Except Binding (Arena × Declaration) :=
  match a.node.scope.find? x with
  | none => .ok (a.add x ty span)
  | some earlier => if a.mayRebind then .ok (a.add x ty span) else .error earlier

def act (a : Arena) : Act → Arena
  | .push kind => a.push kind
  | .pop => a.pop
  | .declare x ty span =>
    match a.declare x ty span with
    | .error _ => a
    | .ok (a, _) => a

def after (policy : Redeclaration) (acts : List Act) : Arena := acts.foldl act (start policy)

/-! ## The way up -/

/-- The scopes from a scope up along the links, each under its own number. -/
inductive Climb (nodes : List Node) : Option ScopeId → List Scope → Prop where
  | top : Climb nodes none []
  | up {c : ScopeId} {n : Node} {ss : List Scope} (hn : nodes[c]? = some n) (hid : n.scope.id = c)
      (hss : Climb nodes n.parent ss) : Climb nodes (some c) (n.scope :: ss)

theorem Climb.append {nodes : List Node} {c : Option ScopeId} {ss : List Scope}
    (h : Climb nodes c ss) (more : List Node) : Climb (nodes ++ more) c ss := by
  induction h with
  | top => exact .top
  | up hn hid _ ih =>
    refine .up ?_ hid ih
    rw [List.getElem?_append_left (List.getElem?_eq_some_iff.mp hn).1]
    exact hn

/-- A change to a scope is not seen from scopes opened before it. -/
theorem Climb.modify {a : Arena} {i : Nat} {c : Option ScopeId} {ss : List Scope}
    (h : Climb a.nodes c ss) (hc : ∀ q, c = some q → q < i) (f : Node → Node) :
    Climb (a.nodes.modify i f) c ss := by
  induction h with
  | top => exact .top
  | up hn hid _ ih =>
    have hlt := hc _ rfl
    refine .up ?_ hid (ih fun q hq => Nat.lt_trans (a.links _ _ q hn hq) hlt)
    simp [hn, Nat.ne_of_gt hlt]

theorem lookupFrom_climb {a : Arena} {x : String} : ∀ {c : Option ScopeId} {ss : List Scope},
    Climb a.nodes c ss → c.bind (a.lookupFrom x) = lookupIn x ss := by
  intro c ss h
  induction h with
  | top => rfl
  | up hn _ _ ih =>
    rw [Option.bind_some, lookupFrom, lookupIn]
    split
    · rename_i hnone
      rw [hn] at hnone
      cases hnone
    rename_i n' hsome
    obtain rfl := Option.some.inj (hsome.symm.trans hn)
    cases n'.scope.find? x with
    | some b => rfl
    | none =>
      dsimp only
      split
      · rename_i hp
        rw [hp] at ih
        exact ih
      · rename_i q hp
        rw [hp] at ih
        exact ih

/-- The open scopes of the stack are those on the way up from the current scope. -/
structure Represents (a : Arena) (s : Scopes) : Prop where
  policy : a.policy = s.policy
  made : a.nodes.length = s.made
  locals : a.locals = s.locals
  climb : Climb a.nodes (some a.current) (s.inner :: s.outer)

section

variable {a : Arena} {s : Scopes}

theorem Climb.inv {nodes : List Node} {c : ScopeId} {n : Node} {t : Scope} {ts : List Scope}
    (h : Climb nodes (some c) (t :: ts)) (hn : nodes[c]? = some n) :
    n.scope = t ∧ t.id = c ∧ Climb nodes n.parent ts := by
  cases h with
  | up hn' hid hss =>
    obtain rfl := Option.some.inj (hn.symm.trans hn')
    exact ⟨rfl, hid, hss⟩

theorem Represents.lookup (h : Represents a s) (x : String) : a.lookup x = s.lookup x :=
  lookupFrom_climb h.climb

theorem Represents.push (h : Represents a s) (kind : ScopeKind) :
    Represents (a.push kind) (s.push kind) := by
  refine ⟨h.policy, by simp [Arena.push, Scopes.push, h.made], h.locals, ?_⟩
  have hclimb := h.climb.append [⟨⟨a.nodes.length, kind, []⟩, some a.current⟩]
  have hnew : (a.push kind).nodes[(a.push kind).current]? =
      some ⟨⟨a.nodes.length, kind, []⟩, some a.current⟩ := by simp [Arena.push]
  have hup := Climb.up hnew rfl hclimb
  rwa [h.made] at hup

theorem Represents.pop (h : Represents a s) : Represents a.pop s.pop := by
  obtain ⟨-, -, hclimb⟩ := h.climb.inv a.node_get
  unfold Arena.pop Scopes.pop
  split
  · rename_i hp
    rw [hp] at hclimb
    cases hs : s.outer with
    | nil => exact h
    | cons o os =>
      rw [hs] at hclimb
      cases hclimb
  · rename_i q hp
    rw [hp] at hclimb
    cases hs : s.outer with
    | nil =>
      rw [hs] at hclimb
      cases hclimb
    | cons o os =>
      rw [hs] at hclimb
      exact ⟨h.policy, h.made, h.locals, hclimb⟩

theorem Represents.add (h : Represents a s) (x : String) (ty : Ty) (span : Span) :
    Represents (a.add x ty span).1 (s.add x ty span).1 ∧
      (a.add x ty span).2 = (s.add x ty span).2 := by
  obtain ⟨hscope, hid, hclimb⟩ := h.climb.inv a.node_get
  refine ⟨⟨h.policy, ?_, ?_, ?_⟩, ?_⟩
  · simp [Arena.add, Scopes.add, h.made]
  · simp [Arena.add, Scopes.add, h.locals]
  · have hlower := hclimb.modify (fun q hq => a.links _ _ q a.node_get hq) fun n =>
      ⟨n.scope.bind ⟨x, ty, a.locals.length, a.current, span⟩, n.parent⟩
    have hnew : (a.add x ty span).1.nodes[a.current]? =
        some ⟨s.inner.bind ⟨x, ty, s.locals.length, s.inner.id, span⟩, a.node.parent⟩ := by
      simp [Arena.add, a.node_get, hscope, hid, h.locals]
    exact .up hnew hid hlower
  · simp [Arena.add, Scopes.add, h.locals, lookupFrom_climb hclimb]

/-- A declaration has one outcome in both, and on success leaves them alike. -/
theorem Represents.declare (h : Represents a s) (x : String) (ty : Ty) (span : Span) :
    match a.declare x ty span, s.declare x ty span with
    | .error b, .error b' => b = b'
    | .ok (a', d), .ok (s', d') => Represents a' s' ∧ d = d'
    | _, _ => False := by
  obtain ⟨hscope, -, -⟩ := h.climb.inv a.node_get
  have hrebind : a.mayRebind = s.mayRebind := by
    simp [Arena.mayRebind, Scopes.mayRebind, hscope, h.policy]
  unfold Arena.declare Scopes.declare
  rw [hscope, hrebind]
  cases s.inner.find? x with
  | none => exact h.add x ty span
  | some earlier =>
    cases s.mayRebind with
    | true => exact h.add x ty span
    | false => exact rfl

theorem Represents.act (h : Represents a s) : ∀ t, Represents (a.act t) (s.act t)
  | .push kind => h.push kind
  | .pop => h.pop
  | .declare x ty span => by
    have hd := h.declare x ty span
    simp only [Arena.act, Scopes.act]
    split at hd
    · rename_i ha hs
      rw [ha, hs]
      exact h
    · rename_i ha hs
      rw [ha, hs]
      exact hd.1
    · exact hd.elim

end

theorem start_represents (policy : Redeclaration) :
    Represents (start policy) (.start policy) :=
  have hnode : (start policy).nodes[0]? = some ⟨⟨0, .method, []⟩, none⟩ := rfl
  ⟨rfl, rfl, rfl, .up hnode rfl .top⟩

/-- An arena and a stack that go through the same acts stay alike. -/
theorem Represents.foldl {a : Arena} {s : Scopes} (h : Represents a s) (acts : List Act) :
    Represents (acts.foldl Arena.act a) (acts.foldl Scopes.act s) := by
  induction acts generalizing a s with
  | nil => exact h
  | cons t acts ih => exact ih (h.act t)

theorem after_represents (policy : Redeclaration) (acts : List Act) :
    Represents (after policy acts) (.after policy acts) :=
  (start_represents policy).foldl acts

end Arena

/-! ## Scopes as a stack of maps -/

/-- What look-up and declaration do after some acts, told by the journal of the acts alone. -/
structure Lawful (policy : Redeclaration) (acts : List Act) : Prop where
  /-- A name is its latest declaration in the innermost open scope that declares it. -/
  lookup : ∀ x, (Scopes.after policy acts).lookup x = (Journal.of policy acts).visible x
  /-- Nothing declared in a closed scope is found again, whatever is done next. -/
  closed : ∀ c, (Journal.of policy acts).Gone c → ∀ more x b,
    (Scopes.after policy (acts ++ more)).lookup x = some b → b.scope ≠ c
  /-- A declaration fails exactly where the innermost scope binds the name already, and is not one
  of a switch that may rebind it; the error tells that binding. -/
  rejects : ∀ x ty span earlier, (Scopes.after policy acts).declare x ty span = .error earlier ↔
    (Journal.of policy acts).latest x (Journal.of policy acts).inner.1 = some earlier ∧
      ¬(Journal.of policy acts).MayRebind
  unchanged : ∀ x ty span earlier,
    (Scopes.after policy acts).declare x ty span = .error earlier →
    Scopes.after policy (acts ++ [.declare x ty span]) = Scopes.after policy acts ∧
      Journal.of policy (acts ++ [.declare x ty span]) = Journal.of policy acts
  /-- A declaration that succeeds is logged; its slot is the number of those before it, and what
  is recorded about the slot stays for ever. -/
  accepts : ∀ x ty span s d, (Scopes.after policy acts).declare x ty span = .ok (s, d) →
    s = Scopes.after policy (acts ++ [.declare x ty span]) ∧
    (Journal.of policy (acts ++ [.declare x ty span])).log =
      ⟨x, ty, d.slot, (Journal.of policy acts).inner.1, span⟩ :: (Journal.of policy acts).log ∧
    d.slot = (Journal.of policy acts).log.length ∧
    d.hides = ((Journal.of policy acts).enclosing x).map Binding.span ∧
    ∀ more, (Scopes.after policy (acts ++ .declare x ty span :: more)).locals[d.slot]? =
      some ⟨x, ty, span⟩
  /-- Scopes in an arena, none of them ever freed, answer alike. -/
  arena : (Arena.after policy acts).locals = (Scopes.after policy acts).locals ∧
    (∀ x, (Arena.after policy acts).lookup x = (Scopes.after policy acts).lookup x) ∧
    ∀ x ty span, ((Arena.after policy acts).declare x ty span).map Prod.snd =
      ((Scopes.after policy acts).declare x ty span).map Prod.snd

theorem after_lawful (policy : Redeclaration) (acts : List Act) : Lawful policy acts := by
  have h := Scopes.after_agrees policy acts
  have ha := Arena.after_represents policy acts
  refine ⟨h.lookup, fun c hc more x b hb => ?_, fun x ty span earlier => ?_,
    fun x ty span earlier he => ?_, fun x ty span s d hd => ?_,
    ha.locals, ha.lookup, fun x ty span => ?_⟩
  · rw [(Scopes.after_agrees policy (acts ++ more)).lookup] at hb
    exact hc.visible more hb
  · rw [h.declare]
    unfold Journal.clash
    by_cases hr : (Journal.of policy acts).MayRebind
    · simp [hr]
    · cases (Journal.of policy acts).latest x (Journal.of policy acts).inner.1 <;> simp [hr]
  · rw [Scopes.after_concat, Journal.of_concat]
    have hclash := h.declare x ty span
    simp only [Scopes.act, Journal.note, he] at hclash ⊢
    cases hc : (Journal.of policy acts).clash x with
    | some b => simp
    | none => simp [hc] at hclash
  · have hclash := h.declare x ty span
    rw [hd] at hclash
    cases hc : (Journal.of policy acts).clash x with
    | some b => simp [hc] at hclash
    | none =>
      simp only [hc, Except.ok.injEq] at hclash
      have hs : s = Scopes.after policy (acts ++ [.declare x ty span]) := by
        rw [Scopes.after_concat]
        simp only [Scopes.act, hd]
      obtain ⟨hadd, rfl⟩ := Prod.ext_iff.mp hclash
      refine ⟨hs, ?_, h.locals, congrArg (Option.map Binding.span) (h.enclosing x),
        fun more => ?_⟩
      · rw [Journal.of_concat]
        simp only [Journal.note, hc, Scopes.add, h.locals]
      · have hlocals : s.locals = (Scopes.after policy acts).locals ++ [⟨x, ty, span⟩] :=
          congrArg Scopes.locals hadd
        have hkept := Scopes.foldl_locals more s
        rw [hs, ← Scopes.after_append, ← hs, hlocals] at hkept
        obtain ⟨rest, hrest⟩ := hkept
        rw [List.append_cons, ← hrest]
        simp [Scopes.add]
  · have hd := ha.declare x ty span
    split at hd
    · rename_i h1 h2
      rw [h1, h2, hd]
      rfl
    · rename_i h1 h2
      rw [h1, h2]
      exact congrArg _ hd.2
    · exact hd.elim

end Cascade
