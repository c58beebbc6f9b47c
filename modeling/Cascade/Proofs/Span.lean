import Cascade.Diagnostic.Location
import Cascade.Span

/-!
# Cascade.Proofs.Span

Spans in a text, and what merging makes of their ranges, lines and columns.

* `Location.ofOffset_notAfter`: locations stand in the order of their offsets.
* `Span.merge_consistent`: merging gives the smallest range over two spans and the line where it
  starts, but the column where it starts only if the span that starts first does not start further
  to the right than the other one.
-/

namespace Cascade

namespace Location

def NotAfter (l m : Location) : Prop := l.line < m.line ∨ l.line = m.line ∧ l.column ≤ m.column

theorem NotAfter.refl (l : Location) : l.NotAfter l := .inr ⟨rfl, Nat.le_refl _⟩

theorem NotAfter.trans {l m n : Location} (h : l.NotAfter m) (h' : m.NotAfter n) :
    l.NotAfter n := by
  unfold NotAfter at *
  omega

theorem NotAfter.line_le {l m : Location} (h : l.NotAfter m) : l.line ≤ m.line := by
  unfold NotAfter at h
  omega

theorem notAfter_after (l : Location) (c : Char) : l.NotAfter (l.after c) := by
  rw [after]
  split
  · exact .inl (Nat.lt_succ_self _)
  · exact .inr ⟨rfl, Nat.le_succ _⟩

theorem notAfter_advance (offset : Nat) (cs : List Char) (position : Nat) (l : Location) :
    l.NotAfter (advance offset position l cs) := by
  induction cs generalizing position l with
  | nil => exact .refl l
  | cons c cs ih =>
    rw [advance]
    split
    · exact (notAfter_after l c).trans (ih _ _)
    · exact .refl l

/-- The walk to the later offset goes on where the walk to the earlier one ends. -/
theorem advance_notAfter {a b : Nat} (h : a ≤ b) (cs : List Char) (position : Nat)
    (l : Location) : (advance a position l cs).NotAfter (advance b position l cs) := by
  induction cs generalizing position l with
  | nil => exact .refl l
  | cons c cs ih =>
    rw [advance]
    split
    · rw [advance, if_pos (by omega)]
      exact ih _ _
    · exact notAfter_advance b _ _ _

theorem ofOffset_notAfter (text : String) {a b : Nat} (h : a ≤ b) :
    (ofOffset text a).NotAfter (ofOffset text b) :=
  advance_notAfter h _ _ _

end Location

namespace Span

variable {text : String} {a b : Span}

/-- Where a span says that it starts. -/
def location (s : Span) : Location := ⟨s.line, s.column⟩

/-- The range lies in the text, and line and column are those of its start. -/
structure Placed (text : String) (s : Span) : Prop where
  ordered : s.start ≤ s.stop
  inside : s.stop ≤ text.utf8ByteSize
  located : s.location = .ofOffset text s.start

theorem placed_iff {s : Span} : s.Placed text ↔
    s.start ≤ s.stop ∧ s.stop ≤ text.utf8ByteSize ∧ s.location = .ofOffset text s.start :=
  ⟨fun ⟨h, h', h''⟩ => ⟨h, h', h''⟩, fun ⟨h, h', h''⟩ => ⟨h, h', h''⟩⟩

instance (text : String) (s : Span) : Decidable (s.Placed text) :=
  decidable_of_iff _ placed_iff.symm

def Covers (s t : Span) : Prop := s.start ≤ t.start ∧ t.stop ≤ s.stop

/-- The span that starts first does not start further to the right than the other one. -/
def Aligned (a b : Span) : Prop :=
  (a.start ≤ b.start → a.column ≤ b.column) ∧ (b.start ≤ a.start → b.column ≤ a.column)

instance (a b : Span) : Decidable (Aligned a b) := inferInstanceAs (Decidable (_ ∧ _))

theorem merge_comm (a b : Span) : a.merge b = b.merge a := by
  simp [merge, Nat.min_comm, Nat.max_comm]

theorem merge_assoc (a b c : Span) : (a.merge b).merge c = a.merge (b.merge c) := by
  simp [merge, Nat.min_assoc, Nat.max_assoc]

theorem merge_self (a : Span) : a.merge a = a := by
  simp [merge]

theorem merge_covers_left (a b : Span) : (a.merge b).Covers a :=
  ⟨Nat.min_le_left _ _, Nat.le_max_left _ _⟩

theorem merge_least {a b s : Span} (ha : s.Covers a) (hb : s.Covers b) : s.Covers (a.merge b) :=
  ⟨Nat.le_min.mpr ⟨ha.1, hb.1⟩, Nat.max_le.mpr ⟨ha.2, hb.2⟩⟩

theorem merge_start_of_le (h : a.start ≤ b.start) : (a.merge b).start = a.start :=
  Nat.min_eq_left h

section InOrder

variable (ha : a.Placed text) (hb : b.Placed text) (h : a.start ≤ b.start)

include ha hb h

theorem Placed.notAfter : a.location.NotAfter b.location := by
  rw [ha.located, hb.located]
  exact Location.ofOffset_notAfter text h

/-- Lines do not decrease, so the smaller line is that of the span that starts first. -/
theorem merge_line_of_le : (a.merge b).line = a.line :=
  Nat.min_eq_left (ha.notAfter hb h).line_le

theorem aligned_iff_of_le : Aligned a b ↔ a.column ≤ b.column := by
  refine ⟨fun hal => hal.1 h, fun hcol => ⟨fun _ => hcol, fun h' => ?_⟩⟩
  have hsame : a.location = b.location := by
    rw [ha.located, hb.located, Nat.le_antisymm h h']
  exact Nat.le_of_eq (congrArg Location.column hsame).symm

theorem merge_location_of_le :
    (a.merge b).location = .ofOffset text (a.merge b).start ↔ Aligned a b := by
  have hcolumn : (a.merge b).column = min a.column b.column := rfl
  rw [merge_start_of_le h, ← ha.located, aligned_iff_of_le ha hb h]
  simp only [location, Location.mk.injEq, merge_line_of_le ha hb h, hcolumn, true_and]
  omega

end InOrder

theorem Aligned.comm : Aligned a b ↔ Aligned b a := and_comm

theorem merge_location (ha : a.Placed text) (hb : b.Placed text) :
    (a.merge b).location = .ofOffset text (a.merge b).start ↔ Aligned a b := by
  obtain h | h := Nat.le_total a.start b.start
  · exact merge_location_of_le ha hb h
  · rw [merge_comm, Aligned.comm]
    exact merge_location_of_le hb ha h

theorem merge_line (ha : a.Placed text) (hb : b.Placed text) :
    (a.merge b).line = (Location.ofOffset text (a.merge b).start).line := by
  obtain h | h := Nat.le_total a.start b.start
  · rw [merge_line_of_le ha hb h, merge_start_of_le h, ← ha.located, location]
  · rw [merge_comm, merge_line_of_le hb ha h, merge_start_of_le h, ← hb.located, location]

theorem aligned_of_line (ha : a.Placed text) (hb : b.Placed text) (h : a.line = b.line) :
    Aligned a b := by
  have hcol {s t : Span} (hs : s.Placed text) (ht : t.Placed text) (hl : s.line = t.line)
      (hst : s.start ≤ t.start) : s.column ≤ t.column := by
    obtain hlt | ⟨-, hcol⟩ := hs.notAfter ht hst
    · exact absurd hl (Nat.ne_of_lt hlt)
    · exact hcol
  exact ⟨hcol ha hb h, hcol hb ha h.symm⟩

theorem merge_placed (ha : a.Placed text) (hb : b.Placed text) :
    (a.merge b).Placed text ↔ Aligned a b := by
  rw [placed_iff, merge_location ha hb]
  have hordered : (a.merge b).start ≤ (a.merge b).stop :=
    Nat.le_trans (Nat.min_le_left _ _) (Nat.le_trans ha.ordered (Nat.le_max_left _ _))
  have hinside : (a.merge b).stop ≤ text.utf8ByteSize := Nat.max_le.mpr ⟨ha.inside, hb.inside⟩
  exact ⟨fun h => h.2.2, fun h => ⟨hordered, hinside, h⟩⟩

structure Merges (text : String) (a b : Span) : Prop where
  covers : (a.merge b).Covers a ∧ (a.merge b).Covers b
  least : ∀ s : Span, s.Covers a → s.Covers b → s.Covers (a.merge b)
  line : (a.merge b).line = (Location.ofOffset text (a.merge b).start).line
  placed : (a.merge b).Placed text ↔ Aligned a b
  placed_of_line : a.line = b.line → (a.merge b).Placed text
  comm : a.merge b = b.merge a
  assoc : ∀ c : Span, (a.merge b).merge c = a.merge (b.merge c)
  self : a.merge a = a

/-- Merging gives the smallest range over both spans and the line of its start. It gives the column
of its start just where the spans are aligned, as spans on one line are. -/
theorem merge_consistent (ha : a.Placed text) (hb : b.Placed text) : Merges text a b where
  covers := ⟨merge_covers_left a b, merge_comm a b ▸ merge_covers_left b a⟩
  least _ hsa hsb := merge_least hsa hsb
  line := merge_line ha hb
  placed := merge_placed ha hb
  placed_of_line h := (merge_placed ha hb).mpr (aligned_of_line ha hb h)
  comm := merge_comm a b
  assoc := merge_assoc a b
  self := merge_self a

/-- Two names on two lines, the second one further to the left. -/
def indented : String := "  x\ny"

/-- The merged span of both names starts at the third character of the first line, and its column is
that of the second name. -/
theorem merge_misplaced : ∃ (text : String) (a b : Span), a.Placed text ∧ b.Placed text ∧
    a.merge b = ⟨2, 5, 1, 1⟩ ∧ Location.ofOffset text 2 = ⟨1, 3⟩ ∧ ¬(a.merge b).Placed text :=
  ⟨indented, ⟨2, 3, 1, 3⟩, ⟨4, 5, 2, 1⟩, by decide, by decide, rfl, by decide, by decide⟩

theorem indented_merge_consistent : (⟨2, 3, 1, 3⟩ : Span).Placed indented ∧
    (⟨4, 5, 2, 1⟩ : Span).Placed indented ∧ Merges indented ⟨2, 3, 1, 3⟩ ⟨4, 5, 2, 1⟩ :=
  have hx : (⟨2, 3, 1, 3⟩ : Span).Placed indented := by decide
  have hy : (⟨4, 5, 2, 1⟩ : Span).Placed indented := by decide
  ⟨hx, hy, merge_consistent hx hy⟩

end Span
end Cascade
