import Cascade.Proofs.Codegen.Grows

/-!
# Cascade.Proofs.Codegen.Expr

Code for a well-typed expression can always be made, and it is made by operations that make sense.

* `load_gives`, `step_gives`, `call_grows`: code for single operations.
* `Branched`, `right_branched`, `closeLogical_gives`: the blocks of a logical operator.
* `genExpr_grows`: code for any expression.
-/

namespace Cascade.Codegen

open Code
open Typed (placeTy?)

variable {g : Signature} {returns : Ty} {slots : List Ty} {d : Draft}

theorem constant_gives (hs : d.Sound g returns) (ho : d.Open) (v : Scalar) :
    Gives g returns d (d.b.constant v) v.ty :=
  write_gives hs ho rfl (.const (d.write_has hs _ _).1 rfl)

theorem zero_gives (hs : d.Sound g returns) (ho : d.Open) {ty : Ty} (hn : ty.isNumeric = true)
    (span : Span) : ∃ rb, zero d.b ty span = .ok rb ∧ Gives g returns d rb ty := by
  obtain ⟨v, hv⟩ := Scalar.zero?_isSome hn
  refine ⟨d.b.constant v, by simp only [zero, hv], ?_⟩
  rw [← Scalar.ty_zero? hv]
  exact constant_gives hs ho v

theorem load_gives (hs : d.Sound g returns) (ho : d.Open) (hk : d.Knows slots)
    {place : Typed.Place} {ty : Ty} (hp : placeTy? g slots place = some ty) :
    Gives g returns d (load d.b place ty) ty := by
  cases place with
  | slot n => exact write_gives hs ho rfl (.loadLocal (d.write_has hs _ _).1 (hk.local hp))
  | field f => exact write_gives hs ho rfl (.loadField (d.write_has hs _ _).1 hp)

theorem store_grows (ho : d.Open) (hk : d.Knows slots) {place : Typed.Place} {r : Register}
    (hr : d.Has g returns r) (hp : placeTy? g slots place = some r.ty) :
    ∃ d', store d.b place r = d'.b ∧ Grows g returns d d' := by
  cases place with
  | slot n =>
    exact ⟨d.emit (.storeLocal n r), rfl, grows_emit ho rfl (.storeLocal hr (hk.local hp))⟩
  | field f => exact ⟨d.emit (.storeField f r), rfl, grows_emit ho rfl (.storeField hr hp)⟩

theorem Draft.Has.write {r : Register} (h : d.Has g returns r) (ty : Ty) (i : Instr) :
    ((d.write ty i).scheme g returns).Has d.written r :=
  have hle : (d.scheme g returns).Le ((d.write ty i).scheme g returns) :=
    ⟨rfl, rfl, ⟨[], by simp [Draft.scheme, Draft.write, Builder.emit, Builder.newRegister]⟩,
      ⟨[ty], rfl⟩⟩
  h.imp_left hle.register

theorem convert_gives (hs : d.Sound g returns) (ho : d.Open) {r : Register} {ty : Ty}
    (hr : d.Has g returns r) (hn : ty.isNumeric = true) :
    Gives g returns d (convert d.b r ty) ty := by
  unfold convert
  split
  · rename_i heq; exact ⟨d, rfl, .refl ho, hr, heq⟩
  · exact write_gives hs ho rfl (.convert (d.write_has hs _ _).1 (hr.write ty _) hn)

theorem unary_gives (hs : d.Sound g returns) (ho : d.Open) {op : UnaryOp} {r : Register} {ty : Ty}
    (hr : d.Has g returns r) (hty : ty = Scalar.unaryTy op r.ty) :
    Gives g returns d
      (⟨d.b.registers, ty⟩, (d.b.newRegister ty).2.emit (.unary ⟨d.b.registers, ty⟩ op r)) ty :=
  write_gives hs ho rfl (.unary (d.write_has hs _ _).1 (hr.write ty _) hty)

theorem binary_gives (hs : d.Sound g returns) (ho : d.Open) (op : BinaryOp) (ty : Ty)
    {l r : Register} (hl : d.Has g returns l) (hr : d.Has g returns r) (hlr : l.ty = r.ty)
    (hty : ty = Scalar.binaryTy op l.ty) :
    Gives g returns d
      (⟨d.b.registers, ty⟩, (d.b.newRegister ty).2.emit (.binary ⟨d.b.registers, ty⟩ op l r))
      ty :=
  write_gives hs ho rfl
    (.binary (d.write_has hs _ _).1 (hl.write ty _) (hr.write ty _) hlr hty)

theorem step_gives (hs : d.Sound g returns) (ho : d.Open) (hk : d.Knows slots)
    {place : Typed.Place} {ty : Ty} (hp : placeTy? g slots place = some ty)
    (hi : ty.isIntegral = true) (delta : Int) (before : Bool) (span : Span) :
    ∃ rb, step d.b place delta before ty span = .ok rb ∧ Gives g returns d rb ty := by
  obtain ⟨v, hv⟩ := Scalar.ofInt?_isSome hi delta
  have hvty := Scalar.ty_ofInt? hv
  obtain ⟨d1, hb1, hg1, hold, holdty⟩ := load_gives hs ho hk hp
  have hs1 := hg1.makes.sound hs
  obtain ⟨d2, hb2, hg2, hamount, hamountty⟩ := constant_gives hs1 hg1.isOpen v
  have hs2 := hg2.makes.sound hs1
  obtain ⟨d3, hb3, hg3, hnew, hnewty⟩ := binary_gives hs2 hg2.isOpen .add ty
    (hold.mono hg2) hamount (holdty.trans (hamountty.trans hvty).symm) holdty.symm
  obtain ⟨d4, hb4, hg4⟩ := store_grows hg3.isOpen
    (((hk.mono hg1.makes).mono hg2.makes).mono hg3.makes) hnew
    (by rw [hnewty]; exact hp)
  have hg := ((hg1.trans hg2).trans hg3).trans hg4
  simp only [Builder.newRegister] at hb3 hb4 hnew
  simp only [step, hv, hb1, hb2, Builder.newRegister, hb3, hb4]
  refine ⟨_, rfl, d4, rfl, hg, ?_⟩
  cases before with
  | true => exact ⟨hnew.mono hg4, rfl⟩
  | false => exact ⟨((hold.mono hg2).mono hg3).mono hg4, holdty⟩

/-- What an expression of a type leaves: a register of the type, or nothing if it is `void`. -/
def CallResult (g : Signature) (returns : Ty) (d : Draft) (ty : Ty) : Option Register → Prop
  | none => ty = .void
  | some r => d.Has g returns r ∧ r.ty = ty

theorem call_grows (hs : d.Sound g returns) (ho : d.Open) {p : Typed.Program}
    (hp : p.signature = g) {m : MethodId} {ty : Ty} (hm : g.methods[m]? = some ty) :
    ∃ r d', call p d.b m = .ok (r, d'.b) ∧ Grows g returns d d' ∧
      CallResult g returns d' ty r := by
  subst hp
  obtain ⟨callee, hcallee, rfl⟩ : ∃ callee, p.methods[m]? = some callee ∧ callee.returns = ty := by
    simpa [Typed.Program.signature] using hm
  simp only [call, hcallee]
  split
  · rename_i hv
    have hv := Ty.isVoid_iff.mp hv
    exact ⟨none, d.emit (.call none m), rfl, grows_emit ho rfl (.callVoid (hv ▸ hm)), hv⟩
  · rename_i hv
    have hv : callee.returns ≠ .void := fun h => hv (Ty.isVoid_iff.mpr h)
    let i : Instr := .call (some ⟨d.b.registers, callee.returns⟩) m
    exact ⟨some _, d.write callee.returns i, rfl,
      grows_write ho rfl (.callValue (d.write_has hs _ i).1 hm hv), d.write_has hs _ i, rfl⟩

/-! ## Ways between blocks -/

theorem mem_close_ways {t : Terminator} {k : Nat} {u : List Nat} :
    (k, u) ∈ (d.close t).ways ↔
      d.b.current ∈ d.live ∧ k ∈ t.targets ∧ u = d.written ∨ (k, u) ∈ d.ways := by
  unfold Draft.close
  dsimp only
  split
  · rename_i hlive
    simp only [List.mem_append, List.mem_map, Prod.mk.injEq, hlive, true_and]
    refine or_congr_left ⟨?_, ?_⟩
    · rintro ⟨k', hk', rfl, rfl⟩
      exact ⟨hk', rfl⟩
    · rintro ⟨hk, rfl⟩
      exact ⟨k, hk, rfl, rfl⟩
  · rename_i hlive
    exact ⟨.inr, fun h => h.resolve_left fun h => hlive h.1⟩

/-- A block that is entered is live exactly if there is a way to it. -/
theorem goto_live (hs : d.Sound g returns) {k : Nat} {w : List Nat} (hk : k ∉ d.entered) :
    (d.goto k w).b.current ∈ (d.goto k w).live ↔ ∃ u, (k, u) ∈ d.ways := by
  have hdead : k ∉ d.live := fun h => hk (hs.live k h)
  unfold Draft.goto
  dsimp only [Builder.goto]
  split
  · rename_i h
    obtain ⟨⟨_, u⟩, hu, rfl⟩ := List.mem_map.mp h
    exact ⟨fun _ => ⟨u, hu⟩, fun _ => List.mem_cons_self⟩
  · rename_i h
    exact ⟨fun hl => absurd hl hdead, fun ⟨u, hu⟩ => absurd (List.mem_map_of_mem hu) h⟩

theorem Draft.Sound.noWay (hs : d.Sound g returns) {k : Nat} (hk : d.b.blocks.length ≤ k)
    (u : List Nat) : (k, u) ∉ d.ways :=
  fun h => absurd (hs.ways h) (Nat.not_lt_of_le hk)

theorem Draft.Sound.notEntered (hs : d.Sound g returns) {k : Nat} (hk : d.b.blocks.length ≤ k) :
    k ∉ d.entered :=
  fun h => absurd (hs.entered k h) (Nat.not_lt_of_le hk)

theorem Draft.Open.newBlock (ho : d.Open) (label : String) : (d.newBlock label).Open := by
  refine ⟨Nat.lt_of_lt_of_eq (Nat.lt_succ_of_lt ho.1) (Builder.newBlock_length _ _).symm, ?_⟩
  have hblk : (d.newBlock label).b.blocks[d.b.current]? = d.b.blocks[d.b.current]? :=
    List.getElem?_append_left ho.1
  have := ho.2
  unfold Builder.isClosed at this ⊢
  rw [show (d.newBlock label).b.current = d.b.current from rfl, hblk]
  exact this

theorem Draft.Open.close (ho : d.Open) {t : Terminator} (ht : t.isClosed = true) :
    (d.close t).b.isClosed = true :=
  Builder.isClosed_close ho.1 ht

theorem Draft.Sound.goto_open (hs : d.Sound g returns) {k : Nat}
    (hk : k < d.b.blocks.length) (hfresh : k ∉ d.entered) (w : List Nat) : (d.goto k w).Open := by
  refine ⟨hk, ?_⟩
  have hblk := List.getElem?_eq_getElem hk
  rw [Builder.isClosed_eq (b := (d.goto k w).b) hblk]
  unfold Block.isClosed
  rw [(hs.fresh hblk hfresh).2]
  rfl

/-- The draft in which a logical operator has branched and the block of its right operand is to be
filled; the block where both ways meet is still to be entered. -/
structure Branched (g : Signature) (returns : Ty) (d d' : Draft) : Prop where
  makes : Makes g returns d d'
  isOpen : d'.Open
  written : d'.written = d.written
  length : d'.b.blocks.length = d.b.blocks.length + 3
  entered : ∀ k, k ∈ d'.entered ↔
    k = d.b.blocks.length ∨ k = d.b.blocks.length + 1 ∨ k ∈ d.entered
  live : d'.b.current ∈ d'.live ↔ d.b.current ∈ d.live
  ways : ∀ k u, k < d.b.blocks.length → (k, u) ∈ d'.ways → (k, u) ∈ d.ways
  merge : ∀ u, (d.b.blocks.length + 2, u) ∈ d'.ways → d.written ⊆ u ∧ d.b.current ∈ d.live

def branchOf (op : LogicalOp) (left : Register) (right decided : Nat) : Terminator :=
  match op with
  | .and => .branch left right decided
  | .or => .branch left decided right

theorem mem_branchOf {op : LogicalOp} {left : Register} {right decided k : Nat} :
    k ∈ (branchOf op left right decided).targets ↔ k = right ∨ k = decided := by
  cases op <;> simp [branchOf, Terminator.targets, or_comm]

namespace Draft

/-- The three blocks of a logical operator are made. -/
def withBlocks (d : Draft) : Draft :=
  ((d.newBlock "logical.rhs").newBlock "logical.short").newBlock "logical.merge"

def branch (d : Draft) (op : LogicalOp) (left : Register) : Draft :=
  d.withBlocks.close (branchOf op left d.b.blocks.length (d.b.blocks.length + 1))

/-- Its code goes on where the left operand decides. -/
def short (d : Draft) (op : LogicalOp) (left : Register) : Draft :=
  (d.branch op left).goto (d.b.blocks.length + 1) d.written

def truth (d : Draft) (op : LogicalOp) (left : Register) : Draft :=
  (d.short op left).write .truth
    (.const ⟨(d.short op left).b.registers, .truth⟩ (.ofBool (op == .or)))

def decided (d : Draft) (op : LogicalOp) (result : LocalIndex) (left : Register) : Draft :=
  (d.truth op left).emit (.storeLocal result ⟨(d.short op left).b.registers, .truth⟩)

def skipped (d : Draft) (op : LogicalOp) (result : LocalIndex) (left : Register) : Draft :=
  (d.decided op result left).close (.jump (d.b.blocks.length + 2))

/-- The code goes on with the right operand. -/
def right (d : Draft) (op : LogicalOp) (result : LocalIndex) (left : Register) : Draft :=
  (d.skipped op result left).goto d.b.blocks.length d.written

end Draft

theorem openLogical_eq (d : Draft) (op : LogicalOp) (result : LocalIndex) (left : Register) :
    openLogical d.b op result left =
      (d.b.blocks.length + 2, (d.right op result left).b) := by
  cases op <;> simp [openLogical, Builder.newBlock, Builder.constant, Builder.newRegister,
    Builder.goto, Draft.newBlock, Draft.close, Draft.goto, Draft.write, Draft.emit, branchOf,
    Draft.withBlocks, Draft.branch, Draft.short, Draft.truth, Draft.decided, Draft.skipped,
    Draft.right, Scalar.ofBool, Scalar.ty, Ty.truth]

section

variable {op : LogicalOp} {result : LocalIndex} {left : Register}

theorem withBlocks_makes (d : Draft) : Makes g returns d d.withBlocks :=
  ((Op.newBlock.makes).step .newBlock).step .newBlock

theorem withBlocks_length (d : Draft) :
    d.withBlocks.b.blocks.length = d.b.blocks.length + 3 := by
  simp [Draft.withBlocks, Draft.newBlock]

theorem branch_length (d : Draft) (op : LogicalOp) (left : Register) :
    (d.branch op left).b.blocks.length = d.b.blocks.length + 3 :=
  (Builder.close_length _ _).trans (withBlocks_length d)

theorem branch_open (ho : d.Open) : d.withBlocks.Open :=
  ((ho.newBlock _).newBlock _).newBlock _

theorem branch_op (hs : d.Sound g returns) (ho : d.Open) (hl : d.Has g returns left) :
    Op g returns d.withBlocks (d.branch op left) := by
  refine .close (branch_open ho) ?_ fun k hk => ?_
  · have hl : d.withBlocks.Has g returns left :=
      Scheme.Has.mono hl (withBlocks_makes d).scheme (List.Subset.refl d.written)
    cases op
    · exact .branch hl
    · exact .branch hl
  · rw [mem_branchOf] at hk
    have hlen := withBlocks_length d
    exact ⟨by omega, hs.notEntered (by omega)⟩

theorem branch_sound (hs : d.Sound g returns) (ho : d.Open) (hl : d.Has g returns left) :
    (d.branch op left).Sound g returns :=
  (branch_op hs ho hl).sound ((withBlocks_makes d).sound hs)

theorem mem_branch_ways {k : Nat} {u : List Nat} : (k, u) ∈ (d.branch op left).ways ↔
    d.b.current ∈ d.live ∧ (k = d.b.blocks.length ∨ k = d.b.blocks.length + 1) ∧ u = d.written ∨
      (k, u) ∈ d.ways := by
  rw [Draft.branch, mem_close_ways, mem_branchOf]
  rfl

/-- The only way to a block that was made for a logical operator comes from its branch. -/
theorem branch_way (hs : d.Sound g returns) {k : Nat} {u : List Nat} (hk : d.b.blocks.length ≤ k)
    (hu : (k, u) ∈ (d.branch op left).ways) :
    d.b.current ∈ d.live ∧ (k = d.b.blocks.length ∨ k = d.b.blocks.length + 1) ∧
      u = d.written := by
  obtain h | hu := mem_branch_ways.mp hu
  · exact h
  · exact absurd hu (hs.noWay hk u)

theorem short_fresh (hs : d.Sound g returns) :
    d.b.blocks.length + 1 ∉ (d.branch op left).entered :=
  hs.notEntered (Nat.le_succ _)

theorem short_op (hs : d.Sound g returns) (ho : d.Open) :
    Op g returns (d.branch op left) (d.short op left) := by
  have hlen := branch_length d op left
  refine .goto ((branch_open ho).close ?_) (by omega) (short_fresh hs) fun u hu => ?_
  · cases op
    · rfl
    · rfl
  · obtain ⟨-, -, rfl⟩ := branch_way hs (Nat.le_succ _) hu
    exact List.Subset.refl _

theorem short_open (hs : d.Sound g returns) (ho : d.Open) (hl : d.Has g returns left) :
    (d.short op left).Open :=
  (branch_sound hs ho hl).goto_open (by have := branch_length d op left; omega) (short_fresh hs) _

theorem short_live (hs : d.Sound g returns) (ho : d.Open) (hl : d.Has g returns left) :
    (d.short op left).b.current ∈ (d.short op left).live ↔ d.b.current ∈ d.live := by
  rw [Draft.short, goto_live (branch_sound hs ho hl) (short_fresh hs)]
  constructor
  · intro ⟨u, hu⟩
    exact (branch_way hs (Nat.le_succ _) hu).1
  · intro h
    exact ⟨d.written, mem_branch_ways.mpr (.inl ⟨h, .inr rfl, rfl⟩)⟩

theorem short_makes (op : LogicalOp) (hs : d.Sound g returns) (ho : d.Open)
    (hl : d.Has g returns left) :
    Makes g returns d (d.short op left) :=
  ((withBlocks_makes d).step (branch_op hs ho hl)).step (short_op hs ho)

theorem truth_grows (op : LogicalOp) (hs : d.Sound g returns) (ho : d.Open)
    (hl : d.Has g returns left) :
    Grows g returns (d.short op left) (d.truth op left) :=
  grows_write (short_open hs ho hl) rfl
    (.const (Draft.write_has ((short_makes op hs ho hl).sound hs) _ _).1 rfl)

theorem decided_grows (hs : d.Sound g returns) (ho : d.Open) (hl : d.Has g returns left)
    (hresult : (d.scheme g returns).locals[result]? = some .truth) :
    Grows g returns (d.truth op left) (d.decided op result left) := by
  have hg := truth_grows op hs ho hl
  have hm := (short_makes op hs ho hl).trans hg.makes
  exact grows_emit hg.isOpen rfl
    (.storeLocal (Draft.write_has ((short_makes op hs ho hl).sound hs) _ _)
      (hm.scheme.local hresult))

/-- What there is before control is sent on from where the left operand decides. -/
theorem decided_makes (hs : d.Sound g returns) (ho : d.Open) (hl : d.Has g returns left)
    (hresult : (d.scheme g returns).locals[result]? = some .truth) :
    Makes g returns d (d.decided op result left) :=
  ((short_makes op hs ho hl).trans (truth_grows op hs ho hl).makes).trans
    (decided_grows hs ho hl hresult).makes

theorem decided_length (d : Draft) (op : LogicalOp) (result : LocalIndex) (left : Register) :
    (d.decided op result left).b.blocks.length = d.b.blocks.length + 3 :=
  (Builder.emit_length _ _).trans ((Builder.emit_length _ _).trans (branch_length d op left))

theorem skipped_length (d : Draft) (op : LogicalOp) (result : LocalIndex) (left : Register) :
    (d.skipped op result left).b.blocks.length = d.b.blocks.length + 3 :=
  (Builder.close_length _ _).trans (decided_length d op result left)

theorem mem_skipped_entered {k : Nat} : k ∈ (d.skipped op result left).entered ↔
    k = d.b.blocks.length + 1 ∨ k ∈ d.entered :=
  List.mem_cons

theorem skipped_op (hs : d.Sound g returns) (ho : d.Open) (hl : d.Has g returns left)
    (hresult : (d.scheme g returns).locals[result]? = some .truth) :
    Op g returns (d.decided op result left) (d.skipped op result left) := by
  have hfresh : d.b.blocks.length + 2 ∉ (d.decided op result left).entered := by
    intro he
    obtain he | he := List.mem_cons.mp he
    · omega
    · exact hs.notEntered (by omega) he
  have hlen := decided_length d op result left
  refine .close (decided_grows hs ho hl hresult).isOpen .jump ?_
  intro k hk
  obtain rfl := List.mem_singleton.mp hk
  exact ⟨by omega, hfresh⟩

theorem skipped_sound (hs : d.Sound g returns) (ho : d.Open) (hl : d.Has g returns left)
    (hresult : (d.scheme g returns).locals[result]? = some .truth) :
    (d.skipped op result left).Sound g returns :=
  (skipped_op hs ho hl hresult).sound ((decided_makes hs ho hl hresult).sound hs)

theorem mem_skipped_ways (hs : d.Sound g returns) (ho : d.Open) (hl : d.Has g returns left)
    (hresult : (d.scheme g returns).locals[result]? = some .truth) {k : Nat} {u : List Nat} :
    (k, u) ∈ (d.skipped op result left).ways ↔
      d.b.current ∈ d.live ∧ k = d.b.blocks.length + 2 ∧ u = (d.decided op result left).written ∨
        (k, u) ∈ (d.branch op left).ways := by
  have hlive := ((truth_grows op hs ho hl).trans (decided_grows hs ho hl hresult)).live
  rw [Draft.skipped, mem_close_ways, hlive, short_live hs ho hl]
  simp only [Terminator.targets, List.mem_singleton]
  rfl

theorem right_fresh (hs : d.Sound g returns) :
    d.b.blocks.length ∉ (d.skipped op result left).entered := by
  intro he
  obtain he | he := mem_skipped_entered.mp he
  · omega
  · exact hs.notEntered (Nat.le_refl _) he

theorem right_way (hs : d.Sound g returns) (ho : d.Open) (hl : d.Has g returns left)
    (hresult : (d.scheme g returns).locals[result]? = some .truth) {u : List Nat} :
    (d.b.blocks.length, u) ∈ (d.skipped op result left).ways ↔
      d.b.current ∈ d.live ∧ u = d.written := by
  rw [mem_skipped_ways hs ho hl hresult, mem_branch_ways]
  constructor
  · rintro (⟨-, he, -⟩ | ⟨hlive, -, rfl⟩ | hu)
    · omega
    · exact ⟨hlive, rfl⟩
    · exact absurd hu (hs.noWay (Nat.le_refl _) u)
  · intro ⟨hlive, hu⟩
    exact .inr (.inl ⟨hlive, .inl rfl, hu⟩)

theorem right_op (hs : d.Sound g returns) (ho : d.Open) (hl : d.Has g returns left)
    (hresult : (d.scheme g returns).locals[result]? = some .truth) :
    Op g returns (d.skipped op result left) (d.right op result left) := by
  have hlen := skipped_length d op result left
  refine .goto ((decided_grows hs ho hl hresult).isOpen.close rfl) (by omega) (right_fresh hs)
    fun u hu => ?_
  obtain ⟨-, rfl⟩ := (right_way hs ho hl hresult).mp hu
  exact List.Subset.refl _

theorem right_makes (hs : d.Sound g returns) (ho : d.Open) (hl : d.Has g returns left)
    (hresult : (d.scheme g returns).locals[result]? = some .truth) :
    Makes g returns d (d.right op result left) :=
  ((decided_makes hs ho hl hresult).step (skipped_op hs ho hl hresult)).step
    (right_op hs ho hl hresult)

theorem right_branched (op : LogicalOp) (hs : d.Sound g returns) (ho : d.Open)
    (hl : d.Has g returns left) (hresult : (d.scheme g returns).locals[result]? = some .truth) :
    Branched g returns d (d.right op result left) where
  makes := right_makes hs ho hl hresult
  isOpen := (skipped_sound hs ho hl hresult).goto_open
    (by have := skipped_length d op result left; omega) (right_fresh hs) _
  written := rfl
  length := skipped_length d op result left
  entered := fun k => List.mem_cons.trans (or_congr_right mem_skipped_entered)
  live := by
    rw [Draft.right, goto_live (skipped_sound hs ho hl hresult) (right_fresh hs)]
    simp only [right_way hs ho hl hresult]
    exact ⟨fun ⟨_, h, _⟩ => h, fun h => ⟨_, h, rfl⟩⟩
  ways := fun k u hk hu => by
    rw [show (d.right op result left).ways = (d.skipped op result left).ways from rfl,
      mem_skipped_ways hs ho hl hresult, mem_branch_ways] at hu
    obtain ⟨-, he, -⟩ | ⟨-, he, -⟩ | hu := hu
    · omega
    · omega
    · exact hu
  merge := fun u hu => by
    rw [show (d.right op result left).ways = (d.skipped op result left).ways from rfl,
      mem_skipped_ways hs ho hl hresult, mem_branch_ways] at hu
    obtain ⟨hlive, -, rfl⟩ | ⟨-, he, -⟩ | hu := hu
    · exact ⟨List.subset_cons_self _ _, hlive⟩
    · omega
    · exact absurd hu (hs.noWay (by omega) u)

end

namespace Draft

/-- Behind the right operand of a logical operator there is the zero of its type. -/
def zeroed (d : Draft) (z : Scalar) : Draft := d.write z.ty (.const ⟨d.b.registers, z.ty⟩ z)

def compared (d : Draft) (z : Scalar) (right : Register) : Draft :=
  (d.zeroed z).write .truth
    (.binary ⟨(d.zeroed z).b.registers, .truth⟩ .ne right ⟨d.b.registers, z.ty⟩)

def noted (d : Draft) (z : Scalar) (right : Register) (result : LocalIndex) : Draft :=
  (d.compared z right).emit (.storeLocal result ⟨(d.zeroed z).b.registers, .truth⟩)

/-- Control is sent on to block `k`, where both ways meet. -/
def joined (d : Draft) (z : Scalar) (right : Register) (result : LocalIndex) (k : Nat) : Draft :=
  (d.noted z right result).close (.jump k)

def met (d : Draft) (z : Scalar) (right : Register) (result : LocalIndex) (k : Nat)
    (w : List Nat) : Draft :=
  (d.joined z right result k).goto k w

def fetched (d : Draft) (z : Scalar) (right : Register) (result : LocalIndex) (k : Nat)
    (w : List Nat) : Draft :=
  (d.met z right result k w).write .truth
    (.loadLocal ⟨(d.met z right result k w).b.registers, .truth⟩ result)

end Draft

theorem closeLogical_eq (d : Draft) {z : Scalar} {right : Register}
    (hz : Scalar.zero? right.ty = some z) (merge : BlockId) (result : LocalIndex)
    (w : List Nat) (span : Span) : closeLogical d.b merge result right span =
      .ok (⟨(d.met z right result merge w).b.registers, .truth⟩,
        (d.fetched z right result merge w).b) := by
  rw [closeLogical, zero, hz]
  rfl

section

variable {d' d'' : Draft} {z : Scalar} {right : Register} {result : LocalIndex}

/-- The block where both ways of a logical operator meet is not entered with the right operand. -/
theorem merge_fresh (hs : d.Sound g returns) (hb : Branched g returns d d')
    (hg : Grows g returns d' d'') : d.b.blocks.length + 2 ∉ d''.entered := by
  intro he
  have hlen := hb.length
  have he := (hb.entered _).mp (hg.entered _ (by omega) he)
  obtain he | he | he := he
  · omega
  · omega
  · exact hs.notEntered (by omega) he

theorem noted_grows (hs : d.Sound g returns) (ho : d.Open) (hr : d.Has g returns right)
    (hz : z.ty = right.ty) (hresult : (d.scheme g returns).locals[result]? = some .truth) :
    Grows g returns d (d.noted z right result) := by
  have hg1 : Grows g returns d (d.zeroed z) :=
    grows_write ho rfl (.const (d.write_has hs _ _).1 rfl)
  have hs1 := hg1.makes.sound hs
  have hhas : (d.zeroed z).Has g returns ⟨d.b.registers, z.ty⟩ := d.write_has hs _ _
  have hg2 : Grows g returns (d.zeroed z) (d.compared z right) :=
    grows_write hg1.isOpen rfl (.binary ((d.zeroed z).write_has hs1 _ _).1
      ((hr.mono hg1).write .truth _) (hhas.write .truth _) hz.symm rfl)
  have hg3 : Grows g returns (d.compared z right) (d.noted z right result) :=
    grows_emit hg2.isOpen rfl (.storeLocal ((d.zeroed z).write_has hs1 _ _)
      ((hg1.trans hg2).makes.scheme.local hresult))
  exact (hg1.trans hg2).trans hg3

theorem joined_op (hs : d.Sound g returns) (hb : Branched g returns d d')
    (hg : Grows g returns d' (d''.noted z right result)) :
    Op g returns (d''.noted z right result)
      (d''.joined z right result (d.b.blocks.length + 2)) := by
  refine .close hg.isOpen .jump ?_
  intro k hk
  obtain rfl := List.mem_singleton.mp hk
  have hlen := hb.length
  have hle := hg.length
  exact ⟨by omega, merge_fresh hs hb hg⟩

/-- All ways to where both ways meet come from in front of the operator. -/
theorem joined_way (hb : Branched g returns d d')
    (hg : Grows g returns d' (d''.noted z right result)) {u : List Nat}
    (hu : (d.b.blocks.length + 2, u) ∈
      (d''.joined z right result (d.b.blocks.length + 2)).ways) :
    d.written ⊆ u ∧ d.b.current ∈ d.live := by
  have hlen := hb.length
  obtain ⟨hlive, -, rfl⟩ | hu := mem_close_ways.mp hu
  · exact ⟨hb.written ▸ hg.written, hb.live.mp (hg.live.mp hlive)⟩
  · exact hb.merge u (hg.ways _ _ (by omega) hu)

theorem met_op (hs : d.Sound g returns) (hb : Branched g returns d d')
    (hg : Grows g returns d' (d''.noted z right result)) :
    Op g returns (d''.joined z right result (d.b.blocks.length + 2))
      (d''.met z right result (d.b.blocks.length + 2) d.written) := by
  have hlen := hb.length
  have hle := hg.length
  have hclose : (d''.joined z right result (d.b.blocks.length + 2)).b.blocks.length =
    (d''.noted z right result).b.blocks.length := Builder.close_length _ _
  have hfresh := merge_fresh hs hb hg
  exact .goto (hg.isOpen.close rfl) (by omega) hfresh fun u hu => (joined_way hb hg hu).1

theorem met_grows (hs : d.Sound g returns) (hb : Branched g returns d d')
    (hg : Grows g returns d' (d''.noted z right result)) :
    Grows g returns d (d''.met z right result (d.b.blocks.length + 2) d.written) := by
  have hlen := hb.length
  have hle := hg.length
  have hclose : (d''.joined z right result (d.b.blocks.length + 2)).b.blocks.length =
    (d''.noted z right result).b.blocks.length := Builder.close_length _ _
  have hjoined := joined_op hs hb hg
  have hsj := hjoined.sound (hg.makes.sound (hb.makes.sound hs))
  have hfresh := merge_fresh hs hb hg
  refine ⟨⟨((hb.makes.trans hg.makes).step hjoined).step (met_op hs hb hg), ?_, ?_⟩,
    hsj.goto_open (by omega) hfresh _, ?_, List.Subset.refl _, ?_⟩
  · intro k hk he
    obtain he | he := List.mem_cons.mp he
    · omega
    · obtain he | he | he := (hb.entered k).mp (hg.entered k (by omega) he)
      · omega
      · omega
      · exact he
  · intro k hk hk'
    have hk' : k < (d''.noted z right result).b.blocks.length := hclose ▸ hk'
    by_cases h2 : k = d.b.blocks.length + 2
    · exact h2 ▸ List.mem_cons_self
    · refine List.mem_cons_of_mem _ ?_
      by_cases h3 : k < d'.b.blocks.length
      · exact hg.makes.entered ((hb.entered k).mpr (by omega))
      · exact hg.complete k (by omega) hk'
  · rw [Draft.met, goto_live hsj hfresh]
    constructor
    · intro ⟨u, hu⟩
      exact (joined_way hb hg hu).2
    · intro h
      exact ⟨_, mem_close_ways.mpr
        (.inl ⟨hg.live.mpr (hb.live.mpr h), List.mem_singleton.mpr rfl, rfl⟩)⟩
  · intro k u hk hu
    obtain ⟨-, he, -⟩ | hu := mem_close_ways.mp hu
    · have he := List.mem_singleton.mp he
      omega
    · exact hb.ways k u hk (hg.ways k u (by omega) hu)

/-- Behind the right operand, both ways of a logical operator meet. -/
theorem closeLogical_gives (hs : d.Sound g returns) (hb : Branched g returns d d')
    (hg : Grows g returns d' d'') (hr : d''.Has g returns right)
    (hn : right.ty.isNumeric = true)
    (hresult : (d.scheme g returns).locals[result]? = some .truth) (span : Span) :
    ∃ rb, closeLogical d''.b (d.b.blocks.length + 2) result right span = .ok rb ∧
      Gives g returns d rb .truth := by
  obtain ⟨z, hz⟩ := Scalar.zero?_isSome hn
  have hs'' := hg.makes.sound (hb.makes.sound hs)
  have hnoted := hg.trans (noted_grows hs'' hg.isOpen hr (Scalar.ty_zero? hz)
    ((hb.makes.trans hg.makes).scheme.local hresult))
  have hmet := met_grows hs hb hnoted
  refine ⟨_, closeLogical_eq d'' hz _ result d.written span, .after hmet ?_⟩
  have hsm := hmet.makes.sound hs
  exact write_gives hsm hmet.isOpen rfl
    (.loadLocal (Draft.write_has hsm _ _).1 (hmet.makes.scheme.local hresult))

end

/-! ## Expressions -/

theorem genValue_some {p : Typed.Program} {b : Builder} {e : Typed.Expr} {r : Register}
    {b' : Builder} (h : genValue p b e = .ok (r, b')) : genExpr p b e = .ok (some r, b') := by
  unfold genValue needValue at h
  split at h
  · cases h
  · cases h
  · rename_i heq
    cases h
    exact heq

theorem genValue_gives {p : Typed.Program} {e : Typed.Expr} (hn : e.ty.isNumeric = true)
    (h : ∃ r d', genExpr p d.b e = .ok (r, d'.b) ∧ Grows g returns d d' ∧
      CallResult g returns d' e.ty r) :
    ∃ r d', genValue p d.b e = .ok (r, d'.b) ∧ Grows g returns d d' ∧
      d'.Has g returns r ∧ r.ty = e.ty := by
  obtain ⟨r, d', hr, hg, hy⟩ := h
  cases r with
  | none => rw [show e.ty = .void from hy] at hn; cases hn
  | some r => exact ⟨r, d', by simp only [genValue, needValue, hr], hg, hy⟩

theorem Gives.grows {d' : Draft} {rb : Register × Builder} {ty : Ty}
    (hg : Grows g returns d d') (h : Gives g returns d' rb ty) :
    ∃ r d'', valued rb = (r, d''.b) ∧ Grows g returns d d'' ∧ CallResult g returns d'' ty r := by
  obtain ⟨d'', hb, hg', hr, hty⟩ := h
  exact ⟨some rb.1, d'', by rw [valued, hb], hg.trans hg', hr, hty⟩

theorem genExpr_grows {p : Typed.Program} (hp : p.signature = g) {e : Typed.Expr}
    (he : e.WellTyped g slots) : ∀ {d : Draft}, d.Sound g returns → d.Open → d.Knows slots →
    ∃ r d', genExpr p d.b e = .ok (r, d'.b) ∧ Grows g returns d d' ∧
      CallResult g returns d' e.ty r := by
  induction he with
  | @const v span =>
    intro d hs ho _
    obtain ⟨r, d', hv, h⟩ := (constant_gives hs ho v).grows (.refl ho)
    exact ⟨r, d', by rw [genExpr, hv], h⟩
  | @load place ty span hplace =>
    intro d hs ho hk
    obtain ⟨r, d', hv, h⟩ := (load_gives hs ho hk hplace).grows (.refl ho)
    exact ⟨r, d', by rw [genExpr, hv], h⟩
  | @convert e ty span _ hc ih =>
    intro d hs ho hk
    obtain ⟨r, d1, hr, hg, hhas, -⟩ := genValue_gives hc.isNumeric.1 (ih hs ho hk)
    obtain ⟨r', d', hv, h⟩ :=
      (convert_gives (hg.makes.sound hs) hg.isOpen hhas hc.isNumeric.2).grows hg
    exact ⟨r', d', by simp only [genExpr, show needValue e.span (genExpr p d.b e) = _ from hr, hv],
      h⟩
  | @unary op e span _ hn ih =>
    intro d hs ho hk
    obtain ⟨r, d1, hr, hg, hhas, hty⟩ := genValue_gives hn (ih hs ho hk)
    obtain ⟨r', d', hv, h⟩ := (unary_gives (hg.makes.sound hs) hg.isOpen hhas
      (show Scalar.unaryTy op e.ty = _ by rw [hty])).grows hg
    refine ⟨r', d', ?_, h⟩
    simp only [genExpr, show needValue e.span (genExpr p d.b e) = _ from hr, ← hv]
    rfl
  | @binary op l r span _ _ hlr hn ihl ihr =>
    intro d hs ho hk
    obtain ⟨rl, d1, hl, hg1, hhasl, htyl⟩ := genValue_gives hn (ihl hs ho hk)
    have hs1 := hg1.makes.sound hs
    obtain ⟨rr, d2, hr, hg2, hhasr, htyr⟩ :=
      genValue_gives (hlr ▸ hn) (ihr hs1 hg1.isOpen (hk.mono hg1.makes))
    have hgives := binary_gives (hg2.makes.sound hs1) hg2.isOpen op _ (hhasl.mono hg2) hhasr
      (htyl.trans (hlr.trans htyr.symm)) (show Scalar.binaryTy op l.ty = _ by rw [htyl])
    obtain ⟨r', d', hv, h⟩ := hgives.grows (hg1.trans hg2)
    refine ⟨r', d', ?_, h⟩
    simp only [genExpr, show needValue l.span (genExpr p d.b l) = _ from hl,
      show needValue r.span (genExpr p d1.b r) = _ from hr, ← hv]
    rfl
  | @logical op l r span _ _ hnl hnr ihl ihr =>
    intro d hs ho hk
    -- the local variable where both ways meet
    have hg0 : Grows g returns d (d.newLocal .truth) := grows_newLocal ho rfl
    have hs0 := hg0.makes.sound hs
    have hresult : ((d.newLocal .truth).scheme g returns).locals[d.b.locals.length]? =
        some .truth := by
      simp [Draft.scheme, Draft.newLocal, Builder.newLocal]
    obtain ⟨rl, d1, hl, hg1, hhasl, -⟩ :=
      genValue_gives hnl (ihl hs0 hg0.isOpen (hk.mono hg0.makes))
    have hs1 := hg1.makes.sound hs0
    have hresult1 := hg1.makes.scheme.local hresult
    have hb := right_branched op hs1 hg1.isOpen hhasl hresult1
    have hs2 := hb.makes.sound hs1
    obtain ⟨rr, d3, hr, hg3, hhasr, htyr⟩ := genValue_gives hnr
      (ihr hs2 hb.isOpen (((hk.mono hg0.makes).mono hg1.makes).mono hb.makes))
    obtain ⟨rb, hclose, hgives⟩ := closeLogical_gives hs1 hb hg3 hhasr (htyr ▸ hnr) hresult1 r.span
    obtain ⟨r', d', hv, h⟩ := hgives.grows (hg0.trans hg1)
    refine ⟨r', d', ?_, h⟩
    simp only [genExpr, show needValue l.span (genExpr p (d.b.newLocal .truth).2 l) = _ from hl,
      show (d.b.newLocal .truth).1 = d.b.locals.length from rfl, openLogical_eq,
      show needValue r.span (genExpr p (d1.right op d.b.locals.length rl).b r) = _ from hr, hclose,
      hv]
  | @update place delta before ty span hplace hi =>
    intro d hs ho hk
    obtain ⟨rb, hstep, hgives⟩ := step_gives hs ho hk hplace hi delta before span
    obtain ⟨r, d', hv, h⟩ := hgives.grows (.refl ho)
    exact ⟨r, d', by simp only [genExpr, hstep, hv], h⟩
  | @assign place e span hplace _ hn ih =>
    intro d hs ho hk
    obtain ⟨r, d1, hr, hg, hhas, hty⟩ := genValue_gives hn (ih hs ho hk)
    obtain ⟨d2, hstore, hg2⟩ := store_grows hg.isOpen (hk.mono hg.makes) hhas
      (hty.symm ▸ hplace)
    exact ⟨some r, d2,
      by simp only [genExpr, show needValue e.span (genExpr p d.b e) = _ from hr, hstore],
      hg.trans hg2, hhas.mono hg2, hty⟩
  | @call m ty span hm =>
    intro d hs ho _
    obtain ⟨r, d', hc, h⟩ := call_grows hs ho hp hm
    exact ⟨r, d', by rw [genExpr, hc], h⟩
  | @print e span _ hn ih =>
    intro d hs ho hk
    obtain ⟨r, d1, hr, hg, hhas, -⟩ := genValue_gives hn (ih hs ho hk)
    exact ⟨none, d1.emit (.print (some r)),
      by simp only [genExpr, show needValue e.span (genExpr p d.b e) = _ from hr]; rfl,
      hg.trans (grows_emit hg.isOpen rfl (.print hhas)), rfl⟩
  | @printBlank span =>
    intro d hs ho _
    exact ⟨none, d.emit (.print none), rfl, grows_emit ho rfl .printBlank, rfl⟩

end Cascade.Codegen
