import Cascade.Proofs.Simulation.Logical

/-!
# Cascade.Proofs.Simulation.Expr

The machine does on the code of an expression what evaluating the expression tells.

* `Callable`: what is known of calls; `Ready`: what is known before some code.
* `genExpr_follows`: by induction on the expression, one case for each of its forms.
-/

namespace Cascade.Simulation

open Code Machine Codegen
open Typed (Memory World Calls CallsSafe HasTy ExprPost ValuePost evalExpr evalExpr_safe placeTy?)

variable {A : Activation} {m : Module} {limits : Limits} {s : State Lines} {μ : Memory}
variable {g : Signature} {returns : Ty} {slots : List Ty} {d : Draft}
variable {p : Typed.Program} {calls : Calls} {room : Nat}

/-- A call is active in a module made from a program, and there is room for some more calls, of
which it is known what they do. -/
structure Callable (A : Activation) (m : Module) (limits : Limits) (p : Typed.Program)
    (calls : Calls) (room : Nat) : Prop where
  code : A.Of m
  follow : CallsFollow m limits p.signature calls room
  room : A.rest.length + 1 + room = limits.maxCallDepth
  safe : CallsSafe p.signature calls

/-- The call stands where a draft ends, and code can be added to the draft. -/
structure Ready (A : Activation) (g : Signature) (returns : Ty) (slots : List Ty) (d : Draft)
    (s : State Lines) (μ : Memory) : Prop where
  sound : d.Sound g returns
  isOpen : d.Open
  knows : d.Knows slots
  stands : Stands A d.b s μ
  typed : μ.Fits g slots

/-- The code of an expression has led from one draft to a later one, and its value is in a
register. -/
structure Valued (A : Activation) (g : Signature) (returns : Ty) (slots : List Ty) (d d' : Draft)
    (r : Register) (t : Ty) (s : State Lines) (x : Scalar × Memory) (s' : State Lines) : Prop where
  ty : x.1.ty = t
  ready : Ready A g returns slots d' s' x.2
  kept : Kept A d.b.registers s s'
  holds : Holds A s' r.id x.1

theorem Ready.grows {d' : Draft} {s' : State Lines} {μ' : Memory}
    (h : Ready A g returns slots d s μ) (hg : Grows g returns d d') (hs : Stands A d'.b s' μ')
    (hμ : μ'.Fits g slots) : Ready A g returns slots d' s' μ' :=
  ⟨hg.makes.sound h.sound, hg.isOpen, h.knows.mono hg.makes, hs, hμ⟩

theorem has_lt (hs : d.Sound g returns) {r : Register} (h : d.Has g returns r) :
    r.id < d.b.registers := by
  rw [← hs.types]
  exact (List.getElem?_eq_some_iff.mp h.1).1

theorem Ready.beyond (h : Ready A g returns slots d s μ) :
    μ.locals.length ≤ d.b.locals.length := by
  obtain ⟨more, hmore⟩ := h.knows
  have hlen := congrArg List.length hmore
  have hlocals := congrArg List.length h.typed.locals
  simp only [List.length_map, List.length_append] at hlen hlocals
  omega

theorem Ready.value (hc : Callable A m limits p calls room) {e : Typed.Expr}
    (he : e.WellTyped p.signature slots) (hn : e.ty.isNumeric = true)
    (h : Ready A p.signature returns slots d s μ) {d' : Draft} {r : Register}
    (hg : Grows p.signature returns d d')
    (hf : Follows m limits s (evalExpr calls e μ) (Evaluated A d.b (some r, d'.b) s)) :
    Follows m limits s (evalExpr calls e μ).value
      (Valued A p.signature returns slots d d' r e.ty s) := by
  refine (hf.value.safe ((evalExpr_safe hc.safe he h.typed).value hn)).mono ?_
  rintro ⟨v, μ'⟩ s' ⟨⟨hv, hμ⟩, hx⟩
  obtain ⟨r', hr, hholds⟩ := hx.holds v rfl
  cases hr
  exact ⟨hv, h.grows hg hx.stands hμ, hx.kept, hholds⟩

/-- The code of an expression does what evaluating the expression tells, wherever it stands. -/
def ExprFollows (A : Activation) (m : Module) (limits : Limits) (p : Typed.Program) (calls : Calls)
    (returns : Ty) (slots : List Ty) (e : Typed.Expr) : Prop :=
  ∀ {d : Draft} {rb : Option Register × Builder} {s : State Lines} {μ : Memory},
    Ready A p.signature returns slots d s μ → genExpr p d.b e = .ok rb → rb.2.Extends A.builder →
    Follows m limits s (evalExpr calls e μ) (Evaluated A d.b rb s)

/-- The code of an operand can be made, and leads to a register with its value. -/
theorem operand_follows (hc : Callable A m limits p calls room) {e : Typed.Expr}
    (he : e.WellTyped p.signature slots) (hn : e.ty.isNumeric = true)
    (hfollows : ExprFollows A m limits p calls returns slots e)
    (hs : d.Sound p.signature returns) (ho : d.Open) (hk : d.Knows slots) :
    ∃ r d', needValue e.span (genExpr p d.b e) = .ok (r, d'.b) ∧
      Grows p.signature returns d d' ∧ d'.Has p.signature returns r ∧ r.ty = e.ty ∧
      ∀ {s : State Lines} {μ : Memory}, Ready A p.signature returns slots d s μ →
        d'.b.Extends A.builder → Follows m limits s (evalExpr calls e μ).value
          (Valued A p.signature returns slots d d' r e.ty s) := by
  obtain ⟨r, d', hr, hg, hhas, hty⟩ := genValue_gives hn (genExpr_grows rfl he hs ho hk)
  exact ⟨r, d', hr, hg, hhas, hty, fun h hb =>
    h.value hc he hn hg (hfollows h (genValue_some hr) hb)⟩

theorem Valued.given {d' : Draft} {r : Register} {t : Ty} {x : Scalar × Memory}
    {s' s'' : State Lines}
    (hg : Grows g returns d d') (h : Valued A g returns slots d d' r t s x s')
    {rb : Register × Builder} {v : Scalar} {μ' : Memory}
    (hgiven : Given A d'.b rb s' v μ' s'') : Evaluated A d.b (valued rb) s (some v, μ') s'' :=
  (hgiven.after h.kept hg.makes.extends.registers).evaluated

/-- Behind the block where both ways of a logical operator meet, its value is in a register. -/
theorem fetched_evaluated (limits : Limits) (hA : A.Of m) {dr d' : Draft}
    (hs : d.Sound g returns) (hb1 : Branched g returns d dr) {z : Scalar} {r : Register}
    {result : LocalIndex} (hg : Grows g returns dr (d'.noted z r result))
    (hb : (d'.fetched z r result (d.b.blocks.length + 2) d.written).b.Extends A.builder)
    {s' : State Lines} {v : Scalar}
    (h : Meets A d.b.registers s result (d.b.blocks.length + 2) v μ s') :
    ∃ s'', Steps m limits s' s'' ∧ Evaluated A d.b (valued
      (⟨(d'.met z r result (d.b.blocks.length + 2) d.written).b.registers, .truth⟩,
        (d'.fetched z r result (d.b.blocks.length + 2) d.written).b)) s (some v, μ) s'' := by
  have hsj := (joined_op hs hb1 hg).sound (hg.makes.sound (hb1.makes.sound hs))
  have hclose : (d'.joined z r result (d.b.blocks.length + 2)).b.blocks.length =
    (d'.noted z r result).b.blocks.length := Builder.close_length _ _
  have hlen := hb1.length
  have hle := hg.length
  have hfresh := merge_fresh hs hb1 hg
  obtain ⟨s'', hs'', hgiven⟩ := fetched_given limits hA hsj (by omega) hfresh h
    (met_grows hs hb1 hg).makes.extends.registers hb
  exact ⟨s'', hs'', hgiven.evaluated⟩

theorem logical_follows (hc : Callable A m limits p calls room) {op : LogicalOp}
    {right : Typed.Expr} (hn : right.ty.isNumeric = true)
    (h : Ready A p.signature returns slots d s μ) {left : Register}
    (hhas : d.Has p.signature returns left) {a : Scalar} (hl : Holds A s left.id a)
    {result : LocalIndex} (hbeyond : μ.locals.length ≤ result)
    (hresult : (d.scheme p.signature returns).locals[result]? = some .truth)
    {d' : Draft} {r : Register} (hg : Grows p.signature returns (d.right op result left) d')
    (hr : d'.Has p.signature returns r) (hrty : r.ty = right.ty)
    (hf : ∀ {s : State Lines} {μ : Memory},
      Ready A p.signature returns slots (d.right op result left) s μ → d'.b.Extends A.builder →
      Follows m limits s (evalExpr calls right μ).value
        (Valued A p.signature returns slots (d.right op result left) d' r right.ty s))
    {span : Span} {rb : Register × Builder}
    (hrun : closeLogical d'.b (d.b.blocks.length + 2) result r span = .ok rb)
    (hb : rb.2.Extends A.builder) :
    Follows m limits s
      (if a.isTrue = (op == .or) then .done (some (.ofBool a.isTrue), μ)
      else (evalExpr calls right μ).value.andThen fun (b, μ) =>
        .done (some (.ofBool b.isTrue), μ)) (Evaluated A d.b (valued rb) s) := by
  obtain ⟨z, hz⟩ := Scalar.zero?_isSome (hrty ▸ hn)
  rw [closeLogical_eq d' hz _ result d.written span] at hrun
  cases hrun
  have hb1 := right_branched op h.sound h.isOpen hhas hresult
  have hs' := hg.makes.sound (hb1.makes.sound h.sound)
  have hresult' := (hb1.makes.trans hg.makes).scheme.local hresult
  have hnoted := noted_grows hs' hg.isOpen hr (Scalar.ty_zero? hz) hresult'
  have hgn := hg.trans hnoted
  have hjoined := joined_op h.sound hb1 hgn
  have hmet := met_grows h.sound hb1 hgn
  -- everything that is made on the way stays
  have hejoined : (d'.joined z r result (d.b.blocks.length + 2)).b.Extends A.builder :=
    (met_op h.sound hb1 hgn).extends.trans ((Builder.write_extends hmet.isOpen.2 _ _).trans hb)
  have hed' : d'.b.Extends A.builder :=
    hnoted.makes.extends.trans (hjoined.extends.trans hejoined)
  have heright : (d.right op result left).b.Extends A.builder := hg.makes.extends.trans hed'
  by_cases ha : a.isTrue = (op == .or)
  · rw [if_pos ha]
    obtain ⟨s1, hs1, hm⟩ := decided_meets h.sound h.isOpen hhas hresult heright limits hc.code
      h.stands hl hbeyond ha
    obtain ⟨s2, hs2, hx⟩ := fetched_evaluated limits hc.code h.sound hb1 hgn hb hm
    exact .done (hs1.trans hs2) hx
  · rw [if_neg ha]
    obtain ⟨s1, hs1, hslots, hst1⟩ := right_stands h.sound h.isOpen hhas hresult heright limits
      hc.code h.stands hl ha
    have hr1 : Ready A p.signature returns slots (d.right op result left) s1 μ :=
      ⟨hb1.makes.sound h.sound, hb1.isOpen, h.knows.mono hb1.makes, hst1, h.typed⟩
    refine .of_steps hs1 ((hf hr1 hed').andThen ?_)
    rintro ⟨v, μ2⟩ s2 hv
    have hvty : v.ty = r.ty := hv.ty.trans hrty.symm
    have hbeyond2 : μ2.locals.length ≤ result := by
      have h1 := congrArg List.length hv.ready.typed.locals
      have h2 := congrArg List.length h.typed.locals
      simp only [List.length_map] at h1 h2
      omega
    obtain ⟨s3, hs3, hm⟩ := noted_meets limits hc.code hg.isOpen hv.ready.stands hv.holds
      (has_lt hs' hr) (hvty ▸ hz) hbeyond2
      (local_lt hed'
        (by simpa [Draft.scheme] using (List.getElem?_eq_some_iff.mp hresult').1)) hejoined
    have hle : d.b.registers ≤ (d.right op result left).b.registers :=
      hb1.makes.extends.registers
    have hkept : Kept A d.b.registers s s3 := ((Kept.of_slots hslots _).trans hle hv.kept).trans
      (Nat.le_trans hle hg.makes.extends.registers) hm.kept
    obtain ⟨s4, hs4, hx⟩ := fetched_evaluated limits hc.code h.sound hb1 hgn hb
      ⟨hm.arrived, hkept, hm.truth⟩
    exact .done (hs3.trans hs4) hx

theorem Ready.place (h : Ready A g returns slots d s μ) {place : Typed.Place} {t : Ty}
    (hp : placeTy? g slots place = some t) : ∃ v, μ.read place = some v ∧ v.ty = t :=
  h.typed.read hp

theorem genExpr_follows (hc : Callable A m limits p calls room) {e : Typed.Expr}
    (he : e.WellTyped p.signature slots) :
    ExprFollows A m limits p calls returns slots e := by
  induction he with
  | @const v span =>
    intro d rb s μ h hrun hb
    cases hrun
    obtain ⟨s1, hs1, hg1⟩ := constant_given limits hc.code h.stands hb
    exact .done hs1 hg1.evaluated
  | @load place ty span hplace =>
    intro d rb s μ h hrun hb
    cases hrun
    obtain ⟨v, hv, -⟩ := h.place hplace
    obtain ⟨s1, hs1, hg1⟩ := load_given limits hc.code h.stands ty hv hb
    rw [evalExpr, hv]
    exact .done hs1 hg1.evaluated
  | @convert e ty span he hconv ih =>
    intro d rb s μ h hrun hb
    obtain ⟨r, d1, hr, hg, hhas, hty, hf⟩ :=
      operand_follows hc he hconv.isNumeric.1 ih h.sound h.isOpen h.knows
    simp only [genExpr, hr, Except.ok.injEq] at hrun
    subst hrun
    have hne : r.ty ≠ ty := by rw [hty]; exact hconv.1
    have hext : d1.b.Extends (convert d1.b r ty).2 := by
      rw [convert, if_neg hne]
      exact Builder.write_extends hg.isOpen.2 _ _
    refine (hf h (hext.trans hb)).andThen ?_
    rintro ⟨v, μ1⟩ s1 hv
    obtain ⟨w, hw⟩ := v.convert_isSome hconv.isNumeric.2
    obtain ⟨s2, hs2, hg2⟩ := convert_given limits hc.code hv.ready.stands hne hv.holds hw hb
    simp only [hw]
    exact .done hs2 (hv.given hg hg2)
  | @unary op e span he hn ih =>
    intro d rb s μ h hrun hb
    obtain ⟨r, d1, hr, hg, hhas, hty, hf⟩ :=
      operand_follows hc he hn ih h.sound h.isOpen h.knows
    simp only [genExpr, hr, Except.ok.injEq] at hrun
    subst hrun
    have hext := (Builder.write_extends hg.isOpen.2 _ _).trans hb
    refine (hf h hext).andThen ?_
    rintro ⟨v, μ1⟩ s1 hv
    obtain ⟨s2, hs2, hg2⟩ := unary_given limits hc.code hv.ready.stands hv.holds hb
    exact .done hs2 (hv.given hg hg2)
  | @binary op l r span hl hr hlr hn ihl ihr =>
    intro d rb s μ h hrun hb
    obtain ⟨rl, d1, hgl, hg1, hhasl, htyl, hfl⟩ :=
      operand_follows hc hl hn ihl h.sound h.isOpen h.knows
    obtain ⟨rr, d2, hgr, hg2, hhasr, htyr, hfr⟩ := operand_follows hc hr (hlr ▸ hn) ihr
      (hg1.makes.sound h.sound) hg1.isOpen (h.knows.mono hg1.makes)
    simp only [genExpr, hgl, hgr, Except.ok.injEq] at hrun
    subst hrun
    have hext2 := (Builder.write_extends hg2.isOpen.2 _ _).trans hb
    have hext1 := hg2.makes.extends.trans hext2
    refine (hfl h hext1).andThen ?_
    rintro ⟨x, μ1⟩ s1 hx
    refine (hfr hx.ready hext2).andThen ?_
    rintro ⟨y, μ2⟩ s2 hy
    have hx2 : Holds A s2 rl.id x :=
      hy.kept _ _ (has_lt (hg1.makes.sound h.sound) hhasl) hx.holds
    have hty : x.ty = y.ty := hx.ty.trans (hlr.trans hy.ty.symm)
    dsimp only
    cases hv : Scalar.binary op x y with
    | ok v =>
      obtain ⟨s3, hs3, hg3⟩ := binary_given limits hc.code hy.ready.stands hx2 hy.holds hv hb
      refine .done hs3 (Given.evaluated (hg3.after ?_
        (hg1.trans hg2).makes.extends.registers))
      exact hx.kept.trans hg1.makes.extends.registers hy.kept
    | error e =>
      obtain rfl := Scalar.binary_error hty hv
      have hst2 : Stands A (d2.b.newRegister (Scalar.binaryTy op l.ty)).2 s2 μ2 := hy.ready.stands
      exact .inr (binary_divides hc.code hst2 hx2 hy.holds hv hb)
  | @logical op l r span hl hr hnl hnr ihl ihr =>
    intro d rb s μ h hrun hb
    -- the local variable where both ways meet
    have hg0 : Grows p.signature returns d (d.newLocal .truth) := grows_newLocal h.isOpen rfl
    have h0 : Ready A p.signature returns slots (d.newLocal .truth) s μ :=
      h.grows hg0 h.stands h.typed
    have hresult : ((d.newLocal .truth).scheme p.signature returns).locals[d.b.locals.length]? =
        some .truth := by
      simp [Draft.scheme, Draft.newLocal, Builder.newLocal]
    obtain ⟨rl, d1, hgl, hg1, hhasl, -, hfl⟩ :=
      operand_follows hc hl hnl ihl h0.sound h0.isOpen h0.knows
    have hs1 := hg1.makes.sound h0.sound
    have hresult1 := hg1.makes.scheme.local hresult
    have hb1 := right_branched op hs1 hg1.isOpen hhasl hresult1
    have hk1 := h0.knows.mono hg1.makes
    obtain ⟨rr, d2, hgr, hg2, hhasr, htyr, hfr⟩ := operand_follows hc hr hnr ihr
      (hb1.makes.sound hs1) hb1.isOpen (hk1.mono hb1.makes)
    obtain ⟨rb', hclose, d3, hd3, hg3, -⟩ :=
      closeLogical_gives hs1 hb1 hg2 hhasr (htyr ▸ hnr) hresult1 r.span
    simp only [genExpr, show needValue l.span (genExpr p (d.b.newLocal .truth).2 l) = _ from hgl,
      show (d.b.newLocal .truth).1 = d.b.locals.length from rfl, openLogical_eq, hgr, hclose,
      Except.ok.injEq] at hrun
    subst hrun
    have hb : rb'.2.Extends A.builder := hb
    have hext1 : d1.b.Extends A.builder := hg3.makes.extends.trans (hd3 ▸ hb)
    refine (hfl h0 hext1).andThen ?_
    rintro ⟨x, μ1⟩ s1 hx
    have hbeyond : μ1.locals.length ≤ d.b.locals.length := by
      have h1 := congrArg List.length hx.ready.typed.locals
      have h2 := congrArg List.length h.typed.locals
      have h3 := h.beyond
      simp only [List.length_map] at h1 h2
      omega
    refine (logical_follows hc hnr hx.ready hhasl hx.holds hbeyond hresult1 hg2 hhasr htyr hfr
      hclose hb).mono ?_
    rintro ⟨v, μ2⟩ s2 hv
    exact hv.after hx.kept (hg0.trans hg1).makes.extends.registers
  | @update place delta before ty span hplace hi =>
    intro d rb s μ h hrun hb
    obtain ⟨v, hv, hty⟩ := h.place hplace
    obtain ⟨a, ha⟩ := Scalar.ofInt?_isSome hi delta
    simp only [genExpr] at hrun
    split at hrun
    · cases hrun
    · rename_i rb' hstep
      cases hrun
      obtain ⟨s1, hs1, hg1⟩ := step_given limits hc.code h.stands h.isOpen.2 hv hty ha hstep hb
      rw [evalExpr, hv]
      exact .done hs1 hg1.evaluated
  | @assign place e span hplace he hn ih =>
    intro d rb s μ h hrun hb
    obtain ⟨r, d1, hr, hg, hhas, hty, hf⟩ :=
      operand_follows hc he hn ih h.sound h.isOpen h.knows
    simp only [genExpr, hr, Except.ok.injEq] at hrun
    subst hrun
    have hext := (store_extends hg.isOpen.2 place r).trans hb
    refine (hf h hext).andThen ?_
    rintro ⟨v, μ1⟩ s1 hv
    obtain ⟨old, hold, -⟩ := hv.ready.place hplace
    obtain ⟨s2, hs2, hst2, hk2⟩ := store_stands limits hc.code hv.ready.stands hold hv.holds hb
      d1.b.registers
    refine .done hs2 ⟨hst2, hv.kept.trans hg.makes.extends.registers hk2, ?_⟩
    intro w hw
    cases hw
    exact ⟨r, rfl, hk2 _ _ (has_lt (hg.makes.sound h.sound) hhas) hv.holds⟩
  | @call j ty span hj =>
    intro d rb s μ h hrun hb
    exact call_follows hc.code hc.follow hc.room hc.safe h.stands h.typed.world rfl hj hrun hb
  | @print e span he hn ih =>
    intro d rb s μ h hrun hb
    obtain ⟨r, d1, hr, hg, hhas, hty, hf⟩ :=
      operand_follows hc he hn ih h.sound h.isOpen h.knows
    simp only [genExpr, hr, Except.ok.injEq] at hrun
    subst hrun
    have hext := (Builder.emit_extends hg.isOpen.2 _).trans hb
    refine (hf h hext).andThen ?_
    rintro ⟨v, μ1⟩ s1 hv
    obtain ⟨s2, hs2, hst2, hk2⟩ := print_stands limits hc.code hv.ready.stands hv.holds.read? hb
      d1.b.registers
    exact .done hs2 ⟨hst2, hv.kept.trans hg.makes.extends.registers hk2, fun _ hw => by cases hw⟩
  | @printBlank span =>
    intro d rb s μ h hrun hb
    cases hrun
    obtain ⟨s1, hs1, hst1, hk1⟩ := print_stands limits hc.code h.stands (v := none)
      (fun _ _ => rfl) hb d.b.registers
    exact .done hs1 ⟨hst1, hk1, fun _ hw => by cases hw⟩

end Cascade.Simulation
