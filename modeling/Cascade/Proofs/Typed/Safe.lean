import Cascade.Proofs.Typed.Eval
import Cascade.Proofs.Typed.WellTyped

/-!
# Cascade.Proofs.Typed.Safe

Well-typed programs do not get stuck: evaluation gives values of the types that the tree tells, and
it stops for nothing but a division by zero or the bound on the depth.

* `Answer.Safe`: an answer that is not stuck, and whose result is as it should be.
* `evalExpr_safe`, `evalStmt_safe`: expressions and statements, where calls are safe.
* `evalCall_safe`, `evalProgram_safe`: calls to any depth, and programs.
-/

namespace Cascade.Typed

def World.Fits (g : Signature) (w : World) : Prop := w.fields.map Scalar.ty = g.fields

/-- Every local variable and every field holds a value of its type. -/
structure Memory.Fits (g : Signature) (slots : List Ty) (μ : Memory) : Prop where
  locals : μ.locals.map Scalar.ty = slots
  world : μ.world.Fits g

/-- There is a value of a type, unless the type is `void`. -/
def HasTy (v : Option Scalar) (t : Ty) : Prop :=
  match v with
  | none => t = .void
  | some v => v.ty = t

theorem HasTy.eq_none {v : Option Scalar} (h : HasTy v .void) : v = none := by
  cases v with
  | none => rfl
  | some v => cases v <;> cases h

theorem HasTy.eq_some {v : Option Scalar} {t : Ty} (h : HasTy v t) (ht : t ≠ .void) :
    ∃ x, v = some x := by
  cases v with
  | none => exact absurd h ht
  | some v => exact ⟨v, rfl⟩

theorem HasTy.iff {v : Option Scalar} {t : Ty} (h : HasTy v t) :
    (v = none ↔ t = .void) ∧ ∀ x, v = some x → x.ty = t := by
  cases v with
  | none => exact ⟨⟨fun _ => h, fun _ => rfl⟩, fun x hx => by cases hx⟩
  | some v =>
    refine ⟨⟨fun hv => (by cases hv), fun ht => ?_⟩, fun x hx => ?_⟩
    · subst ht
      exact h.eq_none
    · cases hx
      exact h

namespace Answer

variable {α β : Type}

/-- The answer is not stuck, and if there is a result, it is as it should be. -/
def Safe (post : α → Prop) : Answer α → Prop
  | .done a => post a
  | .stop why _ => why ≠ .stuck

theorem Safe.andThen {P : α → Prop} {Q : β → Prop} {x : Answer α} {f : α → Answer β}
    (h : x.Safe P) (hf : ∀ a, P a → (f a).Safe Q) : (x.andThen f).Safe Q := by
  cases x with
  | done a => exact hf a h
  | stop why w => exact h

theorem Safe.mono {P Q : α → Prop} {x : Answer α} (h : x.Safe P) (hpq : ∀ a, P a → Q a) :
    x.Safe Q := by
  cases x with
  | done a => exact hpq a h
  | stop why w => exact h

end Answer

variable {g : Signature} {slots : List Ty} {calls : Calls}

/-- What a typed expression leads to. -/
def ExprPost (g : Signature) (slots : List Ty) (t : Ty) (r : Option Scalar × Memory) : Prop :=
  HasTy r.1 t ∧ r.2.Fits g slots

def ValuePost (g : Signature) (slots : List Ty) (t : Ty) (r : Scalar × Memory) : Prop :=
  r.1.ty = t ∧ r.2.Fits g slots

theorem Answer.Safe.value {x : Answer (Option Scalar × Memory)} {t : Ty}
    (h : x.Safe (ExprPost g slots t)) (hn : t.isNumeric = true) :
    x.value.Safe (ValuePost g slots t) := by
  cases x with
  | stop why w => exact h
  | done r =>
    obtain ⟨v, μ⟩ := r
    cases v with
    | some v => exact h
    | none =>
      have hv : t = .void := h.1
      rw [hv] at hn
      cases hn

/-- Calls of methods give values of the types of the methods. -/
def CallsSafe (g : Signature) (calls : Calls) : Prop :=
  ∀ m t w, g.methods[m]? = some t → w.Fits g →
    (calls m w).Safe fun r => HasTy r.1 t ∧ r.2.Fits g

/-! ## Memory -/

theorem Memory.Fits.read {μ : Memory} (h : μ.Fits g slots) {place : Place} {t : Ty}
    (hp : placeTy? g slots place = some t) : ∃ v, μ.read place = some v ∧ v.ty = t := by
  cases place with
  | slot n =>
    rw [placeTy?, ← h.locals, List.getElem?_map] at hp
    exact Option.map_eq_some_iff.mp hp
  | field f =>
    rw [placeTy?, ← h.world, List.getElem?_map] at hp
    exact Option.map_eq_some_iff.mp hp

theorem map_ty_set {vs : List Scalar} {n : Nat} {v : Scalar}
    (h : (vs.map Scalar.ty)[n]? = some v.ty) : (vs.set n v).map Scalar.ty = vs.map Scalar.ty := by
  rw [List.map_set]
  obtain ⟨hlt, heq⟩ := List.getElem?_eq_some_iff.mp h
  rw [← heq, List.set_getElem_self]

theorem Memory.Fits.write {μ : Memory} (h : μ.Fits g slots) {place : Place} {v : Scalar}
    (hp : placeTy? g slots place = some v.ty) : (μ.write place v).Fits g slots := by
  cases place with
  | slot n =>
    refine ⟨?_, h.world⟩
    rw [← h.locals]
    exact map_ty_set (by rw [h.locals]; exact hp)
  | field f =>
    refine ⟨h.locals, ?_⟩
    rw [World.Fits, ← h.world]
    exact map_ty_set (by rw [h.world]; exact hp)

theorem Memory.Fits.print {μ : Memory} (h : μ.Fits g slots) (line : String) :
    (μ.print line).Fits g slots :=
  ⟨h.locals, h.world⟩

/-! ## Expressions -/

theorem evalExpr_safe (hcalls : CallsSafe g calls) {e : Expr} (he : e.WellTyped g slots) :
    ∀ {μ : Memory}, μ.Fits g slots → (evalExpr calls e μ).Safe (ExprPost g slots e.ty) := by
  induction he with
  | const =>
    intro μ hμ
    exact ⟨rfl, hμ⟩
  | load hp =>
    intro μ hμ
    obtain ⟨v, hv, hty⟩ := hμ.read hp
    rw [evalExpr, hv]
    exact ⟨hty, hμ⟩
  | @convert e ty span _ hc ih =>
    intro μ hμ
    refine ((ih hμ).value hc.isNumeric.1).andThen ?_
    rintro ⟨v, μ'⟩ ⟨-, hμ'⟩
    obtain ⟨w, hw⟩ := v.convert_isSome hc.isNumeric.2
    simp only [hw]
    exact ⟨Scalar.ty_convert hw, hμ'⟩
  | @unary op e span _ hn ih =>
    intro μ hμ
    refine ((ih hμ).value hn).andThen ?_
    rintro ⟨v, μ'⟩ ⟨hv, hμ'⟩
    refine ⟨?_, hμ'⟩
    show (Scalar.unary op v).ty = _
    rw [Scalar.ty_unary, show v.ty = e.ty from hv]
    rfl
  | @binary op l r span _ _ hlr hn ihl ihr =>
    intro μ hμ
    refine ((ihl hμ).value hn).andThen ?_
    rintro ⟨a, μ1⟩ ⟨ha, hμ1⟩
    refine ((ihr hμ1).value (hlr ▸ hn)).andThen ?_
    rintro ⟨b, μ2⟩ ⟨hb, hμ2⟩
    have hab : a.ty = b.ty := ha.trans (hlr.trans hb.symm)
    dsimp only
    cases hv : Scalar.binary op a b with
    | ok v =>
      refine ⟨?_, hμ2⟩
      show v.ty = _
      rw [(Scalar.ty_binary hv).2, show a.ty = l.ty from ha]
      rfl
    | error e =>
      rw [Scalar.binary_error hab hv]
      exact fun h => by cases h
  | @logical op l r span _ _ hnl hnr ihl ihr =>
    intro μ hμ
    refine ((ihl hμ).value hnl).andThen ?_
    rintro ⟨a, μ1⟩ ⟨-, hμ1⟩
    dsimp only
    split
    · exact ⟨rfl, hμ1⟩
    · refine ((ihr hμ1).value hnr).andThen ?_
      rintro ⟨b, μ2⟩ ⟨-, hμ2⟩
      exact ⟨rfl, hμ2⟩
  | @update place delta before ty span hp _ =>
    intro μ hμ
    obtain ⟨v, hv, hty⟩ := hμ.read hp
    have hstep : (v.step delta).ty = ty := (v.ty_step delta).trans hty
    rw [evalExpr, hv]
    refine ⟨?_, hμ.write (hstep ▸ hp)⟩
    cases before with
    | true => exact hstep
    | false => exact hty
  | @assign place e span hp _ hn ih =>
    intro μ hμ
    refine ((ih hμ).value hn).andThen ?_
    rintro ⟨v, μ'⟩ ⟨hv, hμ'⟩
    have hv : v.ty = e.ty := hv
    exact ⟨hv, hμ'.write (by rw [hv]; exact hp)⟩
  | @call m ty span hm =>
    intro μ hμ
    refine (hcalls m ty μ.world hm hμ.world).andThen ?_
    rintro ⟨v, w⟩ ⟨hv, hw⟩
    exact ⟨hv, hμ.locals, hw⟩
  | @print e span _ hn ih =>
    intro μ hμ
    refine ((ih hμ).value hn).andThen ?_
    rintro ⟨v, μ'⟩ ⟨-, hμ'⟩
    exact ⟨rfl, hμ'.print _⟩
  | printBlank =>
    intro μ hμ
    exact ⟨rfl, hμ.print _⟩

theorem evalFills_safe (hcalls : CallsSafe g calls) {e : Expr} {t : Ty} (he : e.Fills g slots t)
    {μ : Memory} (hμ : μ.Fits g slots) :
    (evalExpr calls e μ).value.Safe (ValuePost g slots t) := by
  obtain ⟨hw, rfl, hn⟩ := he
  exact (evalExpr_safe hcalls hw hμ).value hn

/-! ## Statements -/

/-- How a statement may end of which it is known whether it completes and whether a `break` leaves
it. -/
def Flow.Safe (inSwitch completes escapes : Bool) (returns : Ty) : Flow → Prop
  | .normal => completes = true
  | .leave => inSwitch = true ∧ escapes = true
  | .ret v => HasTy v returns

def StmtPost (g : Signature) (slots : List Ty) (returns : Ty) (inSwitch completes escapes : Bool)
    (r : Flow × Memory) : Prop :=
  r.1.Safe inSwitch completes escapes returns ∧ r.2.Fits g slots

variable {returns : Ty} {inSwitch : Bool}

theorem evalDeclare_safe (hcalls : CallsSafe g calls) {slot : Slot} {init : Option Expr}
    (hw : (Stmt.declare slot init).WellTyped g slots returns inSwitch) {μ : Memory}
    (hμ : μ.Fits g slots) :
    (evalDeclare calls slots slot init μ).Safe
      (StmtPost g slots returns inSwitch true false) := by
  obtain ⟨t, hslot, hn, hinit⟩ := hw
  cases init with
  | some e =>
    refine (evalFills_safe hcalls (hinit e rfl) hμ).andThen ?_
    rintro ⟨v, μ'⟩ ⟨hv, hμ'⟩
    have hv : v.ty = t := hv
    exact ⟨rfl, hμ'.write (show placeTy? g slots (.slot slot) = _ by rw [hv]; exact hslot)⟩
  | none =>
    obtain ⟨z, hz⟩ := Scalar.zero?_isSome hn
    have hzero : slots[slot]?.bind Scalar.zero? = some z := by rw [hslot]; exact hz
    rw [evalDeclare, hzero]
    exact ⟨rfl, hμ.write (show placeTy? g slots (.slot slot) = _ by
      rw [Scalar.ty_zero? hz]; exact hslot)⟩

theorem evalReturn_safe (hcalls : CallsSafe g calls) {value : Option Expr}
    (hw : (Stmt.ret value).WellTyped g slots returns inSwitch) {μ : Memory}
    (hμ : μ.Fits g slots) :
    (evalReturn calls value μ).Safe (StmtPost g slots returns inSwitch false false) := by
  cases value with
  | none => exact ⟨hw, hμ⟩
  | some e =>
    refine (evalFills_safe hcalls hw hμ).andThen ?_
    rintro ⟨v, μ'⟩ hv
    exact hv

theorem chosen?_lt {n : Int} {cases : List Case} {i : Nat} (h : chosen? n cases = some i) :
    i < cases.length := by
  unfold chosen? at h
  split at h
  · rename_i j hj
    cases h
    exact (List.findIdx?_eq_some_iff_getElem.mp hj).1
  · exact (List.findIdx?_eq_some_iff_getElem.mp h).1

theorem chosen?_none {n : Int} {cases : List Case} (h : chosen? n cases = none) :
    cases.any Case.isDefault = false := by
  unfold chosen? at h
  split at h
  · cases h
  · simpa [List.any_eq_false, List.findIdx?_eq_none_iff] using h

theorem evalSwitch_safe {cases : List Case} {run : Nat → Memory → Answer (Flow × Memory)}
    {v : Scalar} (hv : v.ty.isIntegral = true) {μ : Memory} (hμ : μ.Fits g slots)
    (hrun : ∀ i, i < cases.length → (run i μ).Safe (StmtPost g slots returns true
      (lastCompletes cases) (cases.any fun c => anyEscapes c.body)))
    (scrutinee : Expr) (compare : Ty) :
    (evalSwitch cases run v μ).Safe (StmtPost g slots returns inSwitch
      (Stmt.switch scrutinee compare cases).completes false) := by
  obtain ⟨n, hn⟩ := Scalar.toInt?_isSome hv
  rw [evalSwitch, hn]
  dsimp only
  split
  · rename_i hchosen
    refine ⟨?_, hμ⟩
    simp [Flow.Safe, Stmt.completes, chosen?_none hchosen]
  · rename_i i hchosen
    refine (hrun i (chosen?_lt hchosen)).andThen ?_
    rintro ⟨flow, μ'⟩ ⟨hflow, hμ'⟩
    refine ⟨?_, hμ'⟩
    cases flow with
    | normal =>
      have hlast : lastCompletes cases = true := hflow
      simp [Flow.behindSwitch, Flow.Safe, Stmt.completes, hlast]
    | leave =>
      obtain ⟨-, hesc⟩ := hflow
      simp [Flow.behindSwitch, Flow.Safe, Stmt.completes, hesc]
    | ret v => exact hflow

mutual

theorem evalStmt_safe (hcalls : CallsSafe g calls) : ∀ (s : Stmt) {inSwitch : Bool} {μ : Memory},
    s.WellTyped g slots returns inSwitch → μ.Fits g slots →
    (evalStmt calls slots s μ).Safe (StmtPost g slots returns inSwitch s.completes s.escapes)
  | .block body, _, _, hw, hμ => evalList_safe hcalls body hw hμ
  | .declare _ _, _, _, hw, hμ => evalDeclare_safe hcalls hw hμ
  | .expr _, _, _, hw, hμ =>
    (evalExpr_safe hcalls hw hμ).andThen fun _ hr => ⟨rfl, hr.2⟩
  | .switch scrutinee compare cases, _, _, hw, hμ => by
    obtain ⟨hscr, hi, -, hcases⟩ := hw
    refine (evalFills_safe hcalls hscr hμ).andThen ?_
    rintro ⟨v, μ'⟩ ⟨hv, hμ'⟩
    refine evalSwitch_safe (show v.ty.isIntegral = true by rw [show v.ty = _ from hv]; exact hi)
      hμ' (fun i hlt => ?_) scrutinee compare
    exact (evalCases_safe hcalls cases i hcases hμ').mono fun r hr => ⟨hr.1 hlt, hr.2⟩
  | .leave, _, _, hw, hμ => ⟨⟨hw, rfl⟩, hμ⟩
  | .ret _, _, _, hw, hμ => evalReturn_safe hcalls hw hμ

theorem evalList_safe (hcalls : CallsSafe g calls) : ∀ (ss : List Stmt) {inSwitch : Bool}
    {μ : Memory}, ListWellTyped g slots returns inSwitch ss → μ.Fits g slots →
    (evalList calls slots ss μ).Safe
      (StmtPost g slots returns inSwitch (allComplete ss) (anyEscapes ss))
  | [], _, _, _, hμ => ⟨rfl, hμ⟩
  | s :: ss, _, _, hw, hμ => by
    refine (evalStmt_safe hcalls s hw.1 hμ).andThen ?_
    rintro ⟨flow, μ'⟩ ⟨hflow, hμ'⟩
    cases flow with
    | normal =>
      refine (evalList_safe hcalls ss hw.2 hμ').mono ?_
      rintro ⟨flow, μ''⟩ ⟨hflow', hμ''⟩
      have hs : s.completes = true := hflow
      refine ⟨?_, hμ''⟩
      cases flow with
      | normal =>
        have hss : allComplete ss = true := hflow'
        simp [Flow.Safe, allComplete, hs, hss]
      | leave =>
        obtain ⟨hin, hesc⟩ := hflow'
        simp [Flow.Safe, anyEscapes, hin, hesc]
      | ret v => exact hflow'
    | leave =>
      obtain ⟨hin, hesc⟩ := hflow
      exact ⟨⟨hin, by simp [anyEscapes, hesc]⟩, hμ'⟩
    | ret v => exact ⟨hflow, hμ'⟩

/-- Unless all cases are skipped, it is the last one that tells whether they complete. -/
theorem evalCases_safe (hcalls : CallsSafe g calls) : ∀ (cs : List Case) (skip : Nat)
    {μ : Memory}, CasesWellTyped g slots returns cs → μ.Fits g slots →
    (evalCases calls slots cs skip μ).Safe fun r => (skip < cs.length → r.1.Safe true
      (lastCompletes cs) (cs.any fun c => anyEscapes c.body) returns) ∧ r.2.Fits g slots
  | [], _, _, _, hμ => ⟨fun h => absurd h (Nat.not_lt_zero _), hμ⟩
  | .mk l body :: cs, skip + 1, _, hw, hμ => by
    refine (evalCases_safe hcalls cs skip hw.2 hμ).mono ?_
    rintro ⟨flow, μ'⟩ ⟨hflow, hμ'⟩
    refine ⟨fun hlt => ?_, hμ'⟩
    have hlt : skip < cs.length := Nat.lt_of_succ_lt_succ hlt
    have hflow := hflow hlt
    have hne : cs ≠ [] := by rintro rfl; exact absurd hlt (Nat.not_lt_zero _)
    cases flow with
    | normal => exact (lastCompletes_cons hne).trans hflow
    | leave =>
      obtain ⟨hin, hesc⟩ := hflow
      exact ⟨hin, by simp [hesc]⟩
    | ret v => exact hflow
  | [.mk l body], 0, _, hw, hμ => by
    refine (evalList_safe hcalls body hw.1 hμ).andThen ?_
    rintro ⟨flow, μ'⟩ ⟨hflow, hμ'⟩
    cases flow with
    | normal => exact ⟨fun _ => hflow, hμ'⟩
    | leave =>
      obtain ⟨hin, hesc⟩ := hflow
      exact ⟨fun _ => ⟨hin, by simp [Case.body, hesc]⟩, hμ'⟩
    | ret v => exact ⟨fun _ => hflow, hμ'⟩
  | .mk l body :: c :: cs, 0, _, hw, hμ => by
    refine (evalList_safe hcalls body hw.1 hμ).andThen ?_
    rintro ⟨flow, μ'⟩ ⟨hflow, hμ'⟩
    cases flow with
    | normal =>
      refine (evalCases_safe hcalls (c :: cs) 0 hw.2 hμ').mono ?_
      rintro ⟨flow, μ''⟩ ⟨hflow', hμ''⟩
      have hflow' := hflow' (Nat.zero_lt_succ _)
      refine ⟨fun _ => ?_, hμ''⟩
      cases flow with
      | normal => exact hflow'
      | leave =>
        obtain ⟨hin, hesc⟩ := hflow'
        refine ⟨hin, ?_⟩
        rw [List.any_cons, hesc, Bool.or_true]
      | ret v => exact hflow'
    | leave =>
      obtain ⟨hin, hesc⟩ := hflow
      exact ⟨fun _ => ⟨hin, by simp [Case.body, hesc]⟩, hμ'⟩
    | ret v => exact ⟨fun _ => hflow, hμ'⟩

end

/-! ## Calls and programs -/

theorem zeros?_isSome {ts : List Ty} (h : ∀ t ∈ ts, t.isNumeric = true) :
    ∃ zs, zeros? ts = some zs ∧ zs.map Scalar.ty = ts := by
  induction ts with
  | nil => exact ⟨[], rfl, rfl⟩
  | cons t ts ih =>
    obtain ⟨ht, hts⟩ := List.forall_mem_cons.mp h
    obtain ⟨z, hz⟩ := Scalar.zero?_isSome ht
    obtain ⟨zs, hzs, htys⟩ := ih hts
    exact ⟨z :: zs, by simp only [zeros?, hz, hzs], by rw [List.map_cons, Scalar.ty_zero? hz, htys]⟩

theorem evalBody_safe (hcalls : CallsSafe g calls) {m : Method} (hm : m.WellTyped g) {w : World}
    (hw : w.Fits g) :
    (evalBody calls m w).Safe fun r => HasTy r.1 m.returns ∧ r.2.Fits g := by
  obtain ⟨zs, hzs, htys⟩ := zeros?_isSome hm.slots
  rw [evalBody, show zeros? (m.locals.map Local.ty) = some zs from hzs]
  refine (evalList_safe hcalls m.body hm.body ⟨htys, hw⟩).andThen ?_
  rintro ⟨flow, μ⟩ ⟨hflow, hμ⟩
  cases flow with
  | normal =>
    have hc : allComplete m.body = true := hflow
    by_cases hv : m.returns = .void
    · simp only [evalEnd, Ty.isVoid_iff.mpr hv, if_true]
      exact ⟨hv, hμ.world⟩
    · rw [hm.leaves hv] at hc
      cases hc
  | leave =>
    obtain ⟨hin, -⟩ := hflow
    cases hin
  | ret v => exact ⟨hflow, hμ.world⟩

variable {p : Program}

theorem evalCall_safe (hp : ∀ m ∈ p.methods, m.WellTyped p.signature) (depth : Nat) :
    CallsSafe p.signature (evalCall p depth) := by
  induction depth with
  | zero => exact fun _ _ _ _ _ h => by cases h
  | succ depth ih =>
    intro id t w hid hw
    obtain ⟨m, hm, rfl⟩ : ∃ m, p.methods[id]? = some m ∧ m.returns = t := by
      simpa [Program.signature] using hid
    rw [evalCall, hm]
    exact evalBody_safe ih (hp m (List.mem_of_getElem? hm)) hw

theorem evalInits_safe (hcalls : CallsSafe g calls) (fs : List Field) (i : Nat) {w : World}
    (hf : ∀ f ∈ fs, f.WellTyped g) (hi : ∀ j f, fs[j]? = some f → g.fields[i + j]? = some f.ty)
    (hw : w.Fits g) : (evalInits calls i fs w).Safe fun w' => w'.Fits g := by
  induction fs generalizing i w with
  | nil => exact hw
  | cons f fs ih =>
    obtain ⟨hf, hfs⟩ := List.forall_mem_cons.mp hf
    have hi' : ∀ j f', fs[j]? = some f' → g.fields[i + 1 + j]? = some f'.ty := by
      intro j f' hj
      rw [Nat.add_assoc, Nat.add_comm 1]
      exact hi (j + 1) f' (by simpa using hj)
    unfold evalInits
    split
    · exact ih (i + 1) hfs hi' hw
    · rename_i e he
      refine (evalFills_safe hcalls (hf.2 e he) ⟨rfl, hw⟩).andThen ?_
      rintro ⟨v, μ⟩ ⟨hv, hμ⟩
      have hv : v.ty = f.ty := hv
      refine ih (i + 1) hfs hi' (hμ.write ?_).world
      show g.fields[i]? = some v.ty
      rw [hv]
      exact hi 0 f rfl

/-- A well-typed program does not get stuck, and its result has the type of its entry. -/
theorem evalProgram_safe (hp : p.WellTyped) (depth : Nat) {t : Ty}
    (ht : p.signature.methods[p.entry]? = some t) :
    (evalProgram p depth).Safe fun r => HasTy r.1 t ∧ r.2.Fits p.signature := by
  have hnum : ∀ t ∈ p.fields.map Field.ty, t.isNumeric = true := by
    intro t ht
    obtain ⟨f, hf, rfl⟩ := List.mem_map.mp ht
    exact (hp.fields f hf).1
  obtain ⟨zs, hzs, htys⟩ := zeros?_isSome hnum
  rw [evalProgram, hzs]
  have hcalls := evalCall_safe hp.methods depth
  have hstart : World.Fits p.signature ⟨zs, #[]⟩ := htys
  refine (evalInits_safe hcalls p.fields 0 hp.fields (fun j f hj => ?_) hstart).andThen
    fun w hw => hcalls p.entry t w ht hw
  simp [Program.signature, hj]

end Cascade.Typed
