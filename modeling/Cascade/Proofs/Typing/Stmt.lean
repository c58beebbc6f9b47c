import Cascade.Proofs.Typing.Expr
import Cascade.Proofs.Typing.Kept

/-!
# Cascade.Proofs.Typing.Stmt

What typing of statements accepts is well typed.

* `Advance`: what a successful pass over statements does to the state. Storage is only added, the
  bindings stay sound, and as many switches are open as before.
* `typeLabels_ok`: the labels of a switch are distinct and fit the type of the comparison.
* `keepList_wellTyped`, `typeList_wellTyped`: the typed list, with or without what control cannot
  get to, is well typed against the local variables declared by its end.
-/

namespace Cascade

namespace Scopes

theorem start_sound (policy : Redeclaration) : (start policy).Sound :=
  ⟨by simp [start, visible], by simp [start, slots]⟩

theorem push_sound {s : Scopes} (hs : s.Sound) (kind : ScopeKind) : (s.push kind).Sound :=
  ⟨fun b hb => hs.visible b (by simpa [visible, push] using hb), hs.numeric⟩

theorem pop_sound {s : Scopes} (hs : s.Sound) : s.pop.Sound := by
  unfold pop
  split
  · exact hs
  · rename_i o os ho
    refine ⟨fun b hb => hs.visible b ?_, hs.numeric⟩
    simp only [visible, ho, List.flatMap_cons, List.mem_append] at hb ⊢
    exact .inr hb

@[simp] theorem pop_slots (s : Scopes) : s.pop.slots = s.slots := by
  unfold pop; split <;> rfl

theorem add_sound {s : Scopes} (hs : s.Sound) (name : String) {ty : Ty} (span : Span)
    (hn : ty.isNumeric = true) : (s.add name ty span).1.Sound := by
  refine ⟨fun b hb => ?_, fun t ht => ?_⟩
  · simp only [visible, add, Scope.bind, List.flatMap_cons, List.mem_append, List.mem_cons,
      List.mem_filter] at hb ⊢
    have old : b ∈ s.visible → (s.locals ++ [⟨name, ty, span⟩])[b.slot]? =
        some ⟨b.name, b.ty, b.span⟩ := fun hv => by
      have := hs.visible b hv
      obtain ⟨hlt, -⟩ := List.getElem?_eq_some_iff.mp this
      rw [List.getElem?_append_left hlt, this]
    obtain (rfl | ⟨hb, -⟩) | hb := hb
    · simp
    · exact old (by simp [visible, hb])
    · exact old (by simp only [visible, List.flatMap_cons, List.mem_append]; exact .inr hb)
  · simp only [slots, add, List.map_append, List.mem_append, List.map_cons, List.map_nil,
      List.mem_singleton] at ht
    obtain ht | rfl := ht
    · exact hs.numeric t ht
    · exact hn

theorem add_slots (s : Scopes) (name : String) (ty : Ty) (span : Span) :
    (s.add name ty span).1.slots = s.slots ++ [ty] := by
  simp [add, slots]

theorem declare_ok {s s' : Scopes} {name : String} {ty : Ty} {span : Span} {d : Declaration}
    (h : s.declare name ty span = .ok (s', d)) : (s', d) = s.add name ty span := by
  unfold declare at h
  split at h
  · cases h; rfl
  · split at h
    · cases h; rfl
    · cases h

end Scopes

namespace Typing

open Syntax
open Typed (LabelsFit)

/-- From one state of typing to a later one at the same depth. -/
structure Advance (st st' : State) : Prop where
  sound : st.scopes.Sound → st'.scopes.Sound
  slots : ∃ more, st'.scopes.slots = st.scopes.slots ++ more
  depth : st'.depth = st.depth

theorem Advance.refl (st : State) : Advance st st := ⟨id, ⟨[], by simp⟩, rfl⟩

theorem Advance.trans {st st' st'' : State} (h1 : Advance st st') (h2 : Advance st' st'') :
    Advance st st'' := by
  obtain ⟨more1, he1⟩ := h1.slots
  obtain ⟨more2, he2⟩ := h2.slots
  exact ⟨h2.sound ∘ h1.sound, ⟨more1 ++ more2, by rw [he2, he1, List.append_assoc]⟩,
    h2.depth.trans h1.depth⟩

theorem Advance.enclose {st st' : State} {kind : ScopeKind}
    (h : Advance (st.enter kind) st') : Advance st (st'.exit kind) := by
  obtain ⟨more, he⟩ := h.slots
  refine ⟨fun hs => Scopes.pop_sound (h.sound (Scopes.push_sound hs kind)), ⟨more, ?_⟩, ?_⟩
  · exact (Scopes.pop_slots _).trans he
  · have := h.depth
    unfold State.enter at this
    unfold State.exit
    split <;> simp_all

theorem report_advance {cx : Context} {st st' : State} {w : Warning}
    {r : Except (Failure Rejection) Unit} (h : report cx st w = (r, st')) : Advance st st' := by
  unfold report at h
  split at h
  · cases h; exact .refl st
  split at h
  · cases h; exact .refl st
  · cases h; exact ⟨id, ⟨[], by simp⟩, rfl⟩

theorem typeInit_fills {cx : Context} (hnum : cx.table.Numbered) {scopes : Scopes}
    (hs : scopes.Sound) {ty : Ty}
    {init : Option Expr} {r : Option Typed.Expr} (h : typeInit cx scopes ty init = .ok r) :
    ∀ e, r = some e → e.Fills cx.table.signature scopes.slots ty := by
  intro e he
  subst he
  unfold typeInit at h
  split at h
  · cases h
  split at h
  · cases h
  rename_i hv
  split at h
  · cases h
  rename_i hf
  cases h
  exact fit_fills (typeExpr_wellTyped hnum hs _ _ hv) hf

theorem typeDeclare_wellTyped {cx : Context} (hnum : cx.table.Numbered) {st st' : State}
    (hs : st.scopes.Sound) {ty : Ty}
    {name : Ident} {init : Option Expr} {t : Typed.Stmt} {inSwitch : Bool}
    (h : typeDeclare cx st ty name init = (.ok t, st')) :
    Advance st st' ∧
      t.WellTyped cx.table.signature st'.scopes.slots cx.returns inSwitch := by
  unfold typeDeclare at h
  split at h
  · cases h
  rename_i hty
  have hn : ty.isNumeric = true := Ty.isNumeric_iff.mpr fun hv => hty (Ty.isVoid_iff.mpr hv)
  split at h
  · cases h
  rename_i hinit
  split at h
  · cases h
  rename_i scopes declared hdecl
  have hadd := Scopes.declare_ok hdecl
  have hscopes : scopes = (st.scopes.add name.name ty name.span).1 := congrArg Prod.fst hadd
  have hslot : declared.slot = st.scopes.locals.length :=
    congrArg (fun p => Declaration.slot p.2) hadd
  have hmore : scopes.slots = st.scopes.slots ++ [ty] := by rw [hscopes, Scopes.add_slots]
  have ha : Advance st ⟨scopes, st.depth, st.warnings⟩ :=
    ⟨fun _ => by rw [hscopes]; exact Scopes.add_sound hs _ _ hn, ⟨[ty], hmore⟩, rfl⟩
  have ht : Typed.Stmt.WellTyped cx.table.signature scopes.slots cx.returns inSwitch
      (.declare declared.slot ‹_›) := by
    refine ⟨ty, ?_, hn, fun e he => ?_⟩
    · rw [hmore, hslot]; simp [Scopes.slots]
    · rw [hmore]; exact (typeInit_fills hnum hs hinit e he).append [ty]
  dsimp only at h
  split at h
  · cases h; exact ⟨ha, ht⟩
  split at h
  · cases h
  · rename_i hr
    cases h
    have hw := report_advance hr
    obtain ⟨more, he⟩ := hw.slots
    exact ⟨ha.trans hw, by rw [he]; exact ht.append more⟩

theorem typeReturn_wellTyped {cx : Context} (hnum : cx.table.Numbered) {scopes : Scopes}
    (hs : scopes.Sound) {value : Option Expr} {span : Span} {t : Typed.Stmt} {inSwitch : Bool}
    (h : typeReturn cx scopes value span = .ok t) :
    t.WellTyped cx.table.signature scopes.slots cx.returns inSwitch := by
  unfold typeReturn at h
  split at h
  · split at h
    · rename_i hv; cases h; exact Ty.isVoid_iff.mp hv
    · cases h
  · split at h
    · cases h
    rename_i hv
    split at h
    · cases h
    split at h
    · cases h
    rename_i hf
    cases h
    exact fit_fills (typeExpr_wellTyped hnum hs _ _ hv) hf

/-! ## Labels -/

theorem typeLabel_ok {cx : Context} (hnum : cx.table.Numbered) {scopes : Scopes}
    (hs : scopes.Sound) {test : Expr}
    {e : Typed.Expr} {n : Int} (h : typeLabel cx scopes test = .ok (e, n)) :
    e.ty.isIntegral = true ∧ e.ty.Holds n := by
  unfold typeLabel at h
  split at h
  · cases h
  rename_i he
  split at h
  · cases h
  rename_i hi
  obtain ⟨rfl, hi⟩ := needIntegral_ok hi
  split at h
  · cases h
  rename_i hn
  cases h
  exact ⟨hi, Typed.label?_holds (typeExpr_wellTyped hnum hs _ _ he) hn⟩

structure LabelsOk (ls : Labels) (labels : List (Option Int)) (compare : Ty) : Prop where
  integral : compare.isIntegral = true
  widens : ls.compare.widensTo compare = true
  distinct : (labels.filterMap id).Nodup
  inRange : ∀ n ∈ labels.filterMap id, compare.Holds n
  fresh : ∀ n ∈ labels.filterMap id, ls.seen.lookup n = none
  oneDefault : labels.countP Option.isNone ≤ if ls.default?.isSome then 0 else 1

theorem typeLabels_ok {cx : Context} (hnum : cx.table.Numbered) {scopes : Scopes}
    (hs : scopes.Sound) :
    ∀ (cases : List Case) (ls : Labels) (labels : List (Option Int)) (compare : Ty),
      ls.compare.isIntegral = true → typeLabels cx scopes ls cases = .ok (labels, compare) →
      labels.length = cases.length ∧ LabelsOk ls labels compare
  | [], ls, labels, compare, hi, h => by
    simp only [typeLabels] at h
    cases h
    exact ⟨rfl, hi, Ty.widensTo_refl (Ty.isNumeric_of_isIntegral hi), by simp, by simp, by simp,
      by simp⟩
  | c :: cs, ls, labels, compare, hi, h => by
    simp only [typeLabels] at h
    split at h
    · -- the default takes the place of the one that may still come
      split at h
      · cases h
      rename_i hd
      split at h
      · cases h
      rename_i hrest
      cases h
      obtain ⟨hlen, ok⟩ := typeLabels_ok hnum hs cs ⟨ls.seen, some c.span, ls.compare⟩ _ _ hi hrest
      refine ⟨by simp [hlen], ok.integral, ok.widens, by simpa using ok.distinct,
        by simpa using ok.inRange, by simpa using ok.fresh, ?_⟩
      have := ok.oneDefault
      simp only [Option.isSome_some, if_true] at this
      simp only [hd, List.countP_cons, Option.isNone_none, Option.isSome_none, if_true,
        Bool.false_eq_true, if_false]
      omega
    · split at h
      · cases h
      rename_i e n hl
      split at h
      · cases h
      rename_i hfresh
      split at h
      · cases h
      rename_i rest _ hrest
      cases h
      obtain ⟨hei, hen⟩ := typeLabel_ok hnum hs hl
      obtain ⟨j, hj⟩ := Ty.join_isSome (Ty.isNumeric_of_isIntegral hi)
        (Ty.isNumeric_of_isIntegral hei)
      rw [hj, Option.getD_some] at hrest
      obtain ⟨hwl, hwe, -⟩ := Ty.join_widens hj
      obtain ⟨hlen, ok⟩ := typeLabels_ok hnum hs cs _ _ _ (Ty.join_isIntegral hj hi hei) hrest
      have notSeen : ∀ k ∈ rest.filterMap id, k ≠ n ∧ ls.seen.lookup k = none := by
        intro k hk
        have := ok.fresh k hk
        simp only [List.lookup_cons] at this
        split at this
        · cases this
        · rename_i hne; exact ⟨by simpa using hne, this⟩
      refine ⟨by simp [hlen], ok.integral, Ty.widensTo_trans hwl ok.widens, ?_, ?_, ?_, ?_⟩
      · simp only [List.filterMap_cons, id]
        exact List.nodup_cons.mpr ⟨fun hn => (notSeen n hn).1 rfl, ok.distinct⟩
      · simp only [List.filterMap_cons, id, List.mem_cons]
        rintro k (rfl | hk)
        · exact hen.widen (Ty.widensTo_trans hwe ok.widens) ok.integral
        · exact ok.inRange k hk
      · simp only [List.filterMap_cons, id, List.mem_cons]
        rintro k (rfl | hk)
        · exact hfresh
        · exact (notSeen k hk).2
      · simpa using ok.oneDefault

theorem zipWith_labels : ∀ (labels : List (Option Int)) (bodies : List (List Typed.Stmt)),
    labels.length = bodies.length →
      (labels.zipWith Typed.Case.mk bodies).filterMap Typed.Case.label = labels.filterMap id ∧
      (labels.zipWith Typed.Case.mk bodies).countP Typed.Case.isDefault =
        labels.countP Option.isNone
  | [], [], _ => ⟨rfl, rfl⟩
  | l :: ls, b :: bs, h => by
    obtain ⟨h1, h2⟩ := zipWith_labels ls bs (by simpa using h)
    refine ⟨?_, ?_⟩
    · cases l <;> simp [Typed.Case.label, List.filterMap_cons, h1]
    · simp [List.countP_cons, h2, Typed.Case.isDefault, Typed.Case.label]

theorem zipWith_wellTyped {g : Signature} {slots : List Ty} {returns : Ty} :
    ∀ (labels : List (Option Int)) (bodies : List (List Typed.Stmt)),
      (∀ b ∈ bodies, Typed.ListWellTyped g slots returns true b) →
      Typed.CasesWellTyped g slots returns (labels.zipWith .mk bodies)
  | [], _, _ => trivial
  | _ :: _, [], _ => trivial
  | _ :: ls, b :: bs, h =>
    ⟨h b List.mem_cons_self, zipWith_wellTyped ls bs fun c hc => h c (List.mem_cons_of_mem b hc)⟩

theorem trimCases_labels {compare : Ty} {cases : List Typed.Case}
    (h : LabelsFit compare cases) : LabelsFit compare (Typed.trimCases cases) := by
  have hlabels : (Typed.trimCases cases).filterMap Typed.Case.label =
      cases.filterMap Typed.Case.label := by
    simpa only [List.filterMap_map, Function.id_comp] using
      congrArg (List.filterMap id) (Typed.trimCases_label cases)
  have hdefault : (Typed.trimCases cases).countP Typed.Case.isDefault =
      cases.countP Typed.Case.isDefault := by
    have h := congrArg (List.countP Option.isNone) (Typed.trimCases_label cases)
    rwa [List.countP_map, List.countP_map] at h
  exact ⟨hlabels ▸ h.distinct, hlabels ▸ h.inRange, hdefault ▸ h.oneDefault⟩

/-! ## Statements -/

/-- Where typing stands tells nothing about storage. -/
theorem follow_advance {cx : Context} {st st' : State} {reach : Reach} {s : Stmt}
    {completes : Bool} {r : Except (Failure Rejection) Reach}
    (h : follow cx st reach s completes = (r, st')) : Advance st st' := by
  cases reach with
  | live | reported =>
    cases h
    exact .refl st
  | dead =>
    simp only [follow] at h
    split at h
    · cases h
      exact .refl st
    split at h
    · rename_i hr
      cases h
      exact report_advance hr
    · rename_i hr
      cases h
      exact report_advance hr

mutual

theorem keepStmt_wellTyped {cx : Context} (hnum : cx.table.Numbered) : ∀ (s : Stmt)
    (st st' : State) (t : Typed.Stmt) (inSwitch : Bool), st.scopes.Sound →
    (st.depth ≠ 0 → inSwitch = true) → keepStmt cx st s = (.ok t, st') →
    Advance st st' ∧ t.WellTyped cx.table.signature st'.scopes.slots cx.returns inSwitch
  | .block body _, st, st', t, inSwitch, hs, hd, h => by
    simp only [keepStmt] at h
    split at h
    · cases h
    rename_i ts st1 hb
    cases h
    obtain ⟨ha, hw⟩ := keepList_wellTyped hnum body _ _ _ _ inSwitch (Scopes.push_sound hs _)
      (by simpa [State.enter] using hd) hb
    exact ⟨ha.enclose, by simpa [Typed.Stmt.WellTyped, State.exit] using hw⟩
  | .declare ty name init _, st, st', t, inSwitch, hs, _, h => by
    simp only [keepStmt] at h
    exact typeDeclare_wellTyped hnum hs h
  | .expr e _, st, st', t, inSwitch, hs, _, h => by
    simp only [keepStmt] at h
    split at h
    · cases h
    · rename_i he; cases h; exact ⟨.refl st, typeExpr_wellTyped hnum hs e _ he⟩
  | .switch scrutinee cases _, st, st', t, inSwitch, hs, _, h => by
    simp only [keepStmt] at h
    split at h
    · cases h
    rename_i he
    split at h
    · cases h
    rename_i hi
    obtain ⟨rfl, hi⟩ := needIntegral_ok hi
    split at h
    · cases h
    rename_i labels compare hl
    split at h
    · cases h
    rename_i bodies st1 hb
    cases h
    obtain ⟨hlen, ok⟩ := typeLabels_ok hnum hs cases _ _ _ hi hl
    obtain ⟨ha, hlen', hw⟩ := keepBodies_wellTyped hnum cases _ _ _ (Scopes.push_sound hs _)
      (by simp [State.enter]) hb
    obtain ⟨more, hmore⟩ := ha.enclose.slots
    obtain ⟨hlabels, hdefaults⟩ := zipWith_labels labels bodies (by rw [hlen, hlen'])
    refine ⟨ha.enclose, ?_, ok.integral, ⟨?_, ?_, ?_⟩, ?_⟩
    · rw [hmore]
      exact (cast_fills (typeExpr_wellTyped hnum hs scrutinee _ he) ok.widens).append more
    · rw [hlabels]; exact ok.distinct
    · rw [hlabels]; exact ok.inRange
    · rw [hdefaults]; exact ok.oneDefault
    · exact zipWith_wellTyped labels bodies (by simpa [State.exit] using hw)
  | .leave _, st, st', t, inSwitch, _, hd, h => by
    simp only [keepStmt] at h
    split at h
    · cases h
    · rename_i hne; cases h; exact ⟨.refl st, hd hne⟩
  | .ret value span, st, st', t, inSwitch, hs, _, h => by
    simp only [keepStmt, Prod.mk.injEq] at h
    obtain ⟨h, rfl⟩ := h
    exact ⟨.refl st, typeReturn_wellTyped hnum hs h⟩
  | .empty _, st, st', t, inSwitch, _, _, h => by
    simp only [keepStmt] at h
    cases h
    exact ⟨.refl st, trivial⟩

/-- Statements that control cannot get to declare variables all the same. -/
theorem keepList_wellTyped {cx : Context} (hnum : cx.table.Numbered) : ∀ (ss : List Stmt)
    (reach : Reach) (st st' : State)
    (ts : List Typed.Stmt) (inSwitch : Bool), st.scopes.Sound →
    (st.depth ≠ 0 → inSwitch = true) → keepList cx st reach ss = (.ok ts, st') →
    Advance st st' ∧
      Typed.ListWellTyped cx.table.signature st'.scopes.slots cx.returns inSwitch ts
  | [], reach, st, st', ts, inSwitch, _, _, h => by
    simp only [keepList] at h
    cases h
    exact ⟨.refl st, trivial⟩
  | s :: ss, reach, st, st', ts, inSwitch, hs, hd, h => by
    simp only [keepList] at h
    split at h
    · cases h
    rename_i t st1 ht
    split at h
    · cases h
    rename_i reach' st2 hf
    split at h
    · cases h
    rename_i hrest
    cases h
    obtain ⟨ha, hw⟩ := keepStmt_wellTyped hnum s st st1 t inSwitch hs hd ht
    have ha2 := ha.trans (follow_advance hf)
    obtain ⟨ha', hw'⟩ := keepList_wellTyped hnum ss _ st2 _ _ inSwitch (ha2.sound hs)
      (by rw [ha2.depth]; exact hd) hrest
    obtain ⟨more, hmore⟩ := ((follow_advance hf).trans ha').slots
    exact ⟨ha2.trans ha', by rw [hmore]; exact hw.append more, hw'⟩

theorem keepBodies_wellTyped {cx : Context} (hnum : cx.table.Numbered) : ∀ (cs : List Case)
    (st st' : State) (bodies : List (List Typed.Stmt)), st.scopes.Sound → st.depth ≠ 0 →
    keepBodies cx st cs = (.ok bodies, st') →
    Advance st st' ∧ cs.length = bodies.length ∧
      ∀ b ∈ bodies, Typed.ListWellTyped cx.table.signature st'.scopes.slots cx.returns true b
  | [], st, st', bodies, _, _, h => by
    simp only [keepBodies] at h
    cases h
    exact ⟨.refl st, rfl, by simp⟩
  | .mk _ body _ :: cs, st, st', bodies, hs, hd, h => by
    simp only [keepBodies] at h
    split at h
    · cases h
    rename_i b st1 hb
    split at h
    · cases h
    rename_i bs st2 hrest
    cases h
    obtain ⟨ha, hw⟩ := keepList_wellTyped hnum body _ _ _ _ true hs (fun _ => rfl) hb
    obtain ⟨ha', hlen, hw'⟩ := keepBodies_wellTyped hnum cs _ _ _ (ha.sound hs)
      (by rw [ha.depth]; exact hd) hrest
    obtain ⟨more, hmore⟩ := ha'.slots
    refine ⟨ha.trans ha', by simp [hlen], fun c hc => ?_⟩
    obtain rfl | hc := List.mem_cons.mp hc
    · rw [hmore]; exact Typed.ListWellTyped.append more _ hw
    · exact hw' c hc

end

mutual

theorem trim_wellTyped {g : Signature} {slots : List Ty} {returns : Ty} : ∀ (t : Typed.Stmt)
    {inSwitch : Bool}, t.WellTyped g slots returns inSwitch →
    t.trim.WellTyped g slots returns inSwitch
  | .block body, _, h => trimList_wellTyped body h
  | .declare _ _, _, h => h
  | .expr _, _, h => h
  | .switch _ _ cases, _, ⟨hscr, hi, hlabels, hcases⟩ =>
    ⟨hscr, hi, trimCases_labels hlabels, trimCases_wellTyped cases hcases⟩
  | .leave, _, h => h
  | .ret none, _, h => h
  | .ret (some _), _, h => h

theorem trimList_wellTyped {g : Signature} {slots : List Ty} {returns : Ty} :
    ∀ (ts : List Typed.Stmt) {inSwitch : Bool},
    Typed.ListWellTyped g slots returns inSwitch ts →
    Typed.ListWellTyped g slots returns inSwitch (Typed.trimList ts)
  | [], _, h => h
  | t :: ts, _, ⟨ht, hts⟩ => by
    refine ⟨trim_wellTyped t ht, ?_⟩
    split
    · exact trimList_wellTyped ts hts
    · trivial

theorem trimCases_wellTyped {g : Signature} {slots : List Ty} {returns : Ty} :
    ∀ (cs : List Typed.Case), Typed.CasesWellTyped g slots returns cs →
    Typed.CasesWellTyped g slots returns (Typed.trimCases cs)
  | [], h => h
  | .mk _ body :: cs, ⟨hbody, hcs⟩ =>
    ⟨trimList_wellTyped body hbody, trimCases_wellTyped cs hcs⟩

end

/-- Dropped statements leave their declarations behind, so storage grows whether or not control
can reach them. -/
theorem typeList_wellTyped {cx : Context} (hnum : cx.table.Numbered) (ss : List Stmt)
    (reach : Reach) (st st' : State)
    (ts : List Typed.Stmt) (inSwitch : Bool) (hs : st.scopes.Sound)
    (hd : st.depth ≠ 0 → inSwitch = true) (h : typeList cx st reach ss = (.ok ts, st')) :
    Advance st st' ∧
      Typed.ListWellTyped cx.table.signature st'.scopes.slots cx.returns inSwitch ts := by
  obtain ⟨whole, hk, rfl⟩ := typeList_of_ok h
  obtain ⟨ha, hw⟩ := keepList_wellTyped hnum ss reach st st' whole inSwitch hs hd hk
  refine ⟨ha, ?_⟩
  cases reach with
  | live => exact trimList_wellTyped whole hw
  | dead | reported => trivial

end Typing
end Cascade
