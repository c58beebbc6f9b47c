import Cascade.Proofs.Catalog
import Cascade.Proofs.Typed.WellTyped
import Cascade.Typing.Expr

/-!
# Cascade.Proofs.Typing.Expr

What typing of expressions accepts is well typed.

* `Scopes.Sound`: every visible binding describes the storage that its slot has.
* `typeExpr_wellTyped`: the typed expression is well typed against the class table and the local
  variables declared so far.
-/

namespace Cascade

open Syntax

def Catalog.signature (t : Catalog) : Signature :=
  ⟨t.fields.map MemberEntry.ty, t.methods.map MemberEntry.ty⟩

namespace Catalog

variable {t : Catalog} {k : MemberKind} {i : Nat} {e : MemberEntry}

theorem signature_field (h : t.memberAt .field i = .ok e) :
    t.signature.fields[i]? = some e.ty := by
  have hat := memberAt_ok.mp h
  rw [members] at hat
  rw [signature, List.getElem?_map, hat]
  rfl

theorem signature_method (h : t.memberAt .method i = .ok e) :
    t.signature.methods[i]? = some e.ty := by
  have hat := memberAt_ok.mp h
  rw [members] at hat
  rw [signature, List.getElem?_map, hat]
  rfl

end Catalog

namespace Scopes

/-- All bindings of open scopes, from the innermost scope outwards. -/
def visible (s : Scopes) : List Binding := (s.inner :: s.outer).flatMap Scope.bindings

def slots (s : Scopes) : List Ty := s.locals.map Local.ty

/-- Every visible binding tells the name, type and place of what its slot stores, and only numbers
are stored. -/
structure Sound (s : Scopes) : Prop where
  visible : ∀ b ∈ s.visible, s.locals[b.slot]? = some ⟨b.name, b.ty, b.span⟩
  numeric : ∀ t ∈ s.slots, t.isNumeric = true

theorem lookupIn_mem {name : String} {b : Binding} : ∀ {ss : List Scope},
    lookupIn name ss = some b → b ∈ ss.flatMap Scope.bindings := by
  intro ss
  induction ss with
  | nil =>
    intro h
    cases h
  | cons s ss ih =>
    intro h
    simp only [lookupIn] at h
    split at h
    · rename_i c hc
      cases h
      exact List.mem_flatMap.mpr ⟨s, List.mem_cons_self, List.mem_of_find?_eq_some hc⟩
    · obtain ⟨t, ht, hb⟩ := List.mem_flatMap.mp (ih h)
      exact List.mem_flatMap.mpr ⟨t, List.mem_cons_of_mem s ht, hb⟩

theorem Sound.lookup {s : Scopes} (hs : s.Sound) {name : String} {b : Binding}
    (h : s.lookup name = some b) : s.slots[b.slot]? = some b.ty := by
  simp [slots, hs.visible b (lookupIn_mem h)]

end Scopes

namespace Typing

open Typed (Place placeTy?)

section

variable {cx : Context} {scopes : Scopes} {place : Place} {t : Ty}

theorem resolveName_place (ht : cx.table.Numbered) (hs : scopes.Sound) {id : Ident}
    (h : resolveName cx scopes id = .ok (place, t)) :
    placeTy? cx.table.signature scopes.slots place = some t := by
  unfold resolveName at h
  split at h
  · rename_i hb
    cases h
    exact hs.lookup hb
  split at h
  · cases h
  · rename_i hf
    cases h
    exact Catalog.signature_field (Catalog.lookup_entry ht hf).2
  · cases h

theorem resolvePath_place {slots : List Ty} {p : Path} (h : resolvePath cx p = .ok (place, t)) :
    placeTy? cx.table.signature slots place = some t := by
  unfold resolvePath at h
  split at h
  · cases h
  split at h
  · cases h
  · rename_i hf
    cases h
    exact Catalog.signature_field hf

theorem typeTarget_place (ht : cx.table.Numbered) (hs : scopes.Sound) {target : Expr}
    (h : typeTarget cx scopes target = .ok (place, t)) :
    placeTy? cx.table.signature scopes.slots place = some t := by
  unfold typeTarget at h
  split at h
  · exact resolveName_place ht hs h
  · exact resolvePath_place h
  · cases h

end

theorem needValue_ok {e e' : Typed.Expr} (h : needValue e = .ok e') :
    e' = e ∧ e.ty.isNumeric = true := by
  unfold needValue at h
  split at h
  · cases h
  · rename_i hn; cases h; exact ⟨rfl, (Ty.needValue_ok hn).2⟩

theorem needIntegral_ok {e e' : Typed.Expr} (h : needIntegral e = .ok e') :
    e' = e ∧ e.ty.isIntegral = true := by
  unfold needIntegral at h
  split at h
  · cases h
  rename_i hn
  obtain ⟨rfl, -⟩ := needValue_ok hn
  split at h
  · cases h; exact ⟨rfl, ‹_›⟩
  · cases h

section

variable {g : Signature} {slots : List Ty}

theorem cast_ty (e : Typed.Expr) (t : Ty) : (e.cast t).ty = t := by
  unfold Typed.Expr.cast
  split
  · assumption
  · rfl

theorem cast_wellTyped {e : Typed.Expr} {t : Ty} (h : e.WellTyped g slots)
    (hc : e.ty ≠ t → e.Converts t) : (e.cast t).WellTyped g slots := by
  unfold Typed.Expr.cast
  split
  · exact h
  · rename_i hne; exact .convert h (hc hne)

theorem cast_fills {e : Typed.Expr} {t : Ty} (h : e.WellTyped g slots)
    (hw : e.ty.widensTo t = true) : (e.cast t).Fills g slots t :=
  ⟨cast_wellTyped h fun hne => ⟨hne, .inl hw⟩, cast_ty e t, (Ty.isNumeric_of_widensTo hw).2⟩

theorem fit_fills {settings : Settings} {e e' : Typed.Expr} {t : Ty} (hw : e.WellTyped g slots)
    (h : fit settings e t = .ok e') : e'.Fills g slots t := by
  unfold fit at h
  split at h
  · cases h
  rename_i hb
  cases h
  obtain ⟨-, ht, hcase⟩ := Coercion.between_ok hb
  refine ⟨cast_wellTyped hw fun hne => ⟨hne, ?_⟩, cast_ty e t, ht⟩
  obtain heq | hrest := hcase
  · exact absurd heq hne
  · exact hrest

theorem withSpan_wellTyped (s : Span) {e : Typed.Expr} (h : e.WellTyped g slots) :
    (e.withSpan s).WellTyped g slots := by
  cases h with
  | const => exact .const
  | load hp => exact .load hp
  | convert he hc => exact .convert he hc
  | unary he hn => exact .unary he hn
  | binary hl hr ht hn => exact .binary hl hr ht hn
  | logical hl hr hnl hnr => exact .logical hl hr hnl hnr
  | update hp hi => exact .update hp hi
  | assign hp he hn => exact .assign hp he hn
  | call hm => exact .call hm
  | print he hn => exact .print he hn
  | printBlank => exact .printBlank

theorem typeSign_wellTyped {op : SignOp} {e e' : Typed.Expr} {span : Span}
    (hw : e.WellTyped g slots) (h : typeSign op e span = .ok e') : e'.WellTyped g slots := by
  unfold typeSign at h
  split at h
  · cases h
  rename_i ty hty
  obtain ⟨hn, hop⟩ := Ty.signResult_ok hty
  cases op with
  | plus => cases h; exact withSpan_wellTyped span hw
  | minus => cases h; obtain rfl : ty = e.ty := hop; exact .unary hw hn
  | not => cases h; obtain rfl : ty = Ty.truth := hop; exact .unary hw hn

theorem typeBinary_wellTyped {op : BinaryOp} {l r e : Typed.Expr} {span : Span}
    (hl : l.WellTyped g slots) (hr : r.WellTyped g slots)
    (h : typeBinary op l r span = .ok e) : e.WellTyped g slots := by
  unfold typeBinary at h
  split at h
  · cases h
  rename_i operand result hres
  cases h
  obtain ⟨hj, hresult⟩ := Ty.binaryResult_ok hres
  obtain ⟨hwl, hwr, -⟩ := Ty.join_widens hj
  obtain ⟨hl', htl, hn⟩ := cast_fills hl hwl
  obtain ⟨hr', htr, -⟩ := cast_fills hr hwr
  have hb : Typed.Expr.WellTyped g slots (.binary op (l.cast operand) (r.cast operand)
      (Scalar.binaryTy op (l.cast operand).ty) span) :=
    .binary hl' hr' (htl.trans htr.symm) (by rw [htl]; exact hn)
  rw [htl] at hb
  subst hresult
  exact hb

end

mutual

theorem typeExpr_wellTyped {cx : Context} (ht : cx.table.Numbered) {scopes : Scopes}
    (hs : scopes.Sound) :
    ∀ (e : Expr) (t : Typed.Expr), typeExpr cx scopes e = .ok t →
      t.WellTyped cx.table.signature scopes.slots
  | .int n suffixed span, t, h => by simp only [typeExpr] at h; cases h; exact .const
  | .float x span, t, h => by simp only [typeExpr] at h; cases h; exact .const
  | .name id, t, h => by
    simp only [typeExpr] at h
    split at h
    · cases h
    · rename_i hp; cases h; exact .load (resolveName_place ht hs hp)
  | .path p, t, h => by
    simp only [typeExpr] at h
    split at h
    · cases h
    · rename_i hp; cases h; exact .load (resolvePath_place hp)
  | .sign op operand span, t, h => by
    simp only [typeExpr] at h
    split at h
    · cases h
    · rename_i he; exact typeSign_wellTyped (typeExpr_wellTyped ht hs operand _ he) h
  | .update op before target span, t, h => by
    simp only [typeExpr] at h
    split at h
    · cases h
    rename_i hp
    split at h
    · cases h
    rename_i hu
    cases h
    obtain ⟨rfl, hi⟩ := Ty.updateResult_ok hu
    exact .update (typeTarget_place ht hs hp) hi
  | .binary op left right span, t, h => by
    simp only [typeExpr] at h
    split at h
    · cases h
    rename_i hl
    split at h
    · cases h
    rename_i hr
    exact typeBinary_wellTyped (typeExpr_wellTyped ht hs left _ hl)
      (typeExpr_wellTyped ht hs right _ hr) h
  | .logical op left right span, t, h => by
    simp only [typeExpr] at h
    split at h
    · cases h
    rename_i hl
    split at h
    · cases h
    rename_i hnl
    split at h
    · cases h
    rename_i hr
    split at h
    · cases h
    rename_i hnr
    cases h
    obtain ⟨rfl, hnl⟩ := needValue_ok hnl
    obtain ⟨rfl, hnr⟩ := needValue_ok hnr
    exact .logical (typeExpr_wellTyped ht hs left _ hl) (typeExpr_wellTyped ht hs right _ hr) hnl
      hnr
  | .assign target value span, t, h => by
    simp only [typeExpr] at h
    split at h
    · cases h
    rename_i hp
    split at h
    · cases h
    rename_i hv
    split at h
    · cases h
    rename_i hf
    cases h
    obtain ⟨hw, rfl, hn⟩ := fit_fills (typeExpr_wellTyped ht hs value _ hv) hf
    exact .assign (typeTarget_place ht hs hp) hw hn
  | .call callee args span, t, h => by
    simp only [typeExpr] at h
    split at h
    · cases h
    · unfold typeMethodCall at h
      split at h
      · cases h
      rename_i hm
      split at h
      · cases h; exact .call (Catalog.signature_method hm)
      · split at h
        · cases h
        · cases h
    · exact typePrint_wellTyped ht hs span args t h
  | .paren inner _, t, h => by
    simp only [typeExpr] at h
    exact typeExpr_wellTyped ht hs inner t h

theorem typePrint_wellTyped {cx : Context} (ht : cx.table.Numbered) {scopes : Scopes}
    (hs : scopes.Sound) (span : Span) :
    ∀ (args : List Expr) (t : Typed.Expr), typePrint cx scopes span args = .ok t →
      t.WellTyped cx.table.signature scopes.slots
  | [], t, h => by simp only [typePrint] at h; cases h; exact .printBlank
  | [arg], t, h => by
    simp only [typePrint] at h
    split at h
    · cases h
    rename_i hv
    split at h
    · cases h
    rename_i hn
    cases h
    obtain ⟨rfl, hn⟩ := needValue_ok hn
    exact .print (typeExpr_wellTyped ht hs arg _ hv) hn
  | _ :: _ :: _, t, h => by simp only [typePrint] at h; cases h

end

end Typing
end Cascade
