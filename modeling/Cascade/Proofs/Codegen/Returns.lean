import Cascade.Proofs.Codegen.Carries
import Cascade.Proofs.Codegen.Program
import Cascade.Proofs.Typing.Faults

/-!
# Cascade.Proofs.Codegen.Returns

Whether a body completes is read off its tree; whether control gets to the end of its code is a
question about a graph. They have one answer.

* `typeBody_exact`: the code of a typed body can be made, and the body completes exactly if the
  search that pruning uses finds the end of the code.
* `completes_exact`: so a method is rejected for its end exactly if its graph has a way there.
-/

namespace Cascade.Codegen

open Code Typing

/-- A typed body completes exactly if, once its code is made, the current block is still open and
the search from the entry finds it. -/
theorem typeBody_exact {cx : Context} (hnum : cx.table.Numbered) {p : Typed.Program}
    (hp : p.signature = cx.table.signature) {ss : List Syntax.Stmt} {body : List Typed.Stmt}
    {st : State} (h : typeBody cx (.start cx.settings) ss = (.ok body, st)) (id : FunctionId)
    (name : String) (span : Span) :
    ∃ b, lowerList p [] body (.start (st.scopes.locals.map namedLocal)) = .ok ((), b) ∧
      (Typed.allComplete body = true ↔
        b.isClosed = false ∧ b.current ∈ (b.function id name cx.returns span).reachable) := by
  have hstart : (State.start cx.settings).scopes.Sound := Scopes.start_sound _
  obtain ⟨hadvance, hw⟩ := typeList_wellTyped hnum ss .live (.start cx.settings) st body false
    hstart (fun hd => absurd rfl hd) h
  have hslots : (st.scopes.locals.map namedLocal).map Code.Local.ty = st.scopes.slots := by
    simp [Scopes.slots, namedLocal, Function.comp_def]
  have hs : (Draft.start (st.scopes.locals.map namedLocal)).Sound p.signature cx.returns :=
    .start fun l hl => (hadvance.sound hstart).numeric _ (hslots ▸ List.mem_map_of_mem hl)
  have hg := Draft.Grounded.start (st.scopes.locals.map namedLocal)
  have hk := hslots ▸ knows_start (st.scopes.locals.map namedLocal)
  have hx : Exits [] false (.start (st.scopes.locals.map namedLocal)) :=
    ⟨fun h => (by cases h), fun k hk => (by cases hk)⟩
  rw [← hp] at hw
  obtain ⟨d, hrun, hpass⟩ := genList_passes rfl body hw hs hk hx
  have hcarry := genList_carries rfl body hw (typeBody_trimmed h) hs hg hk hx hrun
  have hsd := hpass.makes.sound hs
  have hruns : Typed.allComplete body = true ↔ d.b.Runs :=
    ⟨hcarry.runs ⟨rfl, .entry⟩,
      fun hr => (hpass.running ((hsd.running_iff (hpass.makes.grounded hg)).mpr hr)).2⟩
  refine ⟨d.b, ?_, hruns.trans (and_congr_right fun _ => Builder.reaches_iff hsd.numbered)⟩
  rw [lowerBody_eq, show genList p [] (.start _) body = .ok d.b from hrun]
  rfl

/-- The check for a missing return agrees with the graph of the method. Whatever body is typed, it
completes exactly if its code has an open end that control gets to from the entry; and a method of
a program is rejected for its end exactly if it has to give a value, its body is typed and its code
has such an end. The code may be made for any program with the members that the table describes. -/
theorem completes_exact {table : Catalog} (hnum : table.Numbered) (settings : Settings)
    (info : MemberEntry) (d : Syntax.MethodDecl) {p : Typed.Program}
    (hp : p.signature = table.signature) :
    (∀ body st, typeBody ⟨table, settings, info.owner, info.ty⟩ (.start settings) d.body =
        (.ok body, st) →
      ∃ b, lowerList p [] body (.start (st.scopes.locals.map namedLocal)) = .ok ((), b) ∧
        (Typed.allComplete body = true ↔ b.isClosed = false ∧
          b.current ∈ (b.function info.id info.name info.ty d.span).reachable)) ∧
    (∀ q, Catalog.build q = .ok table → table.memberAt .method info.id = .ok info →
      ∃ name, table.memberName .method info.id = .ok name ∧
        (typeMethod table settings info.id d =
            .error (.rejected (.missingReturn name info.ty d.name.span)) ↔
          info.ty ≠ .void ∧ ∃ body st b,
            typeBody ⟨table, settings, info.owner, info.ty⟩ (.start settings) d.body =
              (.ok body, st) ∧
            lowerList p [] body (.start (st.scopes.locals.map namedLocal)) = .ok ((), b) ∧
            b.isClosed = false ∧
            b.current ∈ (b.function info.id info.name info.ty d.span).reachable)) := by
  refine ⟨fun body st h => typeBody_exact hnum hp h info.id info.name d.span, fun q hq hinfo => ?_⟩
  obtain ⟨hlt, -⟩ := List.getElem?_eq_some_iff.mp (Catalog.memberAt_ok.mp hinfo)
  obtain ⟨name, hname⟩ := Catalog.memberName_exists (k := .method) hq hlt
  refine ⟨name, hname, ?_⟩
  rw [typeMethod_missingReturn hq settings hinfo hname]
  refine and_congr_right fun _ => ⟨?_, ?_⟩
  · rintro ⟨body, st, h, hc⟩
    obtain ⟨b, hb, hiff⟩ := typeBody_exact hnum hp h info.id info.name d.span
    exact ⟨body, st, b, h, hb, hiff.mp hc⟩
  · rintro ⟨body, st, b, h, hb, hend⟩
    obtain ⟨b', hb', hiff⟩ := typeBody_exact hnum hp h info.id info.name d.span
    rw [hb] at hb'
    cases hb'
    exact ⟨body, st, h, hiff.mpr hend⟩

open Syntax.Build in
/-- A method with a `break` out of a switch all of whose other ways return. -/
def escaping : Syntax.MethodDecl :=
  method .int "pick"
    [switch (int 1)
      [case (int 1) [block [leave]], case (int 2) [], otherwise [ret (int 5)]]]

/-- The end behind the switch is found in the graph, so the method is rejected. -/
theorem escaping_completes_exact :
    let q : Syntax.Program := Syntax.Build.withMethod (Syntax.Build.emptyClass "Main") escaping
    let info : MemberEntry := ⟨0, "pick", .int, 0, .zero⟩
    let p : Typed.Program := ⟨"Main", [], [⟨0, "Main.pick", .int, [], [], .zero⟩], 0⟩
    ∃ table, Catalog.build q = .ok table ∧ table.memberAt .method 0 = .ok info ∧
      p.signature = table.signature ∧
      (∃ body st b,
        typeBody ⟨table, .default, 0, .int⟩ (.start .default) escaping.body = (.ok body, st) ∧
        lowerList p [] body (.start (st.scopes.locals.map namedLocal)) = .ok ((), b) ∧
        b.isClosed = false ∧ b.current ∈ (b.function 0 "pick" .int .zero).reachable) ∧
      typeMethod table .default 0 escaping =
        .error (.rejected (.missingReturn "Main.pick" .int .zero)) := by
  intro q info p
  obtain ⟨hbody, hmethod⟩ := completes_exact (Catalog.build_indexed (p := q) rfl).memberIds
    .default info escaping (p := p) rfl
  obtain ⟨b, hb, hiff⟩ := hbody _ _ rfl
  have hend := hiff.mp rfl
  obtain ⟨name, hname, hiff⟩ := hmethod q rfl rfl
  cases hname
  exact ⟨_, rfl, rfl, rfl, ⟨_, _, b, rfl, hb, hend⟩, hiff.mpr ⟨nofun, _, _, b, rfl, hb, hend⟩⟩

end Cascade.Codegen
