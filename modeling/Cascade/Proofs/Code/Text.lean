import Cascade.Code.Text
import Mathlib.Data.List.Basic

/-!
# Cascade.Proofs.Code.Text

Reading printed code back. A line is a row of words with a blank between any two, and a word is a
stem without digits, behind which a number and a tail may stand.

* `lineText_injective`: the words of a line can be told from its text.
* `Instr.ofWords?_words`, `Terminator.ofWords?_words`: instructions and terminators can be told
  from the words of their lines.
* `lines_unambiguous`: no two lines have one text, apart from constants of type `double`.
-/

namespace Cascade.Code

/-! ## Words -/

/-- Where a text stops having a property, it can be taken apart in one way only. -/
theorem append_inj_of_head {p : Char → Bool} {u v r s : List Char} (hu : ∀ c ∈ u, p c = true)
    (hv : ∀ c ∈ v, p c = true) (hr : ∀ c ∈ r.head?, p c = false)
    (hs : ∀ c ∈ s.head?, p c = false) (h : u ++ r = v ++ s) : u = v ∧ r = s := by
  have hfront {l t : List Char} (hl : ∀ c ∈ l, p c = true) (ht : ∀ c ∈ t.head?, p c = false) :
      (l ++ t).takeWhile p = l := by
    rw [List.takeWhile_append_of_pos hl]
    cases t with
    | nil => simp
    | cons c t => simp [ht c rfl]
  have huv : u = v := by rw [← hfront hu hr, h, hfront hv hs]
  exact ⟨huv, List.append_cancel_left (huv ▸ h)⟩

inductive Word where
  | plain (stem : String)
  | numbered (stem : String) (number : Nat) (tail : String)
  deriving DecidableEq

namespace Word

def stem : Word → String
  | plain s => s
  | numbered s _ _ => s

/-- The number and the tail. -/
def rest : Word → List Char
  | plain _ => []
  | numbered _ n t => Nat.toDigits 10 n ++ t.toList

def text : Word → String
  | plain s => s
  | numbered s n t => s ++ toString n ++ t

@[simp] theorem text_plain (s : String) : (plain s).text = s := rfl

@[simp] theorem text_numbered (s : String) (n : Nat) (t : String) :
    (numbered s n t).text = s ++ toString n ++ t := rfl

theorem toList_text (w : Word) : w.text.toList = w.stem.toList ++ w.rest := by
  cases w <;> simp [stem, rest]

/-- Neither blanks nor digits are in a stem. -/
def IsStem (s : String) : Prop := ∀ c ∈ s.toList, c ≠ ' ' ∧ c.isDigit = false

def IsTail (t : String) : Prop := ' ' ∉ t.toList ∧ ∀ c ∈ t.toList.head?, c.isDigit = false

-- Both walk the text; instance search may prefer to walk all characters there are.
instance (s : String) : Decidable (IsStem s) := List.decidableBAll _ s.toList

instance (t : String) : Decidable (IsTail t) :=
  @instDecidableAnd _ _ inferInstance (Option.decidableForallMem t.toList.head?)

def Legible : Word → Prop
  | plain s => IsStem s
  | numbered s _ t => IsStem s ∧ IsTail t

instance : (w : Word) → Decidable w.Legible
  | plain s => inferInstanceAs (Decidable (IsStem s))
  | numbered s _ t => inferInstanceAs (Decidable (IsStem s ∧ IsTail t))

@[simp] theorem legible_plain {s : String} : (plain s).Legible ↔ IsStem s := Iff.rfl

@[simp] theorem legible_numbered {s : String} {n : Nat} {t : String} :
    (numbered s n t).Legible ↔ IsStem s ∧ IsTail t := Iff.rfl

theorem Legible.stem {w : Word} (h : w.Legible) : IsStem w.stem := by
  cases w with
  | plain s => exact h
  | numbered s n t => exact h.1

theorem isDigit_of_mem {n : Nat} : ∀ c ∈ Nat.toDigits 10 n, c.isDigit = true := fun _ hc =>
  Nat.isDigit_of_mem_toDigits (by decide) (by decide) hc

theorem isDigit_of_head {w : Word} : ∀ c ∈ w.rest.head?, c.isDigit = true := by
  intro c hc
  cases w with
  | plain s => simp [rest] at hc
  | numbered s n t =>
    rw [rest, List.head?_append_of_ne_nil _ Nat.toDigits_ne_nil] at hc
    exact isDigit_of_mem c (List.mem_of_mem_head? hc)

/-- A stem ends at the first digit, and a number at the next character that is none. -/
theorem text_injective {w v : Word} (hw : w.Legible) (hv : v.Legible) (h : w.text = v.text) :
    w = v := by
  have hchars : w.stem.toList ++ w.rest = v.stem.toList ++ v.rest := by
    rw [← toList_text, ← toList_text, h]
  obtain ⟨hstem, hrest⟩ := append_inj_of_head (p := fun c => !c.isDigit)
    (fun c hc => by simp [(hw.stem c hc).2]) (fun c hc => by simp [(hv.stem c hc).2])
    (fun c hc => by simp [isDigit_of_head c hc]) (fun c hc => by simp [isDigit_of_head c hc]) hchars
  rw [String.toList_inj] at hstem
  cases w with
  | plain s =>
    cases v with
    | plain s' => exact congrArg plain hstem
    | numbered s' n t => simp [rest, Nat.toDigits_ne_nil] at hrest
  | numbered s n t =>
    cases v with
    | plain s' => simp [rest, Nat.toDigits_ne_nil] at hrest
    | numbered s' m t' =>
      obtain ⟨hnumber, htail⟩ :=
        append_inj_of_head isDigit_of_mem isDigit_of_mem hw.2.2 hv.2.2 hrest
      obtain rfl : n = m := by
        rw [← Nat.ofDigitChars_ten_toDigits (n := n), hnumber, Nat.ofDigitChars_ten_toDigits]
      obtain rfl : t = t' := String.toList_inj.mp htail
      exact congrArg (numbered · n t) hstem

theorem Legible.blankless {w : Word} (h : w.Legible) :
    ∀ c ∈ w.text.toList, (c != ' ') = true := by
  intro c hc
  rw [toList_text, List.mem_append] at hc
  rw [bne_iff_ne]
  obtain hc | hc := hc
  · exact (h.stem c hc).1
  · rintro rfl
    cases w with
    | plain s => simp [rest] at hc
    | numbered s n t =>
      obtain hc | hc := List.mem_append.mp hc
      · exact absurd (isDigit_of_mem _ hc) (by decide)
      · exact h.2.1 hc

end Word

/-! ## Lines -/

def spaced (ws : List Word) : List Char := ws.flatMap fun w => ' ' :: w.text.toList

@[simp] theorem spaced_nil : spaced [] = [] := rfl

@[simp] theorem spaced_cons (w : Word) (ws : List Word) :
    spaced (w :: ws) = ' ' :: (w.text.toList ++ spaced ws) := rfl

@[simp] theorem spaced_append (ws vs : List Word) : spaced (ws ++ vs) = spaced ws ++ spaced vs :=
  List.flatMap_append

theorem spaced_head {ws : List Word} : ∀ c ∈ (spaced ws).head?, (c != ' ') = false := by
  cases ws <;> simp

/-- The first word goes as far as the next blank, whatever the others look like. -/
theorem spaced_cons_inj {w v : Word} {ws vs : List Word} (hw : w.Legible) (hv : v.Legible)
    (h : spaced (w :: ws) = spaced (v :: vs)) : w = v ∧ spaced ws = spaced vs := by
  obtain ⟨hword, hrest⟩ := append_inj_of_head hw.blankless hv.blankless spaced_head spaced_head
    (List.cons.inj h).2
  exact ⟨Word.text_injective hw hv (String.toList_inj.mp hword), hrest⟩

theorem spaced_injective {ws vs : List Word} (hws : ∀ w ∈ ws, w.Legible)
    (hvs : ∀ v ∈ vs, v.Legible) (h : spaced ws = spaced vs) : ws = vs := by
  induction ws generalizing vs with
  | nil =>
    cases vs with
    | nil => rfl
    | cons v vs => simp at h
  | cons w ws ih =>
    cases vs with
    | nil => simp at h
    | cons v vs =>
      obtain ⟨hw, hws⟩ := List.forall_mem_cons.mp hws
      obtain ⟨hv, hvs⟩ := List.forall_mem_cons.mp hvs
      obtain ⟨hword, hrest⟩ := spaced_cons_inj hw hv h
      rw [hword, ih hws hvs hrest]

/-! ## The words of a line of code -/

def Register.wordAfter (sign : String) (r : Register) : Word :=
  .numbered (sign ++ "r") r.id (":" ++ r.ty.text)

def Register.word (r : Register) : Word := r.wordAfter ""

def blockWord (b : BlockId) (tail : String) : Word := .numbered "bb" b tail

def callWord (f : FunctionId) : Word := .numbered "fn" f "()"

def integerWord (n : Int) (mark : String) : Word :=
  .numbered (if n < 0 then "-" else "") n.natAbs mark

/-- The text of a double is left whole, since it is not read back. -/
def constantWord : Scalar → Word
  | .short v => integerWord v.toInt (constantMark .short)
  | .int v => integerWord v.toInt (constantMark .int)
  | .long v => integerWord v.toInt (constantMark .long)
  | .double v => .plain (Double.text v)

def Instr.words : Instr → List Word
  | .const d v => [d.word, .plain "=", constantWord v]
  | .copy d r => [d.word, .plain "=", r.word]
  | .binary d op l r => [d.word, .plain "=", l.word, .plain op.symbol, r.word]
  | .unary d op r => [d.word, .plain "=", r.wordAfter op.symbol]
  | .convert d r => [d.word, .plain "=", .plain "convert", r.word]
  | .loadLocal d i => [d.word, .plain "=", .plain "load_local", .numbered "l" i ""]
  | .storeLocal i r => [.plain "store_local", .numbered "l" i ",", r.word]
  | .loadField d f => [d.word, .plain "=", .plain "load_field", .numbered "f" f ""]
  | .storeField f r => [.plain "store_field", .numbered "f" f ",", r.word]
  | .call (some d) f => [d.word, .plain "=", .plain "call", callWord f]
  | .call none f => [.plain "call", callWord f]
  | .print (some r) => [.plain "println", r.word]
  | .print none => [.plain "println"]

def caseWords (c : Int × BlockId) : List Word :=
  [integerWord c.1 "", .plain "->", blockWord c.2 ","]

def defaultWords (d : BlockId) : List Word :=
  [.plain "default", .plain "->", blockWord d "", .plain "\x7d"]

def Terminator.words : Terminator → List Word
  | .jump b => [.plain "goto", blockWord b ""]
  | .branch c y n =>
    [.plain "if", c.word, .plain "then", blockWord y "", .plain "else", blockWord n ""]
  | .ret (some r) => [.plain "return", r.word]
  | .ret none => [.plain "return"]
  | .switch r cases d =>
    .plain "switch" :: r.word :: .plain "\x7b" :: (cases.flatMap caseWords ++ defaultWords d)
  | .unreachable => [.plain "unreachable"]

@[simp] theorem Register.text_wordAfter (sign : String) (r : Register) :
    (r.wordAfter sign).text = sign ++ r.text := by
  simp [wordAfter, text, String.append_assoc]

@[simp] theorem Register.text_word (r : Register) : r.word.text = r.text := by
  simp [word]

@[simp] theorem text_blockWord (b : BlockId) (tail : String) :
    (blockWord b tail).text = blockName b ++ tail := rfl

@[simp] theorem text_callWord (f : FunctionId) : (callWord f).text = functionName f ++ "()" := rfl

@[simp] theorem text_integerWord (n : Int) (mark : String) :
    (integerWord n mark).text = toString n ++ mark := by
  obtain n | n := n
  · simp [integerWord]
    rfl
  · simp [integerWord]
    rfl

@[simp] theorem text_constantWord (v : Scalar) : (constantWord v).text = constantText v := by
  cases v <;> simp [constantWord, constantText, constantMark, Scalar.text, Scalar.ty]

theorem Instr.spaced_words (i : Instr) : spaced i.words = ' ' :: i.text.toList := by
  cases i with
  | call d f => cases d <;> simp [words, text]
  | print r => cases r <;> simp [words, text]
  | _ => simp [words, text]

theorem spaced_cases (cases : List (Int × BlockId)) :
    spaced (cases.flatMap caseWords) = (String.join (cases.map caseText)).toList := by
  induction cases with
  | nil => rfl
  | cons c cs ih => simp [caseWords, caseText, ih]

theorem Terminator.spaced_words (t : Terminator) : spaced t.words = ' ' :: t.text.toList := by
  cases t with
  | ret r => cases r <;> simp [words, text]
  | switch r cases d => simp [words, text, spaced_cases, defaultWords]
  | _ => simp [words, text]

/-! ## Legible words -/

/-- The instruction is no constant of type `double`. -/
def Instr.DoubleFree (i : Instr) : Prop := ∀ d x, i ≠ .const d (.double x)

@[simp] theorem Register.legible_wordAfter {sign : String} {r : Register} :
    (r.wordAfter sign).Legible ↔ Word.IsStem sign := by
  have htail : Word.IsTail (":" ++ r.ty.text) := by cases r.ty <;> decide
  have hr : Word.IsStem "r" := by decide
  simp only [wordAfter, Word.legible_numbered, htail, and_true, Word.IsStem, String.toList_append,
    List.forall_mem_append]
  exact and_iff_left hr

@[simp] theorem Register.legible_word (r : Register) : r.word.Legible :=
  legible_wordAfter.mpr (by decide)

@[simp] theorem legible_blockWord {b : BlockId} {tail : String} :
    (blockWord b tail).Legible ↔ Word.IsTail tail :=
  and_iff_right (by decide)

@[simp] theorem legible_callWord (f : FunctionId) : (callWord f).Legible := by
  constructor <;> decide

@[simp] theorem legible_integerWord {n : Int} {mark : String} :
    (integerWord n mark).Legible ↔ Word.IsTail mark := by
  refine and_iff_right ?_
  split <;> decide

theorem Instr.legible_words {i : Instr} (hi : i.DoubleFree) : ∀ w ∈ i.words, w.Legible := by
  cases i with
  | const d v =>
    cases v with
    | double x => exact absurd rfl (hi d x)
    | _ => simp +decide [words, constantWord]
  | binary d op l r =>
    have hop : Word.IsStem op.symbol := by cases op <;> decide
    simp +decide [words, hop]
  | unary d op r =>
    have hop : Word.IsStem op.symbol := by cases op <;> decide
    simp +decide [words, hop]
  | call d f => cases d <;> simp +decide [words]
  | print r => cases r <;> simp +decide [words]
  | _ => simp +decide [words]

theorem legible_caseWords (c : Int × BlockId) : ∀ w ∈ caseWords c, w.Legible := by
  simp +decide [caseWords]

theorem legible_defaultWords (d : BlockId) : ∀ w ∈ defaultWords d, w.Legible := by
  simp +decide [defaultWords]

theorem Terminator.legible_words (t : Terminator) : ∀ w ∈ t.words, w.Legible := by
  cases t with
  | ret r => cases r <;> simp +decide [words]
  | switch r cases d =>
    have hcases : ∀ w ∈ cases.flatMap caseWords, w.Legible := fun w hw =>
      let ⟨c, _, hc⟩ := List.mem_flatMap.mp hw
      legible_caseWords c w hc
    simp only [words, List.forall_mem_cons, List.forall_mem_append]
    exact ⟨by decide, r.legible_word, by decide, hcases, legible_defaultWords d⟩
  | _ => simp +decide [words]

/-! ## Reading words back -/

def typeOfTail? (t : String) : Option Ty :=
  [Ty.short, .int, .long, .double, .void].find? fun ty => ":" ++ ty.text == t

@[simp] theorem typeOfTail?_text (t : Ty) : typeOfTail? (":" ++ t.text) = some t := by
  cases t <;> decide

def Register.ofWord? : Word → Option Register
  | .numbered "r" n t => (typeOfTail? t).map (Register.mk n)
  | _ => none

@[simp] theorem Register.ofWord?_word (r : Register) : ofWord? r.word = some r := by
  simp [ofWord?, word, wordAfter]

def signed (sign : String) (n : Nat) : Int := if sign = "-" then -n else n

@[simp] theorem signed_natAbs (n : Int) : signed (if n < 0 then "-" else "") n.natAbs = n := by
  split
  · rw [signed, if_pos rfl]
    omega
  · rw [signed, if_neg (by decide)]
    omega

def constantOf? (n : Int) (mark : String) : Option Scalar :=
  if mark = constantMark .short then Scalar.ofInt? .short n
  else if mark = constantMark .long then Scalar.ofInt? .long n
  else if mark = constantMark .int then Scalar.ofInt? .int n
  else none

/-- What one word behind the equals sign assigns. -/
def Instr.ofOperand? (d : Register) : Word → Option Instr
  | .plain _ => none
  | .numbered sign n tail =>
    if sign = "r" then (typeOfTail? tail).map fun t => .copy d ⟨n, t⟩
    else if sign = "-r" then (typeOfTail? tail).map fun t => .unary d .neg ⟨n, t⟩
    else if sign = "!r" then (typeOfTail? tail).map fun t => .unary d .not ⟨n, t⟩
    else (constantOf? (signed sign n) tail).map (.const d)

/-- An instruction with a destination, from the words behind the equals sign. -/
def Instr.ofOperation? (d : Register) : List Word → Option Instr
  | [w] => ofOperand? d w
  | [.plain "convert", r] => (Register.ofWord? r).map (.convert d)
  | [.plain "load_local", .numbered "l" i ""] => some (.loadLocal d i)
  | [.plain "load_field", .numbered "f" f ""] => some (.loadField d f)
  | [.plain "call", .numbered "fn" f "()"] => some (.call d f)
  | [l, .plain op, r] => do
    return .binary d (← BinaryOp.ofSymbol? op) (← Register.ofWord? l) (← Register.ofWord? r)
  | _ => none

def Instr.ofWords? : List Word → Option Instr
  | [.plain "println"] => some (.print none)
  | [.plain "println", r] => (Register.ofWord? r).map fun r => .print (some r)
  | [.plain "call", .numbered "fn" f "()"] => some (.call none f)
  | [.plain "store_local", .numbered "l" i ",", r] => (Register.ofWord? r).map (.storeLocal i)
  | [.plain "store_field", .numbered "f" f ",", r] => (Register.ofWord? r).map (.storeField f)
  | d :: .plain "=" :: ws => Register.ofWord? d >>= (ofOperation? · ws)
  | _ => none

theorem Instr.ofOperand?_integerWord (d : Register) (n : Int) (mark : String) :
    ofOperand? d (integerWord n mark) = (constantOf? n mark).map (.const d) := by
  have hsign : ∀ s ∈ ["r", "-r", "!r"], (if n < 0 then "-" else "") ≠ s := by
    split <;> decide
  simp only [List.forall_mem_cons] at hsign
  simp [integerWord, ofOperand?, hsign]

theorem Instr.ofWords?_words {i : Instr} (hi : i.DoubleFree) : ofWords? i.words = some i := by
  cases i with
  | const d v =>
    cases v with
    | double x => exact absurd rfl (hi d x)
    | _ =>
      simp [words, ofWords?, ofOperation?, constantWord, ofOperand?_integerWord, constantOf?,
        constantMark, Scalar.ofInt?]
  | copy d r =>
    have hread : ofOperand? d r.word = some (.copy d r) := by
      simp [ofOperand?, Register.word, Register.wordAfter]
    simp [words, ofWords?, ofOperation?, hread]
  | binary d op l r =>
    have hop : BinaryOp.ofSymbol? op.symbol = some op := by cases op <;> decide
    simp [words, ofWords?, ofOperation?, hop]
  | unary d op r =>
    have hread : ofOperand? d (r.wordAfter op.symbol) = some (.unary d op r) := by
      cases op <;> simp [ofOperand?, Register.wordAfter, UnaryOp.symbol]
    simp [words, ofWords?, ofOperation?, hread]
  | call d f => cases d <;> simp [words, ofWords?, ofOperation?, callWord]
  | print r => cases r <;> simp [words, ofWords?]
  | _ => simp [words, ofWords?, ofOperation?]

def casesOf? : List Word → Option (List (Int × BlockId) × BlockId)
  | [.plain "default", .plain "->", .numbered "bb" d "", .plain "\x7d"] => some ([], d)
  | .numbered sign n "" :: .plain "->" :: .numbered "bb" b "," :: ws =>
    (casesOf? ws).map fun p => ((signed sign n, b) :: p.1, p.2)
  | _ => none

def Terminator.ofWords? : List Word → Option Terminator
  | [.plain "goto", .numbered "bb" b ""] => some (.jump b)
  | [.plain "if", c, .plain "then", .numbered "bb" y "", .plain "else", .numbered "bb" n ""] =>
    (Register.ofWord? c).map (.branch · y n)
  | [.plain "return"] => some (.ret none)
  | [.plain "return", r] => (Register.ofWord? r).map fun r => .ret (some r)
  | .plain "switch" :: r :: .plain "\x7b" :: ws => do
    let p ← casesOf? ws
    return .switch (← Register.ofWord? r) p.1 p.2
  | [.plain "unreachable"] => some .unreachable
  | _ => none

theorem casesOf?_words (cases : List (Int × BlockId)) (d : BlockId) :
    casesOf? (cases.flatMap caseWords ++ defaultWords d) = some (cases, d) := by
  induction cases with
  | nil => simp [defaultWords, blockWord, casesOf?]
  | cons c cs ih => simp [caseWords, integerWord, blockWord, casesOf?, ih]

theorem Terminator.ofWords?_words (t : Terminator) : ofWords? t.words = some t := by
  cases t with
  | ret r => cases r <;> simp [words, ofWords?]
  | switch r cases d => simp [words, ofWords?, casesOf?_words]
  | _ => simp [words, ofWords?, blockWord]

/-! ## Lines are unambiguous -/

theorem Instr.text_injective {i j : Instr} (hi : i.DoubleFree) (hj : j.DoubleFree)
    (h : i.text = j.text) : i = j := by
  have hspaced : spaced i.words = spaced j.words := by rw [spaced_words, spaced_words, h]
  have hwords := spaced_injective (legible_words hi) (legible_words hj) hspaced
  exact Option.some.inj (by rw [← ofWords?_words hi, ← ofWords?_words hj, hwords])

theorem Terminator.text_injective {t u : Terminator} (h : t.text = u.text) : t = u := by
  have hspaced : spaced t.words = spaced u.words := by rw [spaced_words, spaced_words, h]
  have hwords := spaced_injective t.legible_words u.legible_words hspaced
  exact Option.some.inj (by rw [← ofWords?_words, ← ofWords?_words, hwords])

def Instr.leads : List String := ["r", "store_local", "store_field", "call", "println"]

def Terminator.leads : List String := ["goto", "if", "return", "switch", "unreachable"]

theorem Instr.lead_mem (i : Instr) :
    ∃ w ws, i.words = w :: ws ∧ w.Legible ∧ w.stem ∈ leads := by
  have hword (d : Register) : d.word.Legible ∧ d.word.stem ∈ leads :=
    ⟨d.legible_word, by simp [Register.word, Register.wordAfter, Word.stem, leads]⟩
  cases i with
  | storeLocal i r => exact ⟨_, _, rfl, by decide, by decide⟩
  | storeField f r => exact ⟨_, _, rfl, by decide, by decide⟩
  | call d f =>
    cases d with
    | none => exact ⟨_, _, rfl, by decide, by decide⟩
    | some d => exact ⟨_, _, rfl, hword d⟩
  | print r => cases r <;> exact ⟨_, _, rfl, by decide, by decide⟩
  | const d | copy d | binary d | unary d | convert d | loadLocal d | loadField d =>
    exact ⟨_, _, rfl, hword d⟩

theorem Terminator.lead_mem (t : Terminator) :
    ∃ w ws, t.words = w :: ws ∧ w.Legible ∧ w.stem ∈ leads := by
  cases t with
  | ret r => cases r <;> exact ⟨_, _, rfl, by decide, by decide⟩
  | _ => exact ⟨_, _, rfl, by decide, by decide⟩

/-- The first word tells instructions and terminators apart. -/
theorem Instr.text_ne_terminator (i : Instr) (t : Terminator) : i.text ≠ t.text := by
  intro h
  obtain ⟨w, ws, hi, hw, hwlead⟩ := i.lead_mem
  obtain ⟨v, vs, ht, hv, hvlead⟩ := t.lead_mem
  have hspaced : spaced i.words = spaced t.words := by
    rw [Instr.spaced_words, Terminator.spaced_words, h]
  rw [hi, ht] at hspaced
  obtain ⟨rfl, -⟩ := spaced_cons_inj hw hv hspaced
  have hapart : ∀ s ∈ Instr.leads, s ∉ Terminator.leads := by decide
  exact hapart _ hwlead hvlead

/-- A line is the text of one instruction only or of one terminator only, as long as it sets nothing
to a constant of type `double`. -/
theorem lines_unambiguous :
    (∀ i j : Instr, i.DoubleFree → j.DoubleFree → i.text = j.text → i = j) ∧
      (∀ t u : Terminator, t.text = u.text → t = u) ∧
      ∀ (i : Instr) (t : Terminator), i.text ≠ t.text :=
  ⟨fun _ _ hi hj h => Instr.text_injective hi hj h, fun _ _ h => Terminator.text_injective h,
    Instr.text_ne_terminator⟩

/-- As a `short`, 65535 is written `-1s` because it is -1. -/
theorem wrapped_unambiguous :
    (Instr.const ⟨0, .short⟩ (.short 65535)).DoubleFree ∧
      (Instr.const ⟨0, .short⟩ (.short (-1))).DoubleFree ∧
      (Instr.const ⟨0, .short⟩ (.short 65535)).text = "r0:short = -1s" ∧
      (Instr.const ⟨0, .short⟩ (.short (-1))).text = "r0:short = -1s" ∧
      Instr.const ⟨0, .short⟩ (.short 65535) = .const ⟨0, .short⟩ (.short (-1)) := by
  have hfree (v : Int16) : (Instr.const ⟨0, .short⟩ (.short v)).DoubleFree := fun _ _ h => by
    cases h
  have h : (Instr.const ⟨0, .short⟩ (.short 65535)).text = "r0:short = -1s" := by decide
  have h' : (Instr.const ⟨0, .short⟩ (.short (-1))).text = "r0:short = -1s" := by decide
  exact ⟨hfree _, hfree _, h, h', lines_unambiguous.1 _ _ (hfree _) (hfree _) (h.trans h'.symm)⟩

end Cascade.Code
