/-!
# Cascade.Toml.Scan

The lexical part of TOML documents: blanks, comments, line ends, keys, strings, numbers and dates.
Each reader takes the characters that are left and gives what it read with the characters behind
it, or nothing if the text is wrong.
-/

namespace Cascade.Toml

abbrev Scanned (α : Type) := Option (α × List Char)

/-! ## Blanks and lines -/

def isBlank (c : Char) : Bool := c == ' ' || c == '\t'

/-- A character that may stand in a comment or a string: no control character but the tab. -/
def isPrintable (c : Char) : Bool := c == '\t' || (32 ≤ c.toNat && c.toNat != 127)

def skipBlanks (s : List Char) : List Char := s.dropWhile isBlank

def skipComment : List Char → List Char
  | '#' :: s => s.dropWhile isPrintable
  | s => s

/-- A line ends at a line feed, which a carriage return may precede, or at the end of the text. -/
def lineEnd : List Char → Option (List Char)
  | [] => some []
  | '\n' :: s => some s
  | '\r' :: '\n' :: s => some s
  | _ => none

def restOfLine (s : List Char) : Option (List Char) := lineEnd (skipComment (skipBlanks s))

/-- Skip blanks, line ends and comments. A comment is being skipped if `inComment`. -/
def skipFill : Bool → List Char → Option (List Char)
  | _, [] => some []
  | _, '\n' :: s => skipFill false s
  | _, '\r' :: '\n' :: s => skipFill false s
  | true, c :: s => if isPrintable c then skipFill true s else none
  | false, c :: s =>
    if isBlank c then skipFill false s
    else if c = '#' then skipFill true s
    else some (c :: s)

/-! ## Strings -/

def hexValue? (c : Char) : Option Nat :=
  if c.isDigit then some (c.toNat - '0'.toNat)
  else if 'a' ≤ c && c ≤ 'f' then some (c.toNat - 'a'.toNat + 10)
  else if 'A' ≤ c && c ≤ 'F' then some (c.toNat - 'A'.toNat + 10)
  else none

/-- The character whose code the digits are; not every number is a code. -/
def codePoint? (digits : List Char) : Option Char :=
  match digits.mapM hexValue? with
  | none => none
  | some ds =>
    let n := ds.foldl (fun n d => n * 16 + d) 0
    if n.isValidChar then some (Char.ofNat n) else none

def escaped? (c : Char) : Option Char :=
  if c = 'b' then some '\x08'
  else if c = 't' then some '\t'
  else if c = 'n' then some '\n'
  else if c = 'f' then some '\x0c'
  else if c = 'r' then some '\r'
  else if c = '"' then some '"'
  else if c = '\\' then some '\\'
  else none

def consChar (c : Char) : Scanned (List Char) → Scanned (List Char)
  | some (cs, s) => some (c :: cs, s)
  | none => none

def basicString : List Char → Scanned (List Char)
  | [] => none
  | '"' :: s => some ([], s)
  | '\\' :: 'u' :: a :: b :: c :: d :: s =>
    match codePoint? [a, b, c, d] with
    | some x => consChar x (basicString s)
    | none => none
  | '\\' :: 'U' :: a :: b :: c :: d :: e :: f :: g :: h :: s =>
    match codePoint? [a, b, c, d, e, f, g, h] with
    | some x => consChar x (basicString s)
    | none => none
  | '\\' :: c :: s =>
    match escaped? c with
    | some x => consChar x (basicString s)
    | none => none
  | c :: s => if isPrintable c && c != '\\' then consChar c (basicString s) else none

/-- Behind a backslash there are only blanks up to the end of the line. -/
def continuesLine (s : List Char) : Bool :=
  match skipBlanks s with
  | '\n' :: _ => true
  | '\r' :: '\n' :: _ => true
  | _ => false

/-- A string in three double quotes on either side, behind the first three. Blanks and line ends
are dropped if `trimming`, as they are behind a backslash at the end of a line. -/
def basicLines : Bool → List Char → Scanned (List Char)
  | _, [] => none
  | _, '"' :: '"' :: '"' :: '"' :: '"' :: s => some (['"', '"'], s)
  | _, '"' :: '"' :: '"' :: '"' :: s => some (['"'], s)
  | _, '"' :: '"' :: '"' :: s => some ([], s)
  | t, '\n' :: s => if t then basicLines t s else consChar '\n' (basicLines t s)
  | t, '\r' :: '\n' :: s => if t then basicLines t s else consChar '\n' (basicLines t s)
  | _, '\\' :: 'u' :: a :: b :: c :: d :: s =>
    match codePoint? [a, b, c, d] with
    | some x => consChar x (basicLines false s)
    | none => none
  | _, '\\' :: 'U' :: a :: b :: c :: d :: e :: f :: g :: h :: s =>
    match codePoint? [a, b, c, d, e, f, g, h] with
    | some x => consChar x (basicLines false s)
    | none => none
  | _, '\\' :: c :: s =>
    if continuesLine (c :: s) then basicLines true (c :: s)
    else
      match escaped? c with
      | some x => consChar x (basicLines false s)
      | none => none
  | t, c :: s =>
    if t && isBlank c then basicLines t s
    else if isPrintable c && c != '\\' then consChar c (basicLines false s)
    else none

def literalString : List Char → Scanned (List Char)
  | [] => none
  | c :: s =>
    if c = '\'' then some ([], s)
    else if isPrintable c then consChar c (literalString s)
    else none

def literalLines : List Char → Scanned (List Char)
  | [] => none
  | '\'' :: '\'' :: '\'' :: '\'' :: '\'' :: s => some (['\'', '\''], s)
  | '\'' :: '\'' :: '\'' :: '\'' :: s => some (['\''], s)
  | '\'' :: '\'' :: '\'' :: s => some ([], s)
  | '\r' :: '\n' :: s => consChar '\n' (literalLines s)
  | c :: s =>
    if c = '\n' || isPrintable c then consChar c (literalLines s) else none

/-- A line end right behind the opening quotes does not count. -/
def dropFirstLineEnd : List Char → List Char
  | '\n' :: s => s
  | '\r' :: '\n' :: s => s
  | s => s

def string? : List Char → Scanned (List Char)
  | '"' :: '"' :: '"' :: s => basicLines false (dropFirstLineEnd s)
  | '"' :: s => basicString s
  | '\'' :: '\'' :: '\'' :: s => literalLines (dropFirstLineEnd s)
  | '\'' :: s => literalString s
  | _ => none

/-! ## Keys -/

def isBareKey (c : Char) : Bool := c.isAlphanum || c == '_' || c == '-'

/-- One name: quoted, or of letters, digits, underscores and dashes. -/
def simpleKey : List Char → Scanned String
  | '"' :: s => (basicString s).map fun r => (String.ofList r.1, r.2)
  | '\'' :: s => (literalString s).map fun r => (String.ofList r.1, r.2)
  | s =>
    let name := s.takeWhile isBareKey
    if name.isEmpty then none else some (String.ofList name, s.dropWhile isBareKey)

def nestingLimit : Nat := 80

/-- Names with dots between them, blanks around each, and `n` names at most. -/
def names : Nat → List Char → Scanned (List String)
  | 0, _ => none
  | n + 1, s =>
    match simpleKey (skipBlanks s) with
    | none => none
    | some (k, s) =>
      match skipBlanks s with
      | '.' :: s => (names n s).map fun r => (k :: r.1, r.2)
      | s => some ([k], s)

def dottedKey (s : List Char) : Scanned (List String) := names (nestingLimit - 1) s

/-! ## Numbers -/

/-- Further digits; an underscore may stand between two of them. -/
def moreDigits (isDigit : Char → Bool) : List Char → Scanned (List Char)
  | [] => some ([], [])
  | c :: s =>
    if isDigit c then consChar c (moreDigits isDigit s)
    else if c = '_' then
      match s with
      | d :: _ => if isDigit d then moreDigits isDigit s else none
      | [] => none
    else some ([], c :: s)

def digits (isDigit : Char → Bool) : List Char → Scanned (List Char)
  | c :: s => if isDigit c then consChar c (moreDigits isDigit s) else none
  | [] => none

/-- A decimal number without needless zeros in front. -/
def decimal : List Char → Scanned (List Char)
  | '0' :: s => some (['0'], s)
  | s => digits Char.isDigit s

def ofDigits (base : Nat) (ds : List Char) : Nat :=
  ds.foldl (fun n d => n * base + (hexValue? d).getD 0) 0

def inRange (n : Int) : Bool := -9223372036854775808 ≤ n && n ≤ 9223372036854775807

def basedInteger (base : Nat) (isDigit : Char → Bool) (s : List Char) : Scanned Int :=
  match digits isDigit s with
  | none => none
  | some (ds, s) =>
    let n := Int.ofNat (ofDigits base ds)
    if inRange n then some (n, s) else none

def isHexDigit (c : Char) : Bool := (hexValue? c).isSome

def isOctalDigit (c : Char) : Bool := '0' ≤ c && c ≤ '7'

def isBinaryDigit (c : Char) : Bool := c == '0' || c == '1'

/-- A number with a fraction or an exponent: its digits, and the exponent of ten of the last. -/
structure Scientific where
  digits : Nat
  exponent : Int

/-- The number is at least half a unit above the largest double. -/
def Scientific.isTooLarge (x : Scientific) : Bool :=
  if x.digits = 0 then false
  else
    let size := Int.ofNat (toString x.digits).length + x.exponent
    if 310 < size then true
    else if size < 300 then false
    else (1 <<< 1024) - (1 <<< 970) ≤
      x.digits * Nat.pow 10 x.exponent.toNat / Nat.pow 10 (-x.exponent).toNat

def fraction : List Char → Scanned (List Char)
  | '.' :: s => digits Char.isDigit s
  | s => some ([], s)

def sign : List Char → Bool × List Char
  | '+' :: s => (false, s)
  | '-' :: s => (true, s)
  | s => (false, s)

def exponent : List Char → Scanned Int
  | c :: s =>
    if c = 'e' || c = 'E' then
      let signed := sign s
      (digits Char.isDigit signed.2).map fun r =>
        let n := Int.ofNat (ofDigits 10 r.1)
        (if signed.1 then -n else n, r.2)
    else some (0, c :: s)
  | [] => some (0, [])

inductive Number where
  | integer (n : Int)
  | float

/-- Behind the digits in front of the point: a fraction or an exponent make a float. A float may
not be larger than the largest double. -/
def floatTail (negative : Bool) (ds : List Char) (s : List Char) : Scanned Number :=
  match fraction s with
  | none => none
  | some (fs, s) =>
    match exponent s with
    | none => none
    | some (e, s) =>
      let x : Scientific := ⟨ofDigits 10 (ds ++ fs), e - Int.ofNat fs.length⟩
      if !negative && x.isTooLarge then none else some (.float, s)

def isFloatMark : List Char → Bool
  | c :: _ => c == '.' || c == 'e' || c == 'E'
  | [] => false

def unsigned (negative : Bool) (s : List Char) : Scanned Number :=
  match s with
  | 'i' :: 'n' :: 'f' :: s => some (.float, s)
  | 'n' :: 'a' :: 'n' :: s => some (.float, s)
  | s =>
    match decimal s with
    | none => none
    | some (ds, s) =>
      if isFloatMark s then floatTail negative ds s
      else
        let m := Int.ofNat (ofDigits 10 ds)
        let n := if negative then -m else m
        if inRange n then some (.integer n, s) else none

def number : List Char → Scanned Number
  | '0' :: 'x' :: s => (basedInteger 16 isHexDigit s).map fun r => (.integer r.1, r.2)
  | '0' :: 'o' :: s => (basedInteger 8 isOctalDigit s).map fun r => (.integer r.1, r.2)
  | '0' :: 'b' :: s => (basedInteger 2 isBinaryDigit s).map fun r => (.integer r.1, r.2)
  | s => unsigned (sign s).1 (sign s).2

/-! ## Dates and times -/

def twoDigits (bound : Nat) : List Char → Scanned Nat
  | a :: b :: s =>
    if a.isDigit && b.isDigit && ofDigits 10 [a, b] ≤ bound then some (ofDigits 10 [a, b], s)
    else none
  | _ => none

def isLeapYear (y : Nat) : Bool := y % 4 == 0 && (y % 100 != 0 || y % 400 == 0)

def daysIn (year month : Nat) : Nat :=
  if month = 2 then (if isLeapYear year then 29 else 28)
  else if month = 4 || month = 6 || month = 9 || month = 11 then 30
  else 31

def calendarDate : List Char → Option (List Char)
  | a :: b :: c :: d :: '-' :: s =>
    if [a, b, c, d].all Char.isDigit then
      match twoDigits 12 s with
      | some (month, '-' :: s) =>
        match twoDigits (daysIn (ofDigits 10 [a, b, c, d]) month) s with
        | some (day, s) => if month = 0 || day = 0 then none else some s
        | none => none
      | _ => none
    else none
  | _ => none

def secondFraction : List Char → List Char
  | '.' :: c :: s => if c.isDigit then s.dropWhile Char.isDigit else '.' :: c :: s
  | s => s

/-- A time of day, to the second at least. A leap second is a second of its own. -/
def dayTime (s : List Char) : Option (List Char) :=
  match twoDigits 23 s with
  | some (_, ':' :: s) =>
    match twoDigits 59 s with
    | some (_, ':' :: s) => (twoDigits 60 s).map fun r => secondFraction r.2
    | _ => none
  | _ => none

def timeOffset (s : List Char) : List Char :=
  match s with
  | c :: r =>
    if c = 'Z' || c = 'z' then r
    else if c = '+' || c = '-' then
      match twoDigits 23 r with
      | some (_, ':' :: t) =>
        match twoDigits 59 t with
        | some (_, t) => t
        | none => s
      | _ => s
    else s
  | [] => s

def date (s : List Char) : Option (List Char) :=
  match calendarDate s with
  | none => dayTime s
  | some (c :: r) =>
    if c = 'T' || c = 't' || c = ' ' then
      match dayTime r with
      | some t => some (timeOffset t)
      | none => some (c :: r)
    else some (c :: r)
  | some [] => some []

end Cascade.Toml
