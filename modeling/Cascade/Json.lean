/-!
# Cascade.Json

Indented JSON text. Each combinator lays out one level: its parts are texts that were laid out for
the next level already, so a nested value is built inside out.

* `quote` escapes quotes, backslashes and control characters and leaves all other characters as
  they are.
* `object` and `array` put one part on a line, two blanks deeper than the brackets.
-/

namespace Cascade.Json

def hexDigit (n : Nat) : Char :=
  if n < 10 then Char.ofNat ('0'.toNat + n) else Char.ofNat ('a'.toNat + (n - 10))

def escape (c : Char) : List Char :=
  if c = '"' then ['\\', '"']
  else if c = '\\' then ['\\', '\\']
  else if c = '\x08' then ['\\', 'b']
  else if c = '\t' then ['\\', 't']
  else if c = '\n' then ['\\', 'n']
  else if c = '\x0c' then ['\\', 'f']
  else if c = '\r' then ['\\', 'r']
  else if c.toNat < 32 then
    ['\\', 'u', '0', '0', hexDigit (c.toNat / 16), hexDigit (c.toNat % 16)]
  else [c]

def quote (s : String) : String :=
  String.ofList ('"' :: s.toList.flatMap escape ++ ['"'])

def quote? : Option String → String
  | some s => quote s
  | none => "null"

def newline (depth : Nat) : String := "\n" ++ String.ofList (List.replicate (2 * depth) ' ')

/-- Parts between brackets at a level, one on a line; without parts the brackets stand together. -/
def enclose (depth : Nat) (left right : String) (parts : List String) : String :=
  if parts.isEmpty then left ++ right
  else
    left ++ newline (depth + 1) ++ String.intercalate ("," ++ newline (depth + 1)) parts ++
      newline depth ++ right

def array (depth : Nat) (items : List String) : String := enclose depth "[" "]" items

def object (depth : Nat) (fields : List (String × String)) : String :=
  enclose depth "\x7b" "\x7d" (fields.map fun f => quote f.1 ++ ": " ++ f.2)

end Cascade.Json
