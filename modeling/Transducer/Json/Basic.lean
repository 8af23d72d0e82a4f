/-!
JSON values and their two texts. Objects keep their members in order. The compact text has no blanks at all;
the pretty text puts every element and member on a line of its own, two blanks deeper than what holds it.
Only quotes, backslashes and control characters are escaped.
-/

namespace Transducer

inductive Json where
  | null
  | bool (value : Bool)
  | number (value : Nat)
  /-- A value kept as it was written, because no other form stands for it: a number with a sign, a fraction or an
  exponent, a string with an unpaired surrogate, or an object with such a string for a name. -/
  | verbatim (written : String)
  | text (value : String)
  | array (elements : List Json)
  | object (members : List (String × Json))

namespace Json

/-- Four hexadecimal digits, in lower case. -/
def fourDigits (n : Nat) : List Char :=
  let digits := Nat.toDigits 16 n
  List.replicate (4 - digits.length) '0' ++ digits

def escapedChar (c : Char) : List Char :=
  if c = '\x22' then ['\\', '\x22']
  else if c = '\\' then ['\\', '\\']
  else if c = '\x08' then ['\\', 'b']
  else if c = '\x0c' then ['\\', 'f']
  else if c = '\n' then ['\\', 'n']
  else if c = '\r' then ['\\', 'r']
  else if c = '\t' then ['\\', 't']
  else if c.toNat < 0x20 then '\\' :: 'u' :: fourDigits c.toNat
  else [c]

def quoted (s : String) : String := String.ofList ('\x22' :: s.toList.flatMap escapedChar ++ ['\x22'])

mutual

def compact : Json → String
  | .null => "null"
  | .bool value => if value then "true" else "false"
  | .number value => toString value
  | .verbatim written => written
  | .text value => quoted value
  | .array elements => "[" ++ ",".intercalate (compactElements elements) ++ "]"
  | .object members => "\x7b" ++ ",".intercalate (compactMembers members) ++ "\x7d"

def compactElements : List Json → List String
  | [] => []
  | j :: js => j.compact :: compactElements js

def compactMembers : List (String × Json) → List String
  | [] => []
  | (name, j) :: rest => (quoted name ++ ":" ++ j.compact) :: compactMembers rest

end

/-- A line break and the indentation of a depth. -/
def newline (depth : Nat) : String := "\n" ++ String.ofList (List.replicate (2 * depth) ' ')

mutual

def prettyAt (depth : Nat) : Json → String
  | .array [] => "[]"
  | .object [] => "\x7b\x7d"
  | .array elements =>
      "[" ++ ",".intercalate (prettyElements (depth + 1) elements) ++ newline depth ++ "]"
  | .object members =>
      "\x7b" ++ ",".intercalate (prettyMembers (depth + 1) members) ++ newline depth ++ "\x7d"
  | .null => "null"
  | .bool value => if value then "true" else "false"
  | .number value => toString value
  | .verbatim written => written
  | .text value => quoted value

def prettyElements (depth : Nat) : List Json → List String
  | [] => []
  | j :: js => (newline depth ++ prettyAt depth j) :: prettyElements depth js

def prettyMembers (depth : Nat) : List (String × Json) → List String
  | [] => []
  | (name, j) :: rest =>
      (newline depth ++ quoted name ++ ": " ++ prettyAt depth j) :: prettyMembers depth rest

end

def pretty (j : Json) : String := prettyAt 0 j

def ofCodePoints (cs : List Nat) : Json := .array (cs.map .number)

end Json

end Transducer
