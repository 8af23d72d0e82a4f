import Transducer.Literal.Printable

/-!
How literals are written. A sequence of code points is quoted as a whole, `'a\nb'`, if all of it is
printable, and otherwise written as numbers as a whole, `<97 7 98>`; the two forms are never mixed. A run
of a character class is written by its two ends under the same rule.
-/

namespace Transducer.Literal

/-- One code point between quotes, with the escapes that a literal needs. -/
def escaped (c : CodePoint) : String :=
  if c = 0x0A then "\\n"
  else if c = 0x0D then "\\r"
  else if c = 0x09 then "\\t"
  else if c = 0x08 then "\\b"
  else if c = 0 then "\\0"
  else if c = 0x27 then "\\'"
  else if c = 0x5C then "\\\\"
  else String.singleton (CodePoint.toChar c)

def quoted (cs : List CodePoint) : String := "'" ++ String.join (cs.map escaped) ++ "'"

def numbered (cs : List CodePoint) : String :=
  "<" ++ " ".intercalate (cs.map fun c : Nat => toString c) ++ ">"

def text (cs : List CodePoint) : String := if cs.all isPrintable then quoted cs else numbered cs

/-- The inclusive run `low` to `high`: `'a'`, `['a'-'z']`, `<7>` or `<0-31>`. -/
def runText (low high : CodePoint) : String :=
  if isPrintable low && isPrintable high then
    if low = high then quoted [low] else "[" ++ quoted [low] ++ "-" ++ quoted [high] ++ "]"
  else if low = high then numbered [low] else s!"<{low}-{high}>"

end Transducer.Literal
