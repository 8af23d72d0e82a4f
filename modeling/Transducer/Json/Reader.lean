import Transducer.CodePoint
import Transducer.Json.Basic

/-!
Reading JSON text. The reader takes one value with blanks around it and answers `none` for anything else: no
leading zeros, no control characters inside strings, no trailing commas. An escape may name any 16-bit unit, so
a string may hold a surrogate without its partner; such a string is well formed but is no text, and it is kept
as it was written. Nesting is bounded by a fuel that the length of the text always covers.
-/

namespace Transducer.Json

def skipBlanks (cs : List Char) : List Char :=
  cs.dropWhile fun c => c == ' ' || c == '\t' || c == '\n' || c == '\r'

def hexDigit? (c : Char) : Option Nat :=
  if '0' ≤ c ∧ c ≤ '9' then some (c.toNat - 48)
  else if 'a' ≤ c ∧ c ≤ 'f' then some (c.toNat - 87)
  else if 'A' ≤ c ∧ c ≤ 'F' then some (c.toNat - 55)
  else none

def hexUnit? (a b c d : Char) : Option Nat := do
  return 4096 * (← hexDigit? a) + 256 * (← hexDigit? b) + 16 * (← hexDigit? c) + (← hexDigit? d)

/-- The character of a one-letter escape. -/
def plainEscape? (c : Char) : Option Char :=
  if c = '\x22' || c = '\\' || c = '/' then some c
  else if c = 'b' then some '\x08'
  else if c = 'f' then some '\x0c'
  else if c = 'n' then some '\n'
  else if c = 'r' then some '\r'
  else if c = 't' then some '\t'
  else none

/-- The code points of a string after its opening quote, surrogates still apart, and what follows the closing
quote. -/
def readString : List Char → Option (List CodePoint × List Char)
  | '\x22' :: rest => some ([], rest)
  | '\\' :: 'u' :: a :: b :: c :: d :: rest => do
      let unit ← hexUnit? a b c d
      let (cs, tail) ← readString rest
      return (unit :: cs, tail)
  | '\\' :: c :: rest => do
      let e ← plainEscape? c
      let (cs, tail) ← readString rest
      return (e.toNat :: cs, tail)
  | c :: rest =>
      if c.toNat < 0x20 || c = '\\' then none
      else do
        let (cs, tail) ← readString rest
        return (c.toNat :: cs, tail)
  | [] => none

def isHighSurrogate (c : CodePoint) : Bool := 0xD800 ≤ c && c < 0xDC00

def isLowSurrogate (c : CodePoint) : Bool := 0xDC00 ≤ c && c < 0xE000

/-- Every high surrogate right before a low one makes up one code point with it. -/
def joinSurrogates : List CodePoint → List CodePoint
  | high :: low :: rest =>
      if isHighSurrogate high && isLowSurrogate low then
        (0x10000 + 1024 * (high - 0xD800) + (low - 0xDC00)) :: joinSurrogates rest
      else high :: joinSurrogates (low :: rest)
  | cs => cs

/-- The text of a string; a surrogate that stays alone leaves none. -/
def text? (cs : List CodePoint) : Option String :=
  ((joinSurrogates cs).mapM CodePoint.toChar?).map String.ofList

/-- What stands in front of a tail of some text. -/
def before (cs tail : List Char) : String := String.ofList (cs.take (cs.length - tail.length))

/-- Digits, at least one. -/
def readDigits (cs : List Char) : Option (List Char × List Char) :=
  let digits := cs.takeWhile Char.isDigit
  if digits.isEmpty then none else some (digits, cs.dropWhile Char.isDigit)

/-- The part of a numeral from its point on, possibly empty. -/
def readFraction : List Char → Option (List Char × List Char)
  | '.' :: rest => (readDigits rest).map fun (ds, tail) => ('.' :: ds, tail)
  | rest => some ([], rest)

def readExponent : List Char → Option (List Char × List Char)
  | e :: s :: rest =>
      if e = 'e' || e = 'E' then
        if s = '+' || s = '-' then (readDigits rest).map fun (ds, tail) => (e :: s :: ds, tail)
        else (readDigits (s :: rest)).map fun (ds, tail) => (e :: ds, tail)
      else some ([], e :: s :: rest)
  | [e] => if e = 'e' || e = 'E' then none else some ([], [e])
  | [] => some ([], [])

def decimalValue (digits : List Char) : Nat := digits.foldl (fun n d => 10 * n + (d.toNat - 48)) 0

def readNumber (cs : List Char) : Option (Json × List Char) := do
  let (sign, cs) := match cs with
    | '-' :: rest => (['-'], rest)
    | rest => ([], rest)
  let (whole, cs) ← readDigits cs
  if whole.head? = some '0' ∧ 1 < whole.length then none
  else
    let (fraction, cs) ← readFraction cs
    let (exponent, cs) ← readExponent cs
    if sign.isEmpty && fraction.isEmpty && exponent.isEmpty then
      return (.number (decimalValue whole), cs)
    else return (.verbatim (String.ofList (sign ++ whole ++ fraction ++ exponent)), cs)

mutual

def readValue : Nat → List Char → Option (Json × List Char)
  | 0, _ => none
  | fuel + 1, cs =>
      match skipBlanks cs with
      | 'n' :: 'u' :: 'l' :: 'l' :: rest => some (.null, rest)
      | 't' :: 'r' :: 'u' :: 'e' :: rest => some (.bool true, rest)
      | 'f' :: 'a' :: 'l' :: 's' :: 'e' :: rest => some (.bool false, rest)
      | '\x22' :: rest => (readString rest).map fun (units, tail) =>
          match text? units with
          | some s => (.text s, tail)
          | none => (.verbatim (before ('\x22' :: rest) tail), tail)
      | '[' :: rest =>
          match skipBlanks rest with
          | ']' :: tail => some (.array [], tail)
          | inside => (readElements fuel inside).map fun (js, tail) => (.array js, tail)
      | '\x7b' :: rest =>
          match skipBlanks rest with
          | '\x7d' :: tail => some (.object [], tail)
          | inside => (readMembers fuel inside).map fun (ms, tail) =>
              match ms.mapM fun m => (text? m.1).map fun name => (name, m.2) with
              | some ms => (.object ms, tail)
              | none => (.verbatim (before ('\x7b' :: rest) tail), tail)
      | rest => readNumber rest

/-- The elements of an array up to and with its closing bracket. -/
def readElements : Nat → List Char → Option (List Json × List Char)
  | 0, _ => none
  | fuel + 1, cs => do
      let (j, rest) ← readValue fuel cs
      match skipBlanks rest with
      | ',' :: more =>
          let (js, tail) ← readElements fuel more
          return (j :: js, tail)
      | ']' :: tail => return ([j], tail)
      | _ => none

/-- The members of an object up to and with its closing brace; names are the code points between their quotes. -/
def readMembers : Nat → List Char → Option (List (List CodePoint × Json) × List Char)
  | 0, _ => none
  | fuel + 1, cs => do
      match skipBlanks cs with
      | '\x22' :: rest =>
          let (name, rest) ← readString rest
          match skipBlanks rest with
          | ':' :: rest =>
              let (j, rest) ← readValue fuel rest
              match skipBlanks rest with
              | ',' :: more =>
                  let (ms, tail) ← readMembers fuel more
                  return ((name, j) :: ms, tail)
              | '\x7d' :: tail => return ([(name, j)], tail)
              | _ => none
          | _ => none
      | _ => none

end

/-- The one value that a text holds. -/
def read? (s : String) : Option Json :=
  match readValue (2 * s.length + 2) s.toList with
  | some (j, rest) => if (skipBlanks rest).isEmpty then some j else none
  | none => none

/-- A natural number in the range of code points. -/
def codePoint? : Json → Option Nat
  | .number n => if n ≤ 4294967295 then some n else none
  | _ => none

def codePoints? : Json → Option (List Nat)
  | .array js => js.mapM codePoint?
  | _ => none

end Transducer.Json
