import Transducer.Token.Kind

/-!
The rules of the lexer. A rule gives, for the characters ahead, the length of the longest beginning that it
matches. `Rule.best` picks the longest match over all rules and, among equals, the rule that is listed first,
so that keywords come before names and complete strings before unterminated ones. Letters and digits are
those of ASCII.
-/

namespace Transducer

structure Rule where
  kind : Kind
  /-- Length of the longest match at the head of the input, never zero. -/
  match? : List Char → Option Nat

namespace Rule

def exactly (text : List Char) (cs : List Char) : Option Nat :=
  if text.isPrefixOf cs then some text.length else none

/-- A run of characters of one class, at least one. -/
def run (p : Char → Bool) (cs : List Char) : Option Nat :=
  match (cs.takeWhile p).length with
  | 0 => none
  | n + 1 => some (n + 1)

/-- How far string content reaches: up to the quote, or up to a backslash that has no character to escape. A
line end cannot be escaped. -/
def contentLength (quote : Char) : List Char → Nat
  | [] => 0
  | '\\' :: rest =>
      match rest with
      | [] => 0
      | c :: cs => if c = '\n' then 0 else contentLength quote cs + 2
  | c :: cs => if c = quote then 0 else contentLength quote cs + 1

def complete (quote : Char) : List Char → Option Nat
  | [] => none
  | c :: cs =>
      if c = quote ∧ cs[contentLength quote cs]? = some quote then some (contentLength quote cs + 2) else none

def unterminated (quote : Char) : List Char → Option Nat
  | [] => none
  | c :: cs => if c = quote then some (contentLength quote cs + 1) else none

/-- Digits, and possibly a point with more digits. -/
def number (cs : List Char) : Option Nat :=
  match run Char.isDigit cs with
  | none => none
  | some n =>
      match cs.drop n with
      | '.' :: rest =>
          match run Char.isDigit rest with
          | some m => some (n + 1 + m)
          | none => some n
      | _ => some n

def isNameStart (c : Char) : Bool := c.isAlpha || c == '_'

def isNameRest (c : Char) : Bool := c.isAlphanum || c == '_' || c == '.'

def identifier : List Char → Option Nat
  | [] => none
  | c :: cs => if isNameStart c then some ((cs.takeWhile isNameRest).length + 1) else none

def comment : List Char → Option Nat
  | [] => none
  | c :: cs => if c = '#' then some ((cs.takeWhile fun d => d != '\n').length + 1) else none

def all : List Rule :=
  [⟨.parenOpen, exactly ['(']⟩, ⟨.parenClose, exactly [')']⟩, ⟨.bracketOpen, exactly ['[']⟩,
    ⟨.bracketClose, exactly [']']⟩, ⟨.braceOpen, exactly ['\x7b']⟩, ⟨.braceClose, exactly ['\x7d']⟩,
    ⟨.angleOpen, exactly ['<']⟩, ⟨.angleClose, exactly ['>']⟩, ⟨.equals, exactly ['=']⟩,
    ⟨.semicolon, exactly [';']⟩, ⟨.comma, exactly [',']⟩, ⟨.colon, exactly [':']⟩, ⟨.pipe, exactly ['|']⟩,
    ⟨.atSign, exactly ['@']⟩, ⟨.minus, exactly ['-']⟩, ⟨.star, exactly ['*']⟩, ⟨.plus, exactly ['+']⟩,
    ⟨.question, exactly ['?']⟩,
    ⟨.stringLiteral, complete '\x22'⟩, ⟨.stringLiteral, complete '\x27'⟩,
    ⟨.unterminatedStr, unterminated '\x22'⟩, ⟨.unterminatedStr, unterminated '\x27'⟩,
    ⟨.kwImport, exactly ['i', 'm', 'p', 'o', 'r', 't']⟩, ⟨.kwAs, exactly ['a', 's']⟩,
    ⟨.kwFunc, exactly ['f', 'u', 'n', 'c']⟩, ⟨.kwReturn, exactly ['r', 'e', 't', 'u', 'r', 'n']⟩,
    ⟨.kwExport, exactly ['e', 'x', 'p', 'o', 'r', 't']⟩,
    ⟨.number, number⟩, ⟨.id, identifier⟩,
    ⟨.whitespace, run fun c => c == ' ' || c == '\t'⟩, ⟨.newline, exactly ['\n']⟩,
    ⟨.newline, exactly ['\r', '\n']⟩, ⟨.lineComment, comment⟩]

/-- The longest match of some rules, with the kind of the first rule that reaches it. -/
def longest : List Rule → List Char → Option (Kind × Nat)
  | [], _ => none
  | r :: rules, cs =>
      match r.match? cs, longest rules cs with
      | none, best => best
      | some n, none => some (r.kind, n)
      | some n, some (k, m) => if n < m then some (k, m) else some (r.kind, n)

def best (cs : List Char) : Option (Kind × Nat) := longest all cs

end Rule

end Transducer
