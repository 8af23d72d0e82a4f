/-!
Kinds of tokens and nodes. One enumeration serves the leaves and the inner nodes of a syntax tree; the order
of the constructors is the order of the kinds' numbers. `KindSet` is a set of kinds.
-/

namespace Transducer

inductive Kind where
  | parenOpen | parenClose | bracketOpen | bracketClose | braceOpen | braceClose | angleOpen | angleClose
  | equals | semicolon | comma | colon | pipe | atSign | minus | star | plus | question
  /-- A complete string before it is split; no token of a source has this kind. -/
  | stringLiteral
  | doubleQuote | singleQuote
  /-- What stands between two quotes, escapes unresolved. -/
  | strVal
  /-- An opening quote without its partner, and what follows it. -/
  | unterminatedStr
  | kwImport | kwAs | kwFunc | kwReturn | kwExport
  | number
  /-- A name; dots are part of it. -/
  | id
  | whitespace | newline | lineComment
  /-- Neighbouring characters that no rule matches. -/
  | garbage
  /-- Skipped tokens as a node; also stands for the end of input where a kind is asked for. -/
  | error
  | root | varDef | importStmt | funcDef | params | returnStmt
  | compose | union | diff | concat | output | weight | repetition | closure | ref | str | nested | call | args
  deriving DecidableEq, Repr

namespace Kind

def all : List Kind :=
  [parenOpen, parenClose, bracketOpen, bracketClose, braceOpen, braceClose, angleOpen, angleClose, equals,
    semicolon, comma, colon, pipe, atSign, minus, star, plus, question, stringLiteral, doubleQuote, singleQuote,
    strVal, unterminatedStr, kwImport, kwAs, kwFunc, kwReturn, kwExport, number, id, whitespace, newline,
    lineComment, garbage, error, root, varDef, importStmt, funcDef, params, returnStmt, compose, union, diff,
    concat, output, weight, repetition, closure, ref, str, nested, call, args]

/-- Position in the list of all kinds. -/
def index (k : Kind) : Nat := all.idxOf k

def name : Kind → String
  | parenOpen => "ParenOpen"
  | parenClose => "ParenClose"
  | bracketOpen => "BracketOpen"
  | bracketClose => "BracketClose"
  | braceOpen => "BraceOpen"
  | braceClose => "BraceClose"
  | angleOpen => "AngleOpen"
  | angleClose => "AngleClose"
  | equals => "Equals"
  | semicolon => "Semicolon"
  | comma => "Comma"
  | colon => "Colon"
  | pipe => "Pipe"
  | atSign => "At"
  | minus => "Minus"
  | star => "Star"
  | plus => "Plus"
  | question => "Question"
  | stringLiteral => "StringLiteral"
  | doubleQuote => "DoubleQuote"
  | singleQuote => "SingleQuote"
  | strVal => "StrVal"
  | unterminatedStr => "UnterminatedStr"
  | kwImport => "KwImport"
  | kwAs => "KwAs"
  | kwFunc => "KwFunc"
  | kwReturn => "KwReturn"
  | kwExport => "KwExport"
  | number => "Number"
  | id => "Id"
  | whitespace => "Whitespace"
  | newline => "Newline"
  | lineComment => "LineComment"
  | garbage => "Garbage"
  | error => "Error"
  | root => "Root"
  | varDef => "VarDef"
  | importStmt => "Import"
  | funcDef => "FuncDef"
  | params => "Params"
  | returnStmt => "Return"
  | compose => "Compose"
  | union => "Union"
  | diff => "Diff"
  | concat => "Concat"
  | output => "Output"
  | weight => "Weight"
  | repetition => "Repeat"
  | closure => "Closure"
  | ref => "Ref"
  | str => "Str"
  | nested => "Nested"
  | call => "Call"
  | args => "Args"

/-- Blanks, line ends and comments, which carry no meaning. -/
def isTrivia : Kind → Bool
  | whitespace | newline | lineComment => true
  | _ => false

def isError : Kind → Bool
  | error | garbage | unterminatedStr => true
  | _ => false

end Kind

structure KindSet where
  kinds : List Kind

namespace KindSet

def contains (s : KindSet) (k : Kind) : Bool := s.kinds.contains k

def union (s t : KindSet) : KindSet := ⟨s.kinds ++ t.kinds⟩

/-- The members, each once, by ascending number. -/
def toList (s : KindSet) : List Kind := Kind.all.filter s.contains

/-- The members' names in braces. -/
def text (s : KindSet) : String := "\x7b" ++ ", ".intercalate (s.toList.map Kind.name) ++ "\x7d"

/-- Kinds that can start an expression. -/
def exprFirst : KindSet := ⟨[.id, .doubleQuote, .singleQuote, .unterminatedStr, .parenOpen]⟩

def closures : KindSet := ⟨[.star, .plus, .question]⟩

/-- Kinds that end a broken statement; a name before `=` does too. -/
def stmtBoundary : KindSet := ⟨[.semicolon, .braceClose, .kwExport, .kwImport, .kwFunc, .kwReturn]⟩

end KindSet

end Transducer
