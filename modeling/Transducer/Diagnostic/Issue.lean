/-!
What a diagnostic can be about. The order of the issues is their priority: an earlier one hides a later one
that it may have caused. Unclosed delimiters and strings come first, because everything after them is usually
noise; what the program accepts and then drops or replaces comes last and is only a warning.
-/

namespace Transducer

inductive Severity where
  | error
  | warning
  deriving DecidableEq, Repr

def Severity.name : Severity → String
  | .error => "error"
  | .warning => "warning"

inductive Issue where
  | unclosedParen | unclosedBracket | unclosedBrace | unterminatedString
  | expectedExpression | expectedName | expectedNumber | expectedSemicolon
  | unexpectedToken | invalidRepetitionBound | invalidNumericEscape
  | undefinedReference | outputNotLiteral | weightNotSupported | functionNotSupported | importNotSupported
  deriving DecidableEq, Repr

namespace Issue

def all : List Issue :=
  [unclosedParen, unclosedBracket, unclosedBrace, unterminatedString, expectedExpression, expectedName,
    expectedNumber, expectedSemicolon, unexpectedToken, invalidRepetitionBound, invalidNumericEscape,
    undefinedReference, outputNotLiteral, weightNotSupported, functionNotSupported, importNotSupported]

/-- Position in the order of priority, the highest first. -/
def rank (i : Issue) : Nat := all.idxOf i

def name : Issue → String
  | unclosedParen => "UnclosedParen"
  | unclosedBracket => "UnclosedBracket"
  | unclosedBrace => "UnclosedBrace"
  | unterminatedString => "UnterminatedString"
  | expectedExpression => "ExpectedExpression"
  | expectedName => "ExpectedName"
  | expectedNumber => "ExpectedNumber"
  | expectedSemicolon => "ExpectedSemicolon"
  | unexpectedToken => "UnexpectedToken"
  | invalidRepetitionBound => "InvalidRepetitionBound"
  | invalidNumericEscape => "InvalidNumericEscape"
  | undefinedReference => "UndefinedReference"
  | outputNotLiteral => "OutputNotLiteral"
  | weightNotSupported => "WeightNotSupported"
  | functionNotSupported => "FunctionNotSupported"
  | importNotSupported => "ImportNotSupported"

def severity : Issue → Severity
  | undefinedReference | outputNotLiteral | weightNotSupported | functionNotSupported
  | importNotSupported => .warning
  | _ => .error

/-- Whether the first issue has priority over the second. -/
def outranks (i j : Issue) : Bool := i.rank < j.rank

/-- An opening delimiter without its partner. -/
def isStructural : Issue → Bool
  | unclosedParen | unclosedBracket | unclosedBrace => true
  | _ => false

/-- Something required is missing, which may be why a delimiter stays open. -/
def isRootCause : Issue → Bool
  | expectedExpression | expectedName | expectedNumber | expectedSemicolon => true
  | _ => false

/-- The message without any detail. -/
def headline : Issue → String
  | unclosedParen => "missing closing `)`"
  | unclosedBracket => "missing closing `]`"
  | unclosedBrace => "missing closing `\x7d`"
  | unterminatedString => "unterminated string literal"
  | expectedExpression => "expected an expression"
  | expectedName => "expected a name"
  | expectedNumber => "expected a number"
  | expectedSemicolon => "expected `;`"
  | unexpectedToken => "unexpected token"
  | invalidRepetitionBound => "repetition bound must be a non-negative integer"
  | invalidNumericEscape => "invalid numeric escape"
  | undefinedReference => "undefined reference"
  | outputNotLiteral => "output side must be a string literal"
  | weightNotSupported => "weights are not supported"
  | functionNotSupported => "functions are not supported"
  | importNotSupported => "imports are not supported"

/-- What stands before and after a detail in the message. -/
def template (i : Issue) : String × String :=
  match i with
  | undefinedReference => ("`", "` is not defined")
  | unclosedParen | unclosedBracket | unclosedBrace => (i.headline ++ "; ", "")
  | expectedExpression | expectedName | expectedNumber | expectedSemicolon => (i.headline ++ " ", "")
  | _ => (i.headline ++ ": ", "")

/-- The template with a pair of braces in the place of the detail. -/
def templateText (i : Issue) : String := i.template.1 ++ "\x7b\x7d" ++ i.template.2

def message (i : Issue) : Option String → String
  | none => i.headline
  | some detail => i.template.1 ++ detail ++ i.template.2

end Issue

end Transducer
