import Transducer.Parse.State

/-!
The grammar as an agenda. A goal says what is to be read next; reading it consumes tokens, builds nodes, and
puts the goals that are left over in front of the others. No goal calls another one, so nesting in a source
costs no more than a longer agenda. A call stack that deep nesting could use up is not part of the model; nested
function bodies are counted by no limit.

An expression is an atom with suffixes. Every strength of binding, from closure to composition, marks the place
where its operand starts, and when the operand is complete a suffix goal looks for the operator: if it is there
the mark becomes a node. All operators of one strength in a row share one node, however many there are.
-/

namespace Transducer.Parse

/-- Strengths of binding, the tightest first. -/
inductive Strength where
  | closure | repetition | weight | output | concat | diff | union | compose
  deriving DecidableEq, Repr

/-- All strengths up to the given one, the tightest first. -/
def Strength.upTo : Strength → List Strength
  | .closure => [.closure]
  | .repetition => [.closure, .repetition]
  | .weight => [.closure, .repetition, .weight]
  | .output => [.closure, .repetition, .weight, .output]
  | .concat => [.closure, .repetition, .weight, .output, .concat]
  | .diff => [.closure, .repetition, .weight, .output, .concat, .diff]
  | .union => [.closure, .repetition, .weight, .output, .concat, .diff, .union]
  | .compose => [.closure, .repetition, .weight, .output, .concat, .diff, .union, .compose]

/-- Statements that end in an expression. -/
inductive Form where
  | definition
  | returned
  deriving DecidableEq, Repr

namespace Form

/-- What the expression comes after. -/
def afterOpening : Form → String
  | .definition => "after `=`"
  | .returned => "after `return`"

/-- What the closing `;` comes after. -/
def afterBody : Form → String
  | .definition => "after definition"
  | .returned => "after return"

end Form

inductive Goal where
  /-- Statements to the end of input, or to the end of a function body. -/
  | statements (inBody : Bool)
  /-- One parameter and those after it. -/
  | parameters
  | functionBody
  | endBody
  /-- Tokens to the next statement boundary. -/
  | skip
  /-- The `;` of skipped tokens, which belongs to them. -/
  | endRecovery
  /-- The `;` of a statement in which tokens were skipped. -/
  | endSkipped
  | endStatement (form : Form)
  | expression
  | leaveExpression
  /-- The operator of a strength, its first operand being complete. -/
  | suffixOf (strength : Strength)
  | endOutput
  /-- Arguments after the first one. -/
  | arguments
  | endGroup
  deriving DecidableEq, Repr

/-- The goals left over and the state reached. -/
abbrev Step := Except Fault (List Goal × State)

/-- A step that leaves nothing over. -/
def done (s : Except Fault State) : Step := s.map fun s => ([], s)

/-- A step that leaves some goals over. -/
def leaving (goals : List Goal) (s : Except Fault State) : Step := s.map fun s => (goals, s)

def string (s : State) : Except Fault State := do
  let quote := s.current
  let s ← (s.openNode .str).bump
  let s ← s.skipOne .strVal
  s.requireCurrent quote
  let s ← s.bump
  s.closeNode

/-- An expression, or a report that it is missing. -/
def nestedExpression (s : State) (opener : String) (next : Goal) : Step :=
  if s.looksAtAny .exprFirst then .ok ([.expression, next], s)
  else leaving [next] (s.report .expectedExpression s!"after `{opener}`")

def group (s : State) : Step := do
  let s ← (s.openNode .nested).openDelimiter .parenOpen
  nestedExpression s "(" .endGroup

def endArguments (s : State) : Except Fault State := do
  let s ← s.closeDelimiter .bracketClose "argument list"
  let s ← s.closeNode
  s.closeNode

def call (s : State) : Step := do
  let s ← (s.openNode .call).bump
  let s ← (s.openTight (some .args)).openDelimiter .bracketOpen
  if s.looksAt .bracketClose then done (endArguments s) else nestedExpression s "[" .arguments

def reference (s : State) : Except Fault State := do
  let s ← (s.openNode .ref).bump
  s.closeNode

/-- A token that starts no expression, reported and wrapped in an error node. -/
def stray (s : State) : Except Fault State := do
  let s ← s.report .unexpectedToken "not a valid expression"
  if s.atEnd then return s
  else
    let s ← (s.openNode .error).bump
    s.closeNode

def atom (s : State) : Step :=
  match s.current with
  | .id => if s.isFollowedBy .bracketOpen then call s else done (reference s)
  | .doubleQuote | .singleQuote => done (string s)
  | .unterminatedStr => done s.unterminatedString
  | .parenOpen => group s
  | _ => done (stray s)

/-- An operand that binds at least as tight as the given strength: a mark for every such strength, the atom, and
the suffixes. -/
def operand (strength : Strength) (following : List Goal) (s : State) : Step := do
  let marked := strength.upTo.foldl (fun s _ => s.mark) s
  let (goals, s) ← atom marked
  return (goals ++ strength.upTo.map .suffixOf ++ following, s)

/-- The operand after an operator, or a report that it is missing. -/
def operandAfter (operator : String) (strength : Strength) (following : List Goal) (s : State) : Step :=
  if s.looksAtAny .exprFirst then operand strength following s
  else leaving following (s.report .expectedExpression s!"after `{operator}`")

def expression (s : State) : Step :=
  if s.limits.allowsDepth s.depth then operand .compose [.leaveExpression] s.descend
  else done (s.descend.openNode .error).closeNode

/-- A bound of a repetition has to be a number that can be counted to. -/
def checkBound (s : State) : Except Fault State :=
  if (readNumeral? s.currentText).isNone then s.report .invalidRepetitionBound s!"`{s.currentText}`" else .ok s

def bound (s : State) : Except Fault State :=
  if s.looksAt .number then do (← checkBound s).bump else s.report .expectedNumber "as repetition bound"

def upperBound (s : State) : Except Fault State :=
  if s.looksAt .comma then do bound (← s.bump) else .ok s

def bounds (s : State) : Except Fault State := do
  let s ← (s.wrap .repetition).openDelimiter .braceOpen
  let s ← bound s
  let s ← upperBound s
  s.closeDelimiter .braceClose "repetition"

def weightValue (s : State) : Except Fault State := do
  let s ← (s.wrap .weight).bump
  let s ← s.expect .number .expectedNumber "inside `< >`"
  s.expect .angleClose .unexpectedToken "expected `>` to close weight"

/-- One more operator of a chain with its operand; the chain then looks for another one. -/
def chainLink (node : Kind) (operator : String) (strength tighter : Strength) (s : State) : Step := do
  let s ← (s.wrap node).bump
  operandAfter operator tighter [.suffixOf strength] s

def suffixStep (strength : Strength) (s : State) : Step :=
  match strength with
  | .closure =>
      if s.looksAtAny .closures then done do (← (s.wrap .closure).bump).closeNode else done s.closeNode
  | .repetition =>
      if s.looksAt .braceOpen then done do (← bounds s).closeNode else done s.closeNode
  | .weight =>
      if s.looksAt .angleOpen then done do (← weightValue s).closeNode else done s.closeNode
  | .output =>
      if s.looksAt .colon then do
        let s ← (s.wrap .output).bump
        operandAfter ":" .weight [.endOutput] s
      else done s.closeNode
  | .concat =>
      if s.atOperand then operand .output [.suffixOf .concat] (s.wrap .concat) else done s.closeNode
  | .diff => if s.looksAt .minus then chainLink .diff "-" .diff .concat s else done s.closeNode
  | .union => if s.looksAt .pipe then chainLink .union "|" .union .diff s else done s.closeNode
  | .compose => if s.looksAt .atSign then chainLink .compose "@" .compose .union s else done s.closeNode

def moreArguments (s : State) : Step :=
  if s.looksAt .comma then do nestedExpression (← s.bump) "," .arguments else done (endArguments s)

def endGroup (s : State) : Except Fault State := do
  let s ← s.closeDelimiter .parenClose "group"
  s.closeNode

/-- The expression that a statement ends in. Tokens that cannot start one are skipped. -/
def statementBody (form : Form) (s : State) : Step :=
  if s.looksAtAny .exprFirst then .ok ([.expression, .endStatement form], s)
  else if s.atEnd || s.atBoundary then
    leaving [.endStatement form] (s.report .expectedExpression form.afterOpening)
  else leaving [.skip, .endSkipped] ((s.openNode .error).report .expectedExpression form.afterOpening)

/-- The `;` of a statement. Tokens in front of it are skipped. -/
def endStatement (form : Form) (s : State) : Step :=
  if s.atEnd || s.atBoundary then done do (← s.expectSemicolon form.afterBody).closeNode
  else
    leaving [.skip, .endSkipped]
      ((s.openNode .error).report .unexpectedToken "expected `;` to end the statement")

def definition (s : State) : Step := do
  let s ← (s.openNode .varDef).skipOne .kwExport
  let s ← s.expect .id .expectedName "for definition"
  let s ← s.expect .equals .unexpectedToken "expected `=` after name"
  statementBody .definition s

def returnStatement (s : State) : Step := do
  let s := s.openNode .returnStmt
  s.requireCurrent .kwReturn
  statementBody .returned (← s.bump)

def importPath (s : State) : Except Fault State :=
  match s.current with
  | .doubleQuote | .singleQuote => string s
  | .unterminatedStr => s.unterminatedString
  | _ => s.report .unexpectedToken "expected a quoted path"

def importStatement (s : State) : Except Fault State := do
  let s := s.openNode .importStmt
  s.requireCurrent .kwImport
  let s ← s.bump
  let s ← importPath s
  let s ← s.expect .kwAs .unexpectedToken "expected `as`"
  let s ← s.expect .id .expectedName "for import alias"
  let s ← s.expectSemicolon "after import"
  s.closeNode

def endParameters (s : State) : Except Fault State := do
  let s ← s.closeDelimiter .bracketClose "parameter list"
  s.closeNode

/-- A parameter list right after the name takes the trivia between them with it. -/
def openParameters (s : State) : Except Fault State :=
  if s.looksAt .id then s.bump.map fun s => s.openTight (some .params)
  else (s.report .expectedName "for function").map fun s => s.openNode .params

def functionStatement (s : State) : Step := do
  let s := s.openNode .funcDef
  s.requireCurrent .kwFunc
  let s ← openParameters (← s.bump)
  if s.looksAt .bracketOpen then
    let s ← s.openDelimiter .bracketOpen
    if s.looksAt .bracketClose then leaving [.functionBody] (endParameters s)
    else return ([.parameters, .functionBody], s)
  else
    let s ← s.report .unexpectedToken "expected `[` to open parameter list"
    leaving [.functionBody] s.closeNode

def parameters (s : State) : Step := do
  let s ← s.expect .id .expectedName "for parameter"
  if s.looksAt .comma then leaving [.parameters] s.bump else done (endParameters s)

def functionBody (s : State) : Step :=
  if s.looksAt .braceOpen then leaving [.statements true, .endBody] (s.openDelimiter .braceOpen)
  else done do
    let s ← s.report .unexpectedToken "expected `\x7b` to open function body"
    s.closeNode

def endBody (s : State) : Except Fault State := do
  let s ← s.closeDelimiter .braceClose "function body"
  s.closeNode

/-- A token that starts no statement. It is skipped with all tokens up to the next statement. -/
def recovery (message : String) (s : State) : Step := do
  let s ← (s.openNode .error).report .unexpectedToken message
  leaving [.skip, .endRecovery] s.bump

def statement (s : State) : Step :=
  match s.current with
  | .id | .kwExport => definition s
  | .kwImport => done (importStatement s)
  | .kwFunc => functionStatement s
  | .kwReturn => returnStatement s
  | _ => recovery "expected a statement like `name = ...;`" s

def statements (inBody : Bool) (s : State) : Step :=
  if s.isStopped || s.atEnd || (inBody && s.current == .braceClose) then .ok ([], s)
  else
    let first :=
      if s.current = .braceClose then recovery "`\x7d` without an open function body" s else statement s
    first.map fun (goals, s) => (goals ++ [.statements inBody], s)

def skip (s : State) : Step :=
  if s.atEnd || s.isStopped || s.atBoundary then .ok ([], s) else leaving [.skip] s.bump

def endRecovery (s : State) : Except Fault State := do (← s.skipOne .semicolon).closeNode

def endSkipped (s : State) : Except Fault State := do
  let s ← s.closeNode
  let s ← s.skipOne .semicolon
  s.closeNode

/-- Works on one goal. -/
def act : Goal → State → Step
  | .statements inBody, s => statements inBody s
  | .parameters, s => parameters s
  | .functionBody, s => functionBody s
  | .endBody, s => done (endBody s)
  | .skip, s => skip s
  | .endRecovery, s => done (endRecovery s)
  | .endSkipped, s => done (endSkipped s)
  | .endStatement form, s => endStatement form s
  | .expression, s => expression s
  | .leaveExpression, s => .ok ([], s.ascend)
  | .suffixOf strength, s => suffixStep strength s
  | .endOutput, s => done s.closeNode
  | .arguments, s => moreArguments s
  | .endGroup, s => done (endGroup s)

end Transducer.Parse
