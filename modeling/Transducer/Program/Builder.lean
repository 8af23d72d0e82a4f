import Transducer.Ast.Stmt
import Transducer.Diagnostic.Basic
import Transducer.Fault
import Transducer.Literal.Escape
import Transducer.Program.Folder

/-!
From statements to a table of expressions. Definitions are evaluated in order and from the inside out. Literals
and classes fold as soon as they meet; everything else becomes a node. What cannot be expressed is replaced by a
variable that nothing defines and reported as a warning, and a definition whose body is incomplete is not bound.
-/

namespace Transducer

/-- Stands in for an output side that is no literal. -/
def nondeterminismError : String := "NONDETERMINISM_ERROR"

/-- Stands in for a weighted expression. -/
def weightNotSupported : String := "WEIGHT_NOT_SUPPORTED"

/-- Stands in for a call. -/
def functionNotSupported : String := "FUNCTION_NOT_SUPPORTED"

structure Builder where
  table : Table Re
  /-- Last one first. -/
  diagnostics : List Diagnostic
  /-- The definition being evaluated. -/
  current : Option String
  /-- The number of variables made for it so far. -/
  counter : Nat

namespace Builder

/-- The value of an expression, if it is complete, and the state it leaves. -/
abbrev Result := Except Fault (Option Re × Builder)

def start : Builder := ⟨.empty, [], none, 0⟩

def report (b : Builder) (issue : Issue) (span : Span) (detail : String) : Builder :=
  { b with diagnostics := .withDetail issue span detail :: b.diagnostics }

def beginDefinition (b : Builder) (name : String) : Except Fault Builder :=
  match b.current with
  | some _ => .error (.definitionOpen name)
  | none => .ok { b with current := some name, counter := 0 }

/-- Binds the value, if there is one. A name that is bound again keeps its place in the table. -/
def endDefinition (b : Builder) (name : String) (value : Option Re) : Except Fault Builder :=
  if b.current = some name then
    .ok { b with
      current := none
      table := match value with
        | some re => b.table.insert name re
        | none => b.table }
  else .error (.definitionNotOpen name)

def syntheticName (definition : String) (k : Nat) : String := s!"__{definition}__{k}"

/-- Binds a value to a variable of its own and refers to it. -/
def hoist (b : Builder) (value : Re) : Option Re × Builder :=
  match b.current with
  | none => (none, b)
  | some definition =>
      let name := syntheticName definition b.counter
      (some (.var name), { b with table := b.table.insert name value, counter := b.counter + 1 })

/-- An expression as a class. -/
def setOf (a : Alphabet) (re : Re) : Except Fault (Option CharClass) := (re.asSet a).mapError .charClass

/-- Both expressions as classes, if both have a class. -/
def setPair (a : Alphabet) (l r : Re) : Except Fault (Option (CharClass × CharClass)) := do
  match ← setOf a l with
  | none => return none
  | some k => return (← setOf a r).map fun m => (k, m)

/-- The class that a combination of two expressions folds to, or the node it becomes. -/
def foldSets (a : Alphabet) (fold : CharClass → CharClass → Except CharClass.Error CharClass)
    (node : Re → Re → Re) (l r : Re) : Except Fault Re := do
  match ← setPair a l r with
  | none => return node l r
  | some (k, m) => return .set (← (fold k m).mapError .charClass)

/-- Two neighbours of a chain. -/
def combine (a : Alphabet) : ChainOp → Re → Re → Except Fault Re
  | .union, l, r => foldSets a (CharClass.union a) .union l r
  | .diff, l, r => foldSets a (CharClass.difference a) .diff l r
  | .compose, l, r => .ok (.compose l r)

/-- Folds a chain from the left. -/
def foldChain (a : Alphabet) (op : ChainOp) : List Re → Except Fault (Option Re)
  | [] => .ok none
  | re :: res => (res.foldlM (combine a op) re).map some

/-- All values, if none is missing. -/
def allPresent (values : List (Option Re)) : Option (List Re) := values.mapM fun v => v

/-- The value of a chain, unless an operand is missing or has no value. -/
def chainValue (a : Alphabet) (op : ChainOp) (operators : Nat) (values : List (Option Re)) :
    Except Fault (Option Re) :=
  if Expr.isShort operators values.length then .ok none
  else
    match allPresent values with
    | none => .ok none
    | some res => foldChain a op res

/-- `lower` copies of an expression and then optional ones up to `upper` of them. -/
def copies (unit : Re) (lower upper : Nat) : Option Re :=
  Folder.fold
    (List.replicate lower unit ++ List.replicate (upper - lower) (.kleene unit .zeroOrOne))

/-- The bounds of a repetition, if both can be read. -/
def repetitionBounds (isRange : Bool) (lower upper : Option String) : Option (Nat × Nat) := do
  let low ← readNumeral? (← lower)
  let high ← if isRange then do readNumeral? (← upper) else some low
  return (low, high)

/-- What a repetition makes of its operand. Anything but a literal is bound to a variable first. -/
def repeated (lower upper : Nat) (value : Option Re) (b : Builder) : Option Re × Builder :=
  match value with
  | none => (none, b)
  | some re =>
      if re.isStrLike then (copies re lower upper, b)
      else
        match b.hoist re with
        | (some unit, b) => (copies unit lower upper, b)
        | (none, b) => (none, b)

/-- Literals and classes are copied, anything else is referred to by its name. -/
def reference (b : Builder) (span : Span) (name : String) : Re × Builder :=
  match b.table.get? name with
  | some re => if re.isSetLike || re.isStrLike then (re, b) else (.var name, b)
  | none => (.var name, b.report .undefinedReference span name)

def literal (b : Builder) (content : Option (String × Nat)) : Result :=
  match content with
  | none => .ok (some .epsilon, b)
  | some (raw, start) =>
      match Literal.unescape raw with
      | .ok cs => .ok (some (.literal cs), b)
      | .error e => do
          let span ← Span.checked (start + e.start) (start + e.stop)
          return (none, b.report .invalidNumericEscape span e.message)

/-- The value of an input with an output, when both have one. -/
def withOutput (b : Builder) (span : Span) (input output : Option Re) : Option Re × Builder :=
  match input, output with
  | some input, some output =>
      match output.asStr? with
      | some cs => (some (.output input cs), b)
      | none =>
          (some (.var nondeterminismError),
            b.report .outputNotLiteral span s!"replaced by `{nondeterminismError}`")
  | _, _ => (none, b)

def withQuantifier (marker : Option String) (value : Option Re) : Option Re :=
  match marker.bind Quantifier.ofMarker? with
  | some q => value.map fun re => .kleene re q
  | none => value

/-- The text of a token that may be missing. -/
def textOrNone (text : Option String) : String := text.getD ""

mutual

def build (a : Alphabet) : Expr → Builder → Result
  | .missing, b => .ok (none, b)
  | .chain _ op operators operands, b => do
      let (values, b) ← buildAll a operands b
      return (← chainValue a op operators values, b)
  | .concat _ operands, b => do
      let (values, b) ← buildAll a operands b
      return ((allPresent values).bind Folder.fold, b)
  | .output _ lhs rhs, b => do
      let (input, b) ← build a lhs b
      let (output, b) ← build a rhs b
      return b.withOutput rhs.span input output
  | .weight span _ value, b =>
      .ok (some (.var weightNotSupported),
        b.report .weightNotSupported span s!"`<{textOrNone value}>` replaced by `{weightNotSupported}`")
  | .repetition _ operand isRange lower upper, b =>
      match repetitionBounds isRange lower upper with
      | none => .ok (none, b)
      | some (low, high) =>
          if high = 0 ∨ high < low then .ok (some .epsilon, b)
          else do
            let (value, b) ← build a operand b
            return repeated low high value b
  | .closure _ operand marker, b => do
      let (value, b) ← build a operand b
      return (withQuantifier marker value, b)
  | .reference span name, b =>
      match name with
      | none => .ok (none, b)
      | some name =>
          let (re, b) := b.reference span name
          .ok (some re, b)
  | .literal _ content, b => b.literal content
  | .group _ inner, b => build a inner b
  | .call span name _, b =>
      .ok (some (.var functionNotSupported),
        b.report .functionNotSupported span
          s!"call to `{textOrNone name}` replaced by `{functionNotSupported}`")

/-- The values of some expressions, each of which is evaluated whether the others have a value or not. -/
def buildAll (a : Alphabet) : List Expr → Builder → Except Fault (List (Option Re) × Builder)
  | [], b => .ok ([], b)
  | e :: es, b => do
      let (value, b) ← build a e b
      let (values, b) ← buildAll a es b
      return (value :: values, b)

end

def define (a : Alphabet) (name : String) (body : Expr) (b : Builder) : Except Fault Builder := do
  let b ← b.beginDefinition name
  let (value, b) ← build a body b
  b.endDefinition name value

/-- The raw content of a quoted path. -/
def pathText : Expr → String
  | .literal _ (some (raw, _)) => raw
  | _ => ""

def visit (a : Alphabet) (b : Builder) : Stmt → Except Fault Builder
  | .definition _ _ name body =>
      match name with
      | none => .ok b
      | some name => define a name body b
  | .importing span path _ =>
      .ok (b.report .importNotSupported span s!"`{pathText path}` is not loaded")
  | .function span name _ _ =>
      .ok (b.report .functionNotSupported span s!"body of `{textOrNone name}` is not evaluated")
  | .returning span _ =>
      .ok (b.report .functionNotSupported span "`return` outside a function body")

/-- Visits all statements of a source. -/
def run (a : Alphabet) (stmts : List Stmt) : Except Fault Builder := stmts.foldlM (visit a) start

end Builder

end Transducer
