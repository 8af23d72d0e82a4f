import Transducer.Tree.Located

/-!
Typed expressions, read off a syntax tree. Every expression carries the span of its text. Broken input may leave
a part out; `Expr.missing` stands in its place. Tokens are given by their text.
-/

namespace Transducer

/-- Operators whose operands in a row share one node. -/
inductive ChainOp where
  | compose
  | union
  | diff
  deriving DecidableEq, Repr

inductive Expr where
  | missing
  | chain (span : Span) (op : ChainOp) (operators : Nat) (operands : List Expr)
  | concat (span : Span) (operands : List Expr)
  | output (span : Span) (lhs rhs : Expr)
  | weight (span : Span) (operand : Expr) (value : Option String)
  | repetition (span : Span) (operand : Expr) (isRange : Bool) (lower upper : Option String)
  | closure (span : Span) (operand : Expr) (marker : Option String)
  | reference (span : Span) (name : Option String)
  /-- The content between the quotes, escapes unresolved, and where it starts. -/
  | literal (span : Span) (content : Option (String × Nat))
  | group (span : Span) (inner : Expr)
  | call (span : Span) (name : Option String) (arguments : List Expr)

namespace Expr

def span : Expr → Span
  | .missing => .point 0
  | .chain s _ _ _ | .concat s _ | .output s _ _ | .weight s _ _ | .repetition s _ _ _ _ | .closure s _ _
  | .reference s _ | .literal s _ | .group s _ | .call s _ _ => s

/-- Whether the operands are too few for the operators between them. -/
def isShort (operators operands : Nat) : Bool := operands ≤ operators

/-- An operator of a chain has nothing after it. -/
def lacksOperand : Expr → Bool
  | .chain _ _ operators operands => isShort operators operands.length
  | _ => false

def isNode (k : Kind) : Bool :=
  match k with
  | .compose | .union | .diff | .concat | .output | .weight | .repetition | .closure | .ref | .str | .nested
  | .call => true
  | _ => false

end Expr

namespace Located

/-- The tokens of a kind among some children, with their spans. -/
def tokensOf (p : Kind → Bool) (children : List Located) : List (Token × Span) :=
  children.filterMap fun
    | .leaf t s => if p t.kind then some (t, s) else none
    | .node _ _ _ => none

/-- The texts of the tokens of a kind. -/
def textsOf (k : Kind) (children : List Located) : List String :=
  (tokensOf (· == k) children).map fun t => t.1.text

end Located

namespace Expr

open Located

mutual

def ofLocated : Located → Expr
  | .leaf _ _ => .missing
  | .node kind span children =>
      let parts := partsOf children
      let part := parts.headD .missing
      match kind with
      | .compose => .chain span .compose (textsOf .atSign children).length parts
      | .union => .chain span .union (textsOf .pipe children).length parts
      | .diff => .chain span .diff (textsOf .minus children).length parts
      | .concat => .concat span parts
      | .output => .output span part ((parts.drop 1).headD .missing)
      | .weight => .weight span part (textsOf .number children).head?
      | .repetition =>
          let isRange := !(textsOf .comma children).isEmpty
          let bounds := textsOf .number children
          .repetition span part isRange bounds.head? (if isRange then bounds[1]? else none)
      | .closure => .closure span part ((tokensOf KindSet.closures.contains children).head?.map fun t => t.1.text)
      | .ref => .reference span (textsOf .id children).head?
      | .str => .literal span ((tokensOf (· == .strVal) children).head?.map fun t => (t.1.text, t.2.start))
      | .nested => .group span part
      | .call => .call span (textsOf .id children).head? (argumentsOf children)
      | _ => .missing

/-- The expressions among some children. -/
def partsOf : List Located → List Expr
  | [] => []
  | t :: ts => if isNode t.kind then ofLocated t :: partsOf ts else partsOf ts

/-- The expressions inside the first argument list. -/
def argumentsOf : List Located → List Expr
  | [] => []
  | .leaf _ _ :: ts => argumentsOf ts
  | .node kind _ children :: ts => if kind = .args then partsOf children else argumentsOf ts

end

end Expr

end Transducer
