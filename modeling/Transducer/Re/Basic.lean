import Transducer.CharClass.Algebra
import Transducer.Table

/-!
Regular expressions with outputs, the values of definitions. Literals, single characters and classes are leaves
and may be copied; anything bigger is shared by name through a variable.
-/

namespace Transducer

inductive Quantifier where
  | zeroOrMore
  | oneOrMore
  | zeroOrOne
  deriving DecidableEq, Repr

namespace Quantifier

def ofMarker? : String → Option Quantifier
  | "*" => some .zeroOrMore
  | "+" => some .oneOrMore
  | "?" => some .zeroOrOne
  | _ => none

def marker : Quantifier → Char
  | .zeroOrMore => '*'
  | .oneOrMore => '+'
  | .zeroOrOne => '?'

def name : Quantifier → String
  | .zeroOrMore => "zero_or_more"
  | .oneOrMore => "one_or_more"
  | .zeroOrOne => "zero_or_one"

end Quantifier

inductive Re where
  | union (lhs rhs : Re)
  | concat (lhs rhs : Re)
  | compose (lhs rhs : Re)
  | diff (lhs rhs : Re)
  | kleene (operand : Re) (quantifier : Quantifier)
  | output (input : Re) (output : List CodePoint)
  | char (c : CodePoint)
  | set (members : CharClass)
  | str (cs : List CodePoint)
  | var (name : String)
  deriving DecidableEq, Repr

namespace Re

/-- A literal of one code point is a character. -/
def literal : List CodePoint → Re
  | [c] => .char c
  | cs => .str cs

def epsilon : Re := .str []

/-- How loose an expression binds when it is printed. A class with several runs prints as a union of them. -/
def precedence : Re → Nat
  | .union _ _ => 4
  | .concat _ _ => 3
  | .kleene _ _ => 2
  | .output _ _ => 1
  | .set k => if 1 < k.memberRunCount then 4 else 0
  | _ => 0

def isSetLike : Re → Bool
  | .set _ | .char _ => true
  | _ => false

def isStrLike : Re → Bool
  | .str _ | .char _ => true
  | _ => false

/-- The expression as a class. A character outside the alphabet is none. -/
def asSet (a : Alphabet) : Re → Except CharClass.Error (Option CharClass)
  | .set k => .ok (some k)
  | .char c => if a.holds c then (CharClass.singleton a c).map some else .ok none
  | _ => .ok none

/-- The expression as a literal. -/
def asStr? : Re → Option (List CodePoint)
  | .str cs => some cs
  | .char c => some [c]
  | _ => none

def children : Re → List Re
  | .union l r | .concat l r | .compose l r | .diff l r => [l, r]
  | .kleene operand _ => [operand]
  | .output input _ => [input]
  | .char _ | .set _ | .str _ | .var _ => []

/-- The names referred to from left to right, in front of those in `after`. Working from the right keeps long
chains, which lean to the left, from piling up. -/
def referencesBefore : Re → List String → List String
  | .union l r, after | .concat l r, after | .compose l r, after | .diff l r, after =>
      referencesBefore l (referencesBefore r after)
  | .kleene operand _, after => referencesBefore operand after
  | .output input _, after => referencesBefore input after
  | .char _, after | .set _, after | .str _, after => after
  | .var name, after => name :: after

/-- The names referred to, from left to right, each as often as it is. -/
def references (re : Re) : List String := re.referencesBefore []

end Re

/-- How often each name is referred to, in the order of first references. -/
abbrev Usages := Table Nat

namespace Usages

def count (u : Usages) (name : String) : Nat := (u.get? name).getD 0

def add (u : Usages) (name : String) : Usages := u.insert name (u.count name + 1)

def ofReferences (names : List String) : Usages := names.foldl add Table.empty

def ofTable (t : Table Re) : Usages := ofReferences (t.entries.flatMap fun e => e.2.references)

end Usages

end Transducer
