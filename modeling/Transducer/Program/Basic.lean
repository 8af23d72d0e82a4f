import Transducer.Re.Json
import Transducer.Re.Text

/-! Programs: a table of definitions over an alphabet. -/

namespace Transducer

structure Program where
  table : Table Re
  alphabet : Alphabet

namespace Program

def names (p : Program) : List String := p.table.names

def usages (p : Program) : Usages := .ofTable p.table

/-- The canonical text, one definition a line. -/
def text (p : Program) : String := Re.writeTable p.alphabet p.table

def toJson (p : Program) : Json := Re.tableJson p.table

/-- How a name's line ends in the list of symbols. -/
def usesText : Nat → String
  | 0 => ""
  | 1 => " (1 use)"
  | n => s!" ({n} uses)"

/-- The names defined with the number of references to them, one a line. -/
def symbols (p : Program) : String :=
  let usages := p.usages
  String.join (p.names.map fun name => name ++ usesText (usages.count name) ++ "\n")

/-- The classes of those definitions that have one, in order. -/
def sets (p : Program) : Except CharClass.Error (List (String × CharClass)) := do
  let found ← p.table.entries.mapM fun e => do
    return (← e.2.asSet p.alphabet).map fun k => (e.1, k)
  return found.filterMap fun f => f

end Program

end Transducer
