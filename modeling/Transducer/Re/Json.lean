import Transducer.CharClass.Json
import Transducer.Re.Basic

/-! Regular expressions as JSON: an object with its kind first and then its parts. -/

namespace Transducer.Re

def toJson : Re → Json
  | .union l r => .object [("kind", .text "union"), ("lhs", toJson l), ("rhs", toJson r)]
  | .concat l r => .object [("kind", .text "concat"), ("lhs", toJson l), ("rhs", toJson r)]
  | .compose l r => .object [("kind", .text "compose"), ("lhs", toJson l), ("rhs", toJson r)]
  | .diff l r => .object [("kind", .text "diff"), ("lhs", toJson l), ("rhs", toJson r)]
  | .kleene operand q =>
      .object [("kind", .text "kleene"), ("operand", toJson operand), ("quantifier", .text q.name)]
  | .output input cs =>
      .object [("kind", .text "output"), ("input", toJson input), ("output", .ofCodePoints cs)]
  | .char c => .object [("kind", .text "char"), ("codepoint", .number c)]
  | .set k => .object [("kind", .text "set"), ("ranges", k.toJson)]
  | .str cs => .object [("kind", .text "str"), ("seq", .ofCodePoints cs)]
  | .var name => .object [("kind", .text "var"), ("name", .text name)]

/-- A table as an object, name by name. -/
def tableJson (t : Table Re) : Json := .object (t.entries.map fun e => (e.1, e.2.toJson))

end Transducer.Re
