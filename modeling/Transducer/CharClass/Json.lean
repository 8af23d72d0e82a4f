import Transducer.CharClass.Basic
import Transducer.Json.Reader

/-!
Classes as JSON. A class is the list of its breakpoints, each an object with the members `point` and
`member`. When read, a breakpoint may also be the pair of the two, and unknown members are skipped, whatever
their values are; their names must be text.
-/

namespace Transducer

namespace Breakpoint

def toJson (p : Breakpoint) : Json := .object [("point", .number p.point), ("member", .bool p.member)]

/-- The only member of that name; a second one is an error. -/
def onlyMember? (name : String) (members : List (String × Json)) : Option Json :=
  match members.filter fun m => m.1 == name with
  | [m] => some m.2
  | _ => none

def ofParts? (point member : Json) : Option Breakpoint :=
  match point.codePoint?, member with
  | some c, .bool b => some ⟨c, b⟩
  | _, _ => none

def ofJson? : Json → Option Breakpoint
  | .object members => do ofParts? (← onlyMember? "point" members) (← onlyMember? "member" members)
  | .array [point, member] => ofParts? point member
  | _ => none

end Breakpoint

namespace CharClass

def toJson (k : CharClass) : Json := .array (k.points.map Breakpoint.toJson)

def ofJson? : Json → Option CharClass
  | .array js => (js.mapM Breakpoint.ofJson?).map fun points => ⟨points⟩
  | _ => none

end CharClass

end Transducer
