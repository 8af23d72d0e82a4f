import Transducer.Program.Builder

/-!
# Whole syntax

Nothing is missing in a whole expression: every operator has its operands, every bound and marker can be read, and
every name is there. The names are to satisfy a condition that is left open here. Weights and calls have no value, so
nothing is asked of their parts.
-/

namespace Transducer

namespace Expr

mutual

def Whole (ok : String → Prop) : Expr → Prop
  | .missing => False
  | .chain _ _ operators operands => operands.length = operators + 1 ∧ WholeAll ok operands
  | .concat _ operands => operands ≠ [] ∧ WholeAll ok operands
  | .output _ lhs rhs => lhs.Whole ok ∧ rhs.Whole ok
  | .weight _ _ _ => True
  | .repetition _ operand isRange lower upper =>
      (∃ bounds, Builder.repetitionBounds isRange lower upper = some bounds) ∧ operand.Whole ok
  | .closure _ operand marker => (∃ q, marker.bind Quantifier.ofMarker? = some q) ∧ operand.Whole ok
  | .reference _ name => ∃ n, name = some n ∧ ok n
  | .literal _ _ => True
  | .group _ inner => inner.Whole ok
  | .call _ _ _ => True

def WholeAll (ok : String → Prop) : List Expr → Prop
  | [] => True
  | e :: es => e.Whole ok ∧ WholeAll ok es

end

end Expr

/-- Definitions have a name and a whole body. -/
def Stmt.Whole (ok : String → Prop) : Stmt → Prop
  | .definition _ _ name body => (∃ n, name = some n ∧ ok n) ∧ body.Whole ok
  | .importing _ _ _ | .function _ _ _ _ | .returning _ _ => True

end Transducer
