import Transducer.CharClass.Basic
import Transducer.Token.Basic

/-!
Internal faults: conditions that no source can bring about. Every operation of the compiler that relies on
such a condition checks it and answers with a fault instead of going on.
-/

namespace Transducer

inductive Fault where
  /-- A token was to be consumed at the end of input. -/
  | pastEnd
  /-- Another token than the expected one is next. -/
  | wrongToken (expected found : Kind)
  /-- The innermost open delimiter has another partner. -/
  | mismatched (opened closed : Kind)
  | invertedSpan (start stop : Nat)
  /-- A node was closed that had not been opened, or one was left open. -/
  | unbalanced
  /-- A definition was begun while another one was being evaluated. -/
  | definitionOpen (name : String)
  /-- A definition was ended that is not the one being evaluated. -/
  | definitionNotOpen (name : String)
  | charClass (error : CharClass.Error)
  deriving DecidableEq, Repr

/-- The bytes `[start, stop)`, which are not to end before they start. -/
def Span.checked (start stop : Nat) : Except Fault Span :=
  if start ≤ stop then .ok ⟨start, stop⟩ else .error (.invertedSpan start stop)

end Transducer
