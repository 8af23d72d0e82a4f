import Transducer.Token.Basic

/-!
Limits on a parse: how many tokens it may consume and how deep expressions may nest. The events that the limits
are charged for are kept in a journal.
-/

namespace Transducer

/-- An absent bound is no bound. -/
structure Limits where
  tokens : Option Nat
  depth : Option Nat
  deriving DecidableEq, Repr

namespace Limits

def none : Limits := ⟨.none, .none⟩

/-- Whether one more token may be consumed after `consumed` of them. -/
def allowsToken (l : Limits) (consumed : Nat) : Bool :=
  match l.tokens with
  | some limit => consumed < limit
  | .none => true

/-- Whether one more expression may be entered inside `active` of them. -/
def allowsDepth (l : Limits) (active : Nat) : Bool :=
  match l.depth with
  | some limit => active < limit
  | .none => true

end Limits

/-- The limit that stopped a parse. -/
inductive LimitError where
  | tokens
  | depth
  deriving DecidableEq, Repr

def LimitError.message : LimitError → String
  | .tokens => "execution limit exceeded"
  | .depth => "recursion limit exceeded"

/-- What limits are charged for. -/
inductive Event where
  | consumed (token : Token)
  /-- An expression was entered while `active` others were being read. -/
  | entered (active : Nat)
  deriving DecidableEq, Repr

end Transducer
