import Transducer.Parse.Progress
import Transducer.Token.Lexer

/-!
Parsing a source: the agenda is worked on until it is empty. What remains is the root, with the trivia at the end
of the source as its last leaves. Broken input still has a tree; a parse only fails when a limit is hit.
-/

namespace Transducer

namespace Parse

/-- Works on the first goal of the agenda until there is none. -/
def run : List Goal → State → Except Fault State
  | [], s => .ok s
  | g :: goals, s =>
      match _h : act g s with
      | .error fault => .error fault
      | .ok (new, t) => run (new ++ goals) t
termination_by goals s => measureOf goals s
decreasing_by exact measureOf_act_lt (by assumption)

/-- Why there is no result: a limit was hit, or an internal condition failed. -/
inductive Failure where
  | limit (error : LimitError)
  | fault (fault : Fault)
  deriving DecidableEq, Repr

structure Parsed where
  root : Tree
  diagnostics : List Diagnostic
  /-- The number of tokens paid for; without a limit on tokens nothing is paid. -/
  consumed : Nat

/-- What a finished state holds. -/
def State.result (s : State) : Except Failure Parsed :=
  match s.stopped with
  | some error => .error (.limit error)
  | none =>
      match s.top.kind, s.below with
      | some kind, [] =>
          .ok ⟨.node kind s.top.children.reverse, s.diagnostics.reverse,
            if s.limits.tokens.isSome then s.consumed else 0⟩
      | _, _ => .error (.fault .unbalanced)

def ofTokens (limits : Limits) (tokens : List Token) : Except Failure Parsed :=
  match run [.statements false] (.start limits tokens) with
  | .error fault => .error (.fault fault)
  | .ok s => s.flush.result

end Parse

/-- Parses a source within some limits. -/
def parse (limits : Limits) (source : String) : Except Parse.Failure Parse.Parsed :=
  Parse.ofTokens limits (lex source)

end Transducer
