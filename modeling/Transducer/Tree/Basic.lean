import Transducer.Token.Basic

/-!
Syntax trees. A leaf is a token and a node is a kind with children; positions are not stored, so a tree is the
same wherever its text stands. The leaves of a tree, read from left to right, are all of its text.
-/

namespace Transducer

inductive Tree where
  | leaf (token : Token)
  | node (kind : Kind) (children : List Tree)

namespace Tree

mutual

def leaves : Tree → List Token
  | .leaf t => [t]
  | .node _ children => leavesOf children

def leavesOf : List Tree → List Token
  | [] => []
  | t :: ts => t.leaves ++ leavesOf ts

end

def text (t : Tree) : String := String.join (t.leaves.map Token.text)

def children : Tree → List Tree
  | .leaf _ => []
  | .node _ ts => ts

def kind : Tree → Kind
  | .leaf t => t.kind
  | .node k _ => k

end Tree

end Transducer
