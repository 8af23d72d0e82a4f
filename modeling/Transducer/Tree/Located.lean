import Transducer.Tree.Basic

/-!
Trees with positions. `Tree.locate` lays a tree out from an offset; every leaf and node then carries the span
of its text.
-/

namespace Transducer

inductive Located where
  | leaf (token : Token) (span : Span)
  | node (kind : Kind) (span : Span) (children : List Located)

namespace Located

def span : Located → Span
  | .leaf _ s => s
  | .node _ s _ => s

def kind : Located → Kind
  | .leaf t _ => t.kind
  | .node k _ _ => k

def children : Located → List Located
  | .leaf _ _ => []
  | .node _ _ ts => ts

end Located

namespace Tree

mutual

/-- The tree laid out from `offset`, and the offset where it ends. -/
def locateFrom (offset : Nat) : Tree → Located × Nat
  | .leaf t => (.leaf t ⟨offset, offset + t.width⟩, offset + t.width)
  | .node kind children =>
      let (located, stop) := locateAll offset children
      (.node kind ⟨offset, stop⟩ located, stop)

def locateAll (offset : Nat) : List Tree → List Located × Nat
  | [] => ([], offset)
  | t :: ts =>
      let (first, next) := locateFrom offset t
      let (rest, stop) := locateAll next ts
      (first :: rest, stop)

end

/-- The tree as the whole of a source. -/
def locate (t : Tree) : Located := (t.locateFrom 0).1

end Tree

end Transducer
