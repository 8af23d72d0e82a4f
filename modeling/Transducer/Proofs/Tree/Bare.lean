import Transducer.Tree.Located

/-!
# Trees without trivia

A bare tree is what is left of a tree when blanks, line ends and comments are dropped from the children of its nodes.
Laying a tree out gives positions to what is left; once these are dropped too, it makes no difference whether the
trivia were there.
-/

namespace Transducer

namespace Tree

def isTrivia : Tree → Bool
  | .leaf t => t.isTrivia
  | .node _ _ => false

mutual

/-- The tree without the trivia inside of it. -/
def bare : Tree → Tree
  | .leaf t => .leaf t
  | .node kind children => .node kind (bareAll children)

def bareAll : List Tree → List Tree
  | [] => []
  | t :: ts => if t.isTrivia then bareAll ts else t.bare :: bareAll ts

end

theorem bareAll_eq (ts : List Tree) : bareAll ts = (ts.filter fun t => !t.isTrivia).map bare := by
  induction ts with
  | nil => rfl
  | cons t ts ih =>
      rw [bareAll, ih]
      cases ht : t.isTrivia with
      | true => rw [List.filter_cons_of_neg (by rw [ht]; decide), if_pos rfl]
      | false => rw [List.filter_cons_of_pos (by rw [ht]; rfl), if_neg Bool.false_ne_true, List.map_cons]

theorem bareAll_append (ts us : List Tree) : bareAll (ts ++ us) = bareAll ts ++ bareAll us := by
  rw [bareAll_eq, List.filter_append, List.map_append, ← bareAll_eq, ← bareAll_eq]

theorem bareAll_reverse (ts : List Tree) : bareAll ts.reverse = (bareAll ts).reverse := by
  rw [bareAll_eq, List.filter_reverse, List.map_reverse, ← bareAll_eq]

theorem bareAll_of_trivia {ts : List Token} (h : ∀ t ∈ ts, t.isTrivia = true) : bareAll (ts.map leaf) = [] := by
  induction ts with
  | nil => rfl
  | cons t ts ih =>
      obtain ⟨ht, hts⟩ := List.forall_mem_cons.mp h
      rw [List.map_cons, bareAll, isTrivia, if_pos ht, ih hts]

end Tree

namespace Located

def isTrivia : Located → Bool
  | .leaf t _ => t.isTrivia
  | .node _ _ _ => false

mutual

/-- The tree without the trivia inside of it and without positions. -/
def bare : Located → Located
  | .leaf t _ => .leaf t (.point 0)
  | .node kind _ children => .node kind (.point 0) (bareAll children)

def bareAll : List Located → List Located
  | [] => []
  | t :: ts => if t.isTrivia then bareAll ts else t.bare :: bareAll ts

end

end Located

namespace Tree

theorem isTrivia_locateFrom (t : Tree) (o : Nat) : (t.locateFrom o).1.isTrivia = t.isTrivia := by
  cases t <;> rfl

mutual

theorem bare_locateFrom (t : Tree) (o o' : Nat) : (t.bare.locateFrom o').1.bare = (t.locateFrom o).1.bare := by
  match t with
  | .leaf t => rfl
  | .node kind children => exact congrArg (Located.node kind (.point 0)) (bareAll_locateAll children o o')

theorem bareAll_locateAll (ts : List Tree) (o o' : Nat) :
    Located.bareAll (locateAll o' (bareAll ts)).1 = Located.bareAll (locateAll o ts).1 := by
  match ts with
  | [] => rfl
  | t :: ts =>
      rw [bareAll, locateAll]
      dsimp only
      rw [Located.bareAll, isTrivia_locateFrom]
      split
      · exact bareAll_locateAll ts _ o'
      · rename_i ht
        have hbare : t.bare.isTrivia = t.isTrivia := by cases t <;> rfl
        rw [locateAll]
        dsimp only
        rw [Located.bareAll, isTrivia_locateFrom, hbare, if_neg ht, bare_locateFrom t o o', bareAll_locateAll ts]

end

end Tree

end Transducer
