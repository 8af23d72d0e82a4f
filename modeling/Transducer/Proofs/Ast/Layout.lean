import Transducer.Ast.Stmt
import Transducer.Proofs.Tree.Bare

/-!
# Syntax is blind to layout

Expressions and statements are read off the tokens and the nodes among the children of a node, and trivia are neither.
Dropping trivia and positions from a tree before it is read comes to the same as dropping positions from what was read.
-/

namespace Transducer

namespace Located

theorem kind_bare (t : Located) : t.bare.kind = t.kind := by
  cases t <;> rfl

theorem children_bare (t : Located) : t.bare.children = bareAll t.children := by
  cases t <;> rfl

theorem bareAll_cons_of_trivia {t : Located} (ht : t.isTrivia = true) (ts : List Located) :
    bareAll (t :: ts) = bareAll ts := by
  rw [bareAll, if_pos ht]

theorem bareAll_cons {t : Located} (ht : ¬ t.isTrivia = true) (ts : List Located) :
    bareAll (t :: ts) = t.bare :: bareAll ts := by
  rw [bareAll, if_neg ht]

theorem bareAll_node (kind : Kind) (span : Span) (children ts : List Located) :
    bareAll (.node kind span children :: ts) = .node kind (.point 0) (bareAll children) :: bareAll ts := rfl

theorem tokensOf_cons (p : Kind → Bool) (t : Located) (ts : List Located) :
    tokensOf p (t :: ts) = tokensOf p [t] ++ tokensOf p ts := by
  rw [← List.singleton_append, tokensOf, List.filterMap_append]
  rfl

/-- The tokens of a kind are the same, but they stand nowhere. -/
theorem tokensOf_bareAll {p : Kind → Bool} (hp : ∀ k : Kind, k.isTrivia = true → p k = false) (ts : List Located) :
    tokensOf p (bareAll ts) = (tokensOf p ts).map fun t => (t.1, .point 0) := by
  induction ts with
  | nil => rfl
  | cons t ts ih =>
      rw [tokensOf_cons, List.map_append, ← ih]
      by_cases ht : t.isTrivia = true
      · rw [bareAll_cons_of_trivia ht]
        cases t with
        | leaf token span =>
            have hnone : p token.kind = false := hp token.kind ht
            simp [tokensOf, hnone]
        | node kind span children => cases ht
      · rw [bareAll_cons ht, tokensOf_cons]
        cases t with
        | leaf token span => cases hkind : p token.kind <;> simp [tokensOf, bare, hkind]
        | node kind span children => rfl

theorem textsOf_bareAll {k : Kind} (hk : k.isTrivia = false) (ts : List Located) :
    textsOf k (bareAll ts) = textsOf k ts := by
  have htrivia : ∀ k' : Kind, k'.isTrivia = true → (k' == k) = false := by
    intro k' hk'
    apply beq_eq_false_iff_ne.mpr
    rintro rfl
    rw [hk] at hk'
    cases hk'
  rw [textsOf, tokensOf_bareAll htrivia, List.map_map]
  rfl

end Located

/-! ### Expressions -/

namespace Expr

open Located

mutual

/-- The expression without positions. -/
def unplaced : Expr → Expr
  | .missing => .missing
  | .chain _ op operators operands => .chain (.point 0) op operators (unplacedAll operands)
  | .concat _ operands => .concat (.point 0) (unplacedAll operands)
  | .output _ lhs rhs => .output (.point 0) lhs.unplaced rhs.unplaced
  | .weight _ operand value => .weight (.point 0) operand.unplaced value
  | .repetition _ operand isRange lower upper => .repetition (.point 0) operand.unplaced isRange lower upper
  | .closure _ operand marker => .closure (.point 0) operand.unplaced marker
  | .reference _ name => .reference (.point 0) name
  | .literal _ content => .literal (.point 0) (content.map fun c => (c.1, 0))
  | .group _ inner => .group (.point 0) inner.unplaced
  | .call _ name arguments => .call (.point 0) name (unplacedAll arguments)

def unplacedAll : List Expr → List Expr
  | [] => []
  | e :: es => e.unplaced :: unplacedAll es

end

theorem headD_unplacedAll (es : List Expr) : (unplacedAll es).headD .missing = (es.headD .missing).unplaced := by
  cases es <;> rfl

theorem drop_unplacedAll (es : List Expr) : (unplacedAll es).drop 1 = unplacedAll (es.drop 1) := by
  cases es <;> rfl

theorem not_isNode_of_isTrivia {t : Located} (h : t.isTrivia = true) : isNode t.kind = false := by
  cases t with
  | leaf token span =>
      have htrivia : token.kind.isTrivia = true := h
      cases hkind : token.kind <;> first | exact congrArg isNode hkind | (rw [hkind] at htrivia; cases htrivia)
  | node kind span children => cases h

mutual

theorem unplaced_ofLocated (t : Located) : (ofLocated t).unplaced = ofLocated t.bare := by
  match t with
  | .leaf token span => rfl
  | .node kind span children =>
      have hparts := unplacedAll_partsOf children
      have harguments := unplacedAll_argumentsOf children
      have hclosures : ∀ k : Kind, k.isTrivia = true → KindSet.closures.contains k = false := by
        intro k hk
        cases k <;> first | rfl | cases hk
      have hcontents : ∀ k : Kind, k.isTrivia = true → (k == .strVal) = false := by
        intro k hk
        cases k <;> first | rfl | cases hk
      have hpart := headD_unplacedAll (partsOf children)
      have hnext := headD_unplacedAll ((partsOf children).drop 1)
      rw [← drop_unplacedAll, hparts] at hnext
      rw [hparts] at hpart
      cases kind with
      | compose | union | diff => simp (disch := decide) only [bare, ofLocated, unplaced, hparts, textsOf_bareAll]
      | concat => simp only [bare, ofLocated, unplaced, hparts]
      | output => simp only [bare, ofLocated, unplaced, hpart, hnext]
      | weight | repetition => simp (disch := decide) only [bare, ofLocated, unplaced, hpart, textsOf_bareAll]
      | closure =>
          simp only [bare, ofLocated, unplaced, hpart, tokensOf_bareAll hclosures, List.head?_map, Option.map_map]
          rfl
      | ref => simp (disch := decide) only [bare, ofLocated, unplaced, textsOf_bareAll]
      | str =>
          simp only [bare, ofLocated, unplaced, tokensOf_bareAll hcontents, List.head?_map, Option.map_map]
          rfl
      | nested => simp only [bare, ofLocated, unplaced, hpart]
      | call => simp (disch := decide) only [bare, ofLocated, unplaced, harguments, textsOf_bareAll]
      | _ => rfl

theorem unplacedAll_partsOf (ts : List Located) : unplacedAll (partsOf ts) = partsOf (bareAll ts) := by
  match ts with
  | [] => rfl
  | t :: ts =>
      rw [partsOf]
      by_cases ht : t.isTrivia = true
      · rw [bareAll_cons_of_trivia ht, if_neg (Bool.eq_false_iff.mp (not_isNode_of_isTrivia ht))]
        exact unplacedAll_partsOf ts
      · rw [bareAll_cons ht, partsOf, kind_bare, ← unplacedAll_partsOf ts, ← unplaced_ofLocated t]
        split <;> rfl

theorem unplacedAll_argumentsOf (ts : List Located) : unplacedAll (argumentsOf ts) = argumentsOf (bareAll ts) := by
  match ts with
  | [] => rfl
  | .leaf token span :: ts =>
      rw [argumentsOf, bareAll]
      split
      · exact unplacedAll_argumentsOf ts
      · exact unplacedAll_argumentsOf ts
  | .node kind span children :: ts =>
      rw [argumentsOf, bareAll_node, argumentsOf]
      split
      · exact unplacedAll_partsOf children
      · exact unplacedAll_argumentsOf ts

end

end Expr

/-! ### Statements -/

namespace Stmt

open Located

mutual

/-- The statement without positions. -/
def unplaced : Stmt → Stmt
  | .definition _ exported name body => .definition (.point 0) exported name body.unplaced
  | .importing _ path renamed => .importing (.point 0) path.unplaced renamed
  | .function _ name params body => .function (.point 0) name params (unplacedAll body)
  | .returning _ body => .returning (.point 0) body.unplaced

def unplacedAll : List Stmt → List Stmt
  | [] => []
  | stmt :: stmts => stmt.unplaced :: unplacedAll stmts

end

theorem parametersOf_bareAll (ts : List Located) : parametersOf (bareAll ts) = parametersOf ts := by
  fun_induction parametersOf ts with
  | case1 => rfl
  | case2 token span ts ih =>
      rw [bareAll]
      split
      · exact ih
      · exact ih
  | case3 span children ts => rw [bareAll_node, parametersOf, if_pos rfl, textsOf_bareAll rfl]
  | case4 kind span children ts hkind ih => rw [bareAll_node, parametersOf, if_neg hkind, ih]

mutual

theorem unplaced_ofLocated? (t : Located) : (ofLocated? t).map unplaced = ofLocated? t.bare := by
  match t with
  | .leaf token span => rfl
  | .node kind span children =>
      have hbody := Expr.headD_unplacedAll (Expr.partsOf children)
      rw [Expr.unplacedAll_partsOf] at hbody
      have hstmts := unplacedAll_ofChildren children
      cases kind with
      | varDef | importStmt | returnStmt =>
          simp (disch := decide) only [bare, ofLocated?, Option.map_some, unplaced, hbody, textsOf_bareAll]
      | funcDef =>
          simp (disch := decide) only [bare, ofLocated?, Option.map_some, unplaced, hstmts, textsOf_bareAll,
            parametersOf_bareAll]
      | _ => rfl

theorem unplacedAll_ofChildren (ts : List Located) : unplacedAll (ofChildren ts) = ofChildren (bareAll ts) := by
  match ts with
  | [] => rfl
  | t :: ts =>
      have hrest := unplacedAll_ofChildren ts
      by_cases ht : t.isTrivia = true
      · rw [bareAll_cons_of_trivia ht, ← hrest]
        cases t with
        | leaf token span => rfl
        | node kind span children => cases ht
      · rw [bareAll_cons ht, ofChildren, ofChildren, ← unplaced_ofLocated? t, ← hrest]
        cases ofLocated? t <;> rfl

end

/-- Trees that are the same but for trivia have the same statements but for positions. -/
theorem unplacedAll_ofRoot {root root' : Tree} (h : root.bare = root'.bare) :
    unplacedAll (ofRoot root) = unplacedAll (ofRoot root') := by
  have hlocate (t : Tree) : unplacedAll (ofRoot t) = ofChildren t.bare.locate.bare.children := by
    rw [ofRoot, unplacedAll_ofChildren, ← children_bare, Tree.locate, Tree.locate, Tree.bare_locateFrom]
  rw [hlocate, hlocate, h]

end Stmt

end Transducer
