import Mathlib.Data.List.TakeWhile
import Transducer.Ast.Expr
import Transducer.Proofs.Parse.Exact

/-!
# The shape of trees under construction

A tree is formed if every node of an expression has the operands and tokens that its kind asks for. While a parse runs,
the open frames are sketched by their kind, the nodes and the significant tokens they hold. `s.Shows Q` says that the
sketches satisfy `Q`, unless something has been reported or a limit was hit. The operations on the state have rules
that give what is to be shown before them for something to be shown behind them.
-/

namespace Transducer

namespace Tree

/-- The nodes among some trees. -/
def nodesOf : List Tree → List Tree
  | [] => []
  | .leaf _ :: ts => nodesOf ts
  | .node k cs :: ts => .node k cs :: nodesOf ts

/-- The significant tokens among some trees. -/
def tokensOf : List Tree → List Token
  | [] => []
  | .leaf t :: ts => if t.isTrivia then tokensOf ts else t :: tokensOf ts
  | .node _ _ :: ts => tokensOf ts

@[simp] theorem nodesOf_append (ts us : List Tree) : nodesOf (ts ++ us) = nodesOf ts ++ nodesOf us := by
  fun_induction nodesOf ts with
  | case1 => rfl
  | case2 t ts ih => exact ih
  | case3 k cs ts ih => exact congrArg (Tree.node k cs :: ·) ih

@[simp] theorem tokensOf_append (ts us : List Tree) : tokensOf (ts ++ us) = tokensOf ts ++ tokensOf us := by
  fun_induction tokensOf ts with
  | case1 => rfl
  | case2 t ts ht ih => rw [List.cons_append, tokensOf, if_pos ht, ih]
  | case3 t ts ht ih => rw [List.cons_append, tokensOf, if_neg ht, ih, List.cons_append]
  | case4 k cs ts ih => exact ih

@[simp] theorem nodesOf_reverse (ts : List Tree) : nodesOf ts.reverse = (nodesOf ts).reverse := by
  fun_induction nodesOf ts with
  | case1 => rfl
  | case2 t ts ih => rw [List.reverse_cons, nodesOf_append, ih]; exact List.append_nil _
  | case3 k cs ts ih => rw [List.reverse_cons, nodesOf_append, ih, List.reverse_cons]; rfl

@[simp] theorem tokensOf_reverse (ts : List Tree) : tokensOf ts.reverse = (tokensOf ts).reverse := by
  fun_induction tokensOf ts with
  | case1 => rfl
  | case2 t ts ht ih => rw [List.reverse_cons, tokensOf_append, ih, tokensOf, if_pos ht]; exact List.append_nil _
  | case3 t ts ht ih => rw [List.reverse_cons, tokensOf_append, ih, tokensOf, if_neg ht, List.reverse_cons]; rfl
  | case4 k cs ts ih => rw [List.reverse_cons, tokensOf_append, ih]; exact List.append_nil _

theorem nodesOf_leaf (ts : List Token) : nodesOf (ts.map Tree.leaf) = [] := by
  induction ts with
  | nil => rfl
  | cons t ts ih => exact ih

theorem tokensOf_leaf {ts : List Token} (h : ∀ t ∈ ts, t.isTrivia = true) : tokensOf (ts.map Tree.leaf) = [] := by
  induction ts with
  | nil => rfl
  | cons t ts ih =>
      obtain ⟨ht, hts⟩ := List.forall_mem_cons.mp h
      rw [List.map_cons, tokensOf, if_pos ht, ih hts]

/-! ### Formed trees -/

/-- What an expression of a kind asks of the number of its operands and of its tokens. -/
def Shape (k : Kind) (operands : Nat) (tokens : List Token) : Prop :=
  match k with
  | .compose => operands = (tokens.countP fun t => t.kind == .atSign) + 1
  | .union => operands = (tokens.countP fun t => t.kind == .pipe) + 1
  | .diff => operands = (tokens.countP fun t => t.kind == .minus) + 1
  | .concat => 1 ≤ operands
  | .output => 2 ≤ operands
  | .repetition =>
      1 ≤ operands ∧ (∀ t ∈ tokens, t.kind = .number → ∃ n, readNumeral? t.text = some n) ∧
        (if ∃ t ∈ tokens, t.kind = .comma then 2 else 1) ≤ tokens.countP fun t => t.kind == .number
  | .closure => 1 ≤ operands ∧ ∃ t ∈ tokens, KindSet.closures.contains t.kind = true
  | .ref => ∃ t ∈ tokens, t.kind = .id
  | .nested => 1 ≤ operands
  | .weight | .str | .call => True
  | _ => False

theorem shape_reverse (k : Kind) (operands : Nat) (tokens : List Token) :
    Shape k operands tokens.reverse ↔ Shape k operands tokens := by
  cases k <;> simp [Shape]

/-- Every node of an expression has what it asks for. Arguments of calls are not looked into. -/
inductive Formed : Tree → Prop where
  | call (children : List Tree) : Formed (.node .call children)
  | node {k : Kind} {children : List Tree} (hshape : Shape k (nodesOf children).length (tokensOf children))
      (hoperands : ∀ x ∈ nodesOf children, Formed x) : Formed (.node k children)

/-- A definition has a name and a formed expression, and a function is not without tokens. -/
inductive StmtFormed : Tree → Prop where
  | definition {children : List Tree} (hname : ∃ t ∈ tokensOf children, t.kind = .id)
      (hbody : nodesOf children ≠ []) (hformed : ∀ x ∈ nodesOf children, Formed x) : StmtFormed (.node .varDef children)
  | function {children : List Tree} (htokens : tokensOf children ≠ []) : StmtFormed (.node .funcDef children)
  | other {k : Kind} {children : List Tree} (hkind : k ≠ .varDef ∧ k ≠ .funcDef) : StmtFormed (.node k children)

end Tree

namespace Parse

open Transducer.Tree State

/-- What a frame holds, last one first. -/
structure Sketch where
  kind : Option Kind
  nodes : List Tree
  tokens : List Token

namespace Sketch

/-- A frame that holds nothing yet. -/
def opened (kind : Option Kind) : Sketch := ⟨kind, [], []⟩

def addNode (f : Sketch) (x : Tree) : Sketch := { f with nodes := x :: f.nodes }

def addToken (f : Sketch) (t : Token) : Sketch := { f with tokens := t :: f.tokens }

def named (f : Sketch) (k : Kind) : Sketch := { f with kind := some k }

/-- What a frame becomes when a place marked above it is given up. -/
def absorb (f g : Sketch) : Sketch := { f with nodes := g.nodes ++ f.nodes, tokens := g.tokens ++ f.tokens }

/-- The trees that the frame can turn into when it is closed. -/
def Closed (f : Sketch) (x : Tree) : Prop :=
  ∃ k children, f.kind = some k ∧ x = .node k children ∧ nodesOf children = f.nodes.reverse ∧
    tokensOf children = f.tokens.reverse

end Sketch

def Frame.sketch (f : Frame) : Sketch := ⟨f.kind, nodesOf f.children, tokensOf f.children⟩

namespace State

/-- The open frames, the innermost one first. -/
def outline (s : State) : List Sketch := s.top.sketch :: s.below.map Frame.sketch

/-- Nothing was reported, and no limit was hit. -/
def Flawless (s : State) : Prop := s.Clean ∧ s.isStopped = false

/-- The open frames are as `Q` says, as long as nothing goes wrong. -/
def Shows (s : State) (Q : List Sketch → Prop) : Prop := s.Flawless → Q s.outline

variable {s t : State} {P Q : List Sketch → Prop}

theorem Move.flawless (h : Move s t) (ht : t.Flawless) : s.Flawless := by
  refine ⟨h.clean ht.1, Bool.eq_false_iff.mpr fun hs => ?_⟩
  have hstopped := h.isStopped hs
  rw [ht.2] at hstopped
  cases hstopped

theorem Shows.mono (h : s.Shows P) (himp : ∀ fs, P fs → Q fs) : s.Shows Q := fun hs => himp _ (h hs)

theorem Move.shows (h : Move s t) (hs : s.Shows P) (himp : P s.outline → Q t.outline) : t.Shows Q :=
  fun ht => himp (hs (h.flawless ht))

/-! ### Frames -/

theorem isTrivia_of_mem_trivia (s : State) : ∀ t ∈ s.trivia, t.isTrivia = true := fun _ => List.mem_takeWhile_imp

theorem outline_flush (s : State) : s.flush.outline = s.outline := by
  simp only [outline, flush, Frame.sketch, nodesOf_append, tokensOf_append, nodesOf_reverse, tokensOf_reverse,
    nodesOf_leaf, tokensOf_leaf s.isTrivia_of_mem_trivia, List.reverse_nil, List.nil_append]

theorem outline_openTight (s : State) (kind : Option Kind) :
    (s.openTight kind).outline = .opened kind :: s.outline := rfl

theorem outline_openNode (s : State) (k : Kind) : (s.openNode k).outline = .opened (some k) :: s.outline := by
  rw [openNode, outline_openTight, outline_flush]

theorem outline_mark (s : State) : s.mark.outline = .opened none :: s.outline := by
  rw [mark, outline_openTight, outline_flush]

theorem outline_bump (h : s.bump = .ok t) :
    ∃ token, token.kind = s.current ∧ token.text = s.currentText ∧
      t.outline = s.top.sketch.addToken token :: s.below.map Frame.sketch := by
  obtain ⟨token, ts, hahead, rfl⟩ := bump_eq_ok h
  have hsignificant : token.isTrivia = false := by
    have hhead := List.head?_dropWhile_not Token.isTrivia s.rest
    rw [← State.ahead, hahead] at hhead
    exact hhead
  refine ⟨token, (current_of_ahead hahead).symm, by rw [currentText, hahead], ?_⟩
  simp [outline, Frame.sketch, nodesOf, tokensOf, hsignificant, nodesOf_leaf, tokensOf_leaf s.isTrivia_of_mem_trivia,
    Sketch.addToken]

/-- A frame that is closed becomes a node of the frame below, or gives up what it holds. -/
theorem outline_closeNode (h : s.closeNode = .ok t) :
    ∃ g fs, s.below.map Frame.sketch = g :: fs ∧
      ((∃ x, s.top.sketch.Closed x ∧ t.outline = g.addNode x :: fs) ∨
        s.top.sketch.kind = none ∧ t.outline = g.absorb s.top.sketch :: fs) := by
  obtain ⟨frame, below, hbelow, rfl⟩ := closeNode_eq_ok h
  refine ⟨frame.sketch, below.map Frame.sketch, by rw [hbelow, List.map_cons], ?_⟩
  cases hkind : s.top.kind with
  | some k =>
      refine .inl ⟨.node k s.top.children.reverse, ⟨k, _, hkind, rfl, nodesOf_reverse _, tokensOf_reverse _⟩, rfl⟩
  | none =>
      refine .inr ⟨hkind, ?_⟩
      simp only [outline, Frame.sketch, nodesOf_append, tokensOf_append, Sketch.absorb]

end State

/-! ### Rules -/

/-- The innermost frame is as `P` says, and those below it as `R` says. -/
def Inside (P : Sketch → Prop) (R : List Sketch → Prop) : List Sketch → Prop
  | [] => False
  | f :: fs => P f ∧ R fs

/-- The node goes into the innermost frame. -/
def deliver (x : Tree) : List Sketch → List Sketch
  | [] => []
  | f :: fs => f.addNode x :: fs

/-- A tree as `T` says is all that is missing. -/
def Receives (T : Tree → Prop) (Q : List Sketch → Prop) (fs : List Sketch) : Prop := ∀ x, T x → Q (deliver x fs)

/-- Closing the frame gives a tree as `T` says. -/
def Sketch.Yields (T : Tree → Prop) (f : Sketch) : Prop := f.kind ≠ none ∧ ∀ x, f.Closed x → T x

/-- A marked place that holds one operand. -/
def Sketch.Single (f : Sketch) : Prop := f.kind = none ∧ f.tokens = [] ∧ ∃ x, Formed x ∧ f.nodes = [x]

section Rules

variable {s : State} {P N : Sketch → Prop} {Q R : List Sketch → Prop} {T : Tree → Prop} {k : Kind}

theorem Inside.mono {R' : List Sketch → Prop} {fs : List Sketch} (h : Inside P R fs) (hP : ∀ f, P f → N f)
    (hR : ∀ fs, R fs → R' fs) : Inside N R' fs := by
  cases fs with
  | nil => exact h
  | cons f fs => exact ⟨hP f h.1, hR fs h.2⟩

theorem Inside.receives {fs : List Sketch} (h : Inside P R fs) (hP : ∀ f x, P f → T x → N (f.addNode x)) :
    Receives T (Inside N R) fs := by
  intro x hx
  cases fs with
  | nil => exact h
  | cons f fs => exact ⟨hP f x h.1 hx, h.2⟩

theorem Spoils.shows {r : Except Fault State} (h : Spoils r) : Ensures r fun t => t.Shows Q :=
  h.mono fun _ ht hflawless => absurd hflawless.1 ht

theorem shows_openTight {kind : Option Kind} (hP : P (.opened kind)) (h : s.Shows R) :
    (s.openTight kind).Shows (Inside P R) :=
  fun hs => ⟨hP, h hs⟩

theorem shows_openNode (hP : P (.opened (some k))) (h : s.Shows R) : (s.openNode k).Shows (Inside P R) := by
  intro hs
  rw [outline_openNode]
  exact ⟨hP, h hs⟩

theorem shows_wrap (h : s.Shows (Inside P R)) (hP : ∀ f, P f → N (f.named k)) : (s.wrap k).Shows (Inside N R) :=
  fun hs => ⟨hP _ (h hs).1, (h hs).2⟩

theorem shows_bump (h : s.Shows (Inside P R))
    (hP : ∀ f t, t.kind = s.current → t.text = s.currentText → P f → N (f.addToken t)) :
    Ensures s.bump fun t => t.Shows (Inside N R) := by
  intro t ht
  obtain ⟨token, hkind, htext, houtline⟩ := outline_bump ht
  refine (Move.bumped ht).shows h fun hs => ?_
  rw [houtline]
  exact ⟨hP _ token hkind htext hs.1, hs.2⟩

theorem shows_bump_of_current (hk : s.current = k) (h : s.Shows (Inside P R))
    (hP : ∀ f t, t.kind = k → P f → N (f.addToken t)) : Ensures s.bump fun t => t.Shows (Inside N R) :=
  shows_bump h fun f t ht _ => hP f t (ht.trans hk)

theorem shows_skipOne (h : s.Shows (Inside P R)) (hP : ∀ f t, t.kind = k → P f → P (f.addToken t)) :
    Ensures (s.skipOne k) fun t => t.Shows (Inside P R) := by
  unfold State.skipOne
  split
  · rename_i hlooks
    exact shows_bump_of_current (looksAt_iff.mp hlooks) h hP
  · exact .ok h

theorem shows_expect (h : s.Shows (Inside P R)) (hP : ∀ f t, t.kind = k → P f → N (f.addToken t)) (issue : Issue)
    (detail : String) : Ensures (s.expect k issue detail) fun t => t.Shows (Inside N R) := by
  unfold State.expect
  split
  · rename_i hlooks
    exact shows_bump_of_current (looksAt_iff.mp hlooks) h hP
  · exact (spoils_report s issue detail).shows

theorem shows_expectSemicolon (h : s.Shows (Inside P R)) (hP : ∀ f t, t.kind = .semicolon → P f → P (f.addToken t))
    (detail : String) : Ensures (s.expectSemicolon detail) fun t => t.Shows (Inside P R) := by
  unfold State.expectSemicolon
  split
  · rename_i hlooks
    exact shows_bump_of_current (looksAt_iff.mp hlooks) h hP
  · exact (spoils_claim s _ _).shows

theorem shows_openDelimiter (h : s.Shows (Inside P R)) (hP : ∀ f t, t.kind = k → P f → N (f.addToken t)) :
    Ensures (s.openDelimiter k) fun t => t.Shows (Inside N R) := by
  unfold State.openDelimiter State.requireCurrent
  split
  · rename_i hk
    exact shows_bump_of_current (s := { s with delimiters := ⟨k, s.currentSpan⟩ :: s.delimiters }) hk h hP
  · exact .error

theorem shows_closeDelimiter (h : s.Shows (Inside P R)) (hP : ∀ f t, t.kind = k → P f → P (f.addToken t))
    (construct : String) : Ensures (s.closeDelimiter k construct) fun t => t.Shows (Inside P R) := by
  unfold State.closeDelimiter
  split
  · exact shows_skipOne h hP
  · rename_i d ds _
    dsimp only
    split
    · split
      · rename_i hlooks
        exact shows_bump_of_current (s := { s with delimiters := ds }) (looksAt_iff.mp hlooks) h hP
      · exact (spoils_claim _ _ _).shows
    · exact .error

theorem shows_closeNode (h : s.Shows (Inside (Sketch.Yields T) (Receives T Q))) :
    Ensures s.closeNode fun t => t.Shows Q := by
  intro t ht
  obtain ⟨g, fs, hbelow, hcases⟩ := outline_closeNode ht
  refine (Move.closed ht).shows h fun hs => ?_
  obtain ⟨hyields, hreceives⟩ := hs
  rw [hbelow] at hreceives
  obtain ⟨x, hx, houtline⟩ | ⟨hnone, -⟩ := hcases
  · rw [houtline]
    exact hreceives x (hyields.2 x hx)
  · exact absurd hnone hyields.1

theorem shows_closeNode_of_single (h : s.Shows (Inside Sketch.Single (Receives Formed Q))) :
    Ensures s.closeNode fun t => t.Shows Q := by
  intro t ht
  obtain ⟨g, fs, hbelow, hcases⟩ := outline_closeNode ht
  refine (Move.closed ht).shows h fun hs => ?_
  obtain ⟨⟨hnone, htokens, x, hx, hnodes⟩, hreceives⟩ := hs
  rw [hbelow] at hreceives
  obtain ⟨y, ⟨k, children, hkind, -⟩, -⟩ | ⟨-, houtline⟩ := hcases
  · rw [hnone] at hkind
    cases hkind
  · rw [houtline, Sketch.absorb, hnodes, htokens]
    exact hreceives x hx

end Rules

end Parse

end Transducer
