import Transducer.Proofs.Parse.Tightness

/-!
# Ranges of nodes

A tree is laid out over its tokens, so the range of a node reaches from the start of its first token to the end of its
last one. For a tight node both are significant, and no trivia is covered but what stands between tokens of the node.
-/

namespace Transducer

namespace Located

mutual

/-- All nodes of a tree, each one in front of those inside it. -/
def nodes : Located → List Located
  | .leaf _ _ => []
  | .node kind span children => .node kind span children :: nodesOf children

def nodesOf : List Located → List Located
  | [] => []
  | t :: ts => t.nodes ++ nodesOf ts

end

mutual

/-- The tokens of a tree with the places where they stand. -/
def leaves : Located → List (Token × Span)
  | .leaf t span => [(t, span)]
  | .node _ _ children => leavesOf children

def leavesOf : List Located → List (Token × Span)
  | [] => []
  | t :: ts => t.leaves ++ leavesOf ts

end

/-- The range is not empty, and it starts with one significant token and ends with another one or the same. -/
def IsTight (x : Located) : Prop :=
  ∃ first last, x.leaves.head? = some first ∧ x.leaves.getLast? = some last ∧ first.1.isTrivia = false ∧
    last.1.isTrivia = false ∧ x.span = ⟨first.2.start, last.2.stop⟩ ∧ x.span.start < x.span.stop

/-- The range is tight, and the tokens of the tree are those that the source has there. -/
structure TightIn (source : String) (x : Located) : Prop where
  tight : x.IsTight
  leaves_infix : x.leaves <:+: Token.placed 0 (lex source)
  covers : Covers source x.span (Token.joined (x.leaves.map Prod.fst))

end Located

namespace Token

variable {ts : List Token}

theorem map_fst_placed (o : Nat) (ts : List Token) : (placed o ts).map Prod.fst = ts := by
  induction ts generalizing o with
  | nil => rfl
  | cons t ts ih => rw [placed, List.map_cons, ih]

/-- Tokens cover what lies between the start of the first one and the end of the last one. -/
theorem edges_placed (hstart : StartsSignificant ts) (hsealed : Sealed ts) (o : Nat) :
    ∃ first last, (placed o ts).head? = some first ∧ (placed o ts).getLast? = some last ∧ first.1.isTrivia = false ∧
      last.1.isTrivia = false ∧ (⟨o, o + totalWidth ts⟩ : Span) = ⟨first.2.start, last.2.stop⟩ := by
  obtain ⟨t, us, rfl⟩ := List.exists_cons_of_ne_nil hsealed.ne_nil
  obtain ⟨vs, u, hlast⟩ := (List.eq_nil_or_concat' (t :: us)).resolve_left hsealed.ne_nil
  have ht : t.isTrivia = false := hstart t rfl
  have hu : u.isTrivia = false := hsealed.ends u (by simp [hlast])
  refine ⟨(t, ⟨o, o + t.width⟩), (u, ⟨o + totalWidth vs, o + totalWidth vs + u.width⟩), rfl, ?_, ht, hu, ?_⟩
  · rw [hlast, placed_append]
    simp [placed]
  · rw [hlast, totalWidth_append, totalWidth_cons, totalWidth_nil]
    simp [Nat.add_assoc]

theorem StandsAt.placed_infix {tokens : List Token} {o : Nat} (h : StandsAt tokens o ts) :
    placed o ts <:+: placed 0 tokens := by
  obtain ⟨before, after, rfl, rfl⟩ := h
  refine ⟨placed 0 before, placed (totalWidth before + totalWidth ts) after, ?_⟩
  rw [placed_append, placed_append, totalWidth_append, Nat.zero_add, Nat.zero_add]

theorem totalWidth_pos (hpos : ∀ t ∈ ts, 0 < t.width) (hne : ts ≠ []) : 0 < totalWidth ts := by
  obtain ⟨t, us, rfl⟩ := List.exists_cons_of_ne_nil hne
  have ht := hpos t List.mem_cons_self
  rw [totalWidth_cons]
  omega

theorem StandsAt.totalWidth_pos {source : String} {o : Nat} (h : StandsAt (lex source) o ts) (hne : ts ≠ []) :
    0 < totalWidth ts := by
  refine Token.totalWidth_pos (fun t ht => ?_) hne
  obtain ⟨before, after, htokens, -⟩ := h
  have hmem : t ∈ lex source := by
    rw [htokens]
    exact List.mem_append_left after (List.mem_append_right before ht)
  exact width_pos ((lexed_lex source).genuine hmem).text_ne

end Token

namespace Tree

open Token

mutual

theorem leaves_locateFrom (x : Tree) (o : Nat) : (x.locateFrom o).1.leaves = placed o x.leaves := by
  match x with
  | .leaf t => rfl
  | .node kind children => exact leavesOf_locateAll children o

theorem leavesOf_locateAll (xs : List Tree) (o : Nat) :
    Located.leavesOf (locateAll o xs).1 = placed o (leavesOf xs) := by
  match xs with
  | [] => rfl
  | x :: xs =>
      rw [leavesOf, placed_append, ← leaves_locateFrom x o, ← stop_locateFrom x o,
        ← leavesOf_locateAll xs (x.locateFrom o).2]
      rfl

end

/-- A node of some trees that follow each other is a node of one of them. -/
theorem nodesOf_locateAll {tokens : List Token} {y : Located} {cs : List Tree} {o : Nat}
    (hstands : StandsAt tokens o (leavesOf cs)) (hy : y ∈ Located.nodesOf (locateAll o cs).1) :
    ∃ c ∈ cs, ∃ o', StandsAt tokens o' c.leaves ∧ y ∈ (c.locateFrom o').1.nodes := by
  induction cs generalizing o with
  | nil => cases hy
  | cons c cs ih =>
      have hsplit : StandsAt tokens o (c.leaves ++ leavesOf cs) := hstands
      obtain ⟨hfirst, hothers⟩ := hsplit.append
      obtain hy | hy := List.mem_append.mp hy
      · exact ⟨c, List.mem_cons_self, o, hfirst, hy⟩
      · rw [← stop_locateFrom] at hothers
        obtain ⟨d, hd, hlater⟩ := ih hothers hy
        exact ⟨d, List.mem_cons_of_mem c hd, hlater⟩

/-- A node that stands in the source, once its tokens have significant ones at both ends. -/
theorem tightIn_of_edges {source : String} {k : Kind} {cs : List Tree} {o : Nat}
    (hstands : StandsAt (lex source) o (leavesOf cs))
    (hedges : StartsSignificant (leavesOf cs) ∧ Sealed (leavesOf cs)) :
    Located.TightIn source (.node k ⟨o, (locateAll o cs).2⟩ (locateAll o cs).1) := by
  have hleaves : Located.leaves (.node k ⟨o, (locateAll o cs).2⟩ (locateAll o cs).1) = placed o (leavesOf cs) :=
    leavesOf_locateAll cs o
  have hpos := hstands.totalWidth_pos hedges.2.ne_nil
  rw [stop_locateAll] at hleaves ⊢
  obtain ⟨first, last, hfirst, hlast, hsignificant, hsignificant', hspan⟩ := edges_placed hedges.1 hedges.2 o
  rw [← hleaves] at hfirst hlast
  refine ⟨⟨first, last, hfirst, hlast, hsignificant, hsignificant', hspan, Nat.lt_add_of_pos_right hpos⟩, ?_, ?_⟩
  · rw [hleaves]
    exact hstands.placed_infix
  · rw [hleaves, map_fst_placed]
    have hcovers := hstands.covers
    rwa [show joined (lex source) = source from join_text_lex source] at hcovers

/-- The nodes of a tight tree have tight ranges wherever it stands in a source. -/
theorem Tight.nodes_locateFrom {source : String} {x : Tree} (h : x.Tight) {o : Nat}
    (hstands : StandsAt (lex source) o x.leaves) :
    ∀ y ∈ (x.locateFrom o).1.nodes, y.kind.isTight = true → y.TightIn source := by
  induction h generalizing o with
  | leaf t => exact fun y hy => nomatch hy
  | @node k cs hedges hchildren ih =>
      intro y hy htight
      obtain rfl | hy := List.mem_cons.mp hy
      · exact tightIn_of_edges hstands (hedges htight)
      · obtain ⟨c, hc, o', hstands', hy'⟩ := nodesOf_locateAll hstands hy
        exact ih c hc hstands' y hy' htight

end Tree

open Parse in
/-- Definitions, imports, returns and all expressions have tight ranges, in the tree of every source, however broken it
is: the range of such a node is not empty, its first and its last token are significant, and it starts and ends where
these do. So it neither starts nor ends with a blank, a line end or a comment. -/
theorem node_ranges_tight {limits : Limits} {source : String} {p : Parsed} (hparse : parse limits source = .ok p) :
    ∀ x ∈ p.root.locate.nodes, x.kind.isTight = true → x.TightIn source := by
  obtain ⟨hleaves, htight⟩ := tight_of_parse hparse
  refine htight.nodes_locateFrom ⟨[], [], ?_, rfl⟩
  rw [hleaves, List.nil_append, List.append_nil]

/-- A call and a union that are broken off in front of a comment. Only the arguments start with the comment before. -/
theorem node_ranges_tight_of_open_call :
    ∃ p, parse .none "x = f # g\n [ a | # h\n" = .ok p ∧
      (p.root.locate.nodes.map fun x => (x.kind, x.span)) =
        [(.root, ⟨0, 21⟩), (.varDef, ⟨0, 16⟩), (.call, ⟨4, 16⟩), (.args, ⟨5, 16⟩), (.union, ⟨13, 16⟩),
          (.ref, ⟨13, 14⟩)] ∧
      ∀ x ∈ p.root.locate.nodes, x.kind.isTight = true → x.TightIn "x = f # g\n [ a | # h\n" := by
  have hparses : ((parse .none "x = f # g\n [ a | # h\n").toOption.map fun p =>
      p.root.locate.nodes.map fun x => (x.kind, x.span)) =
        some [(.root, ⟨0, 21⟩), (.varDef, ⟨0, 16⟩), (.call, ⟨4, 16⟩), (.args, ⟨5, 16⟩), (.union, ⟨13, 16⟩),
          (.ref, ⟨13, 14⟩)] := by
    decide +kernel
  obtain ⟨p, hparse, hnodes⟩ := eq_ok_of_toOption hparses
  exact ⟨p, hparse, hnodes, node_ranges_tight hparse⟩

end Transducer
