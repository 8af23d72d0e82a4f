import Transducer.Proofs.Parse.Totality

/-!
# Trees hold the whole source

The leaves built so far and the tokens ahead are always the tokens of the source. At the end of a parse nothing is
ahead but trivia, which goes into the root, so the leaves of the tree are all tokens in their order, and its text is
the source.
-/

namespace Transducer

open Parse

/-- The leaves of the root, once the source is at its end. -/
theorem Parse.leaves_root {limits : Limits} {tokens : List Token} {s : State}
    (h : State.Reaches (.start limits tokens) s) (hbelow : s.below = []) (hend : s.atEnd = true) :
    (Tree.node .root s.flush.top.children.reverse).leaves = tokens := by
  have hbuilt : s.flush.built = Tree.leavesOf s.flush.top.children.reverse := by
    rw [State.built, show s.flush.below = [] from hbelow]
    rfl
  have hahead : s.ahead = [] := List.isEmpty_iff.mp hend
  have hrest : s.trivia = s.rest := by
    rw [← s.trivia_append_ahead, hahead, List.append_nil]
  calc (Tree.node .root s.flush.top.children.reverse).leaves
      _ = s.flush.built := hbuilt.symm
      _ = s.built ++ s.rest := by rw [State.built_flush, hrest]
      _ = tokens := h.built_append_rest

/-- Unless a limit was hit, a parse gives a tree, and the leaves of the tree are the tokens of the source: no token
is lost, repeated, moved or changed, however broken the source is. -/
theorem leaves_parse (limits : Limits) (source : String) :
    (∃ p, parse limits source = .ok p ∧ p.root.leaves = lex source ∧ p.root.text = source) ∨
      ∃ e, parse limits source = .error (.limit e) ∧ limits ≠ .none := by
  obtain ⟨s, -, hreached, hbelow, hresult⟩ := ofTokens_eq limits (paired_lex source)
  obtain ⟨e, hlimits, hparse⟩ | ⟨-, hend, hparse⟩ := hresult
  · exact .inr ⟨e, hparse, hlimits⟩
  · have hleaves := leaves_root hreached hbelow hend
    refine .inl ⟨_, hparse, hleaves, ?_⟩
    rw [Tree.text, hleaves, join_text_lex]

end Transducer
