import Transducer.Proofs.Ast.Whole
import Transducer.Proofs.Parse.Forming
import Transducer.Proofs.Parse.Lossless

/-!
# Formed trees read as whole syntax

An expression is read off a tree by the nodes and the tokens among its children, wherever they stand. Hence the number
of operands and the tokens that a formed tree has are all that a whole expression needs, up to what the lexer grants:
no token has the kind of a node, and the text of a closure marker can be read.
-/

namespace Transducer

open Transducer.Tree

/-- What the reading of a tree relies on at its leaves. -/
structure Token.Lexical (ok : String → Prop) (t : Token) : Prop where
  not_node : Expr.isNode t.kind = false
  marker : KindSet.closures.contains t.kind = true → ∃ q, Quantifier.ofMarker? t.text = some q
  name : t.kind = .id → ok t.text

theorem Rule.exactly_of_closure : ∀ r ∈ Rule.all, KindSet.closures.contains r.kind = true →
    r.match? = Rule.exactly ['*'] ∨ r.match? = Rule.exactly ['+'] ∨ r.match? = Rule.exactly ['?'] := by
  simp [Rule.all, KindSet.closures, KindSet.contains]

theorem Rule.take_of_exactly {c : Char} {cs : List Char} {n : Nat} (h : Rule.exactly [c] cs = some n) :
    cs.take n = [c] := by
  unfold Rule.exactly at h
  split at h
  · rename_i hstarts
    cases h
    cases cs with
    | nil => cases hstarts
    | cons d cs =>
        simp only [List.isPrefixOf_cons_cons, List.isPrefixOf_nil_left, Bool.and_true, beq_iff_eq] at hstarts
        rw [hstarts]
        rfl
  · cases h

theorem lexical_of_mem_lex {ok : String → Prop} {source : String} {t : Token} (ht : t ∈ lex source)
    (hname : t.kind = .id → ok t.text) : t.Lexical ok := by
  have hstring : ∀ k : Kind, k.isStringPart = true → Expr.isNode k = false ∧ KindSet.closures.contains k = false := by
    intro k hk
    cases k <;> first | exact ⟨rfl, rfl⟩ | cases hk
  have hrule : ∀ r ∈ Rule.all, Expr.isNode r.kind = false := by decide
  obtain hpart | ⟨r, hr, cs, n, hkind, hmatch, htext⟩ | hgarbage := (lexed_lex source).of_mem ht
  · obtain ⟨hnode, hclosure⟩ := hstring t.kind hpart
    refine ⟨hnode, fun h => ?_, hname⟩
    rw [hclosure] at h
    cases h
  · refine ⟨hkind ▸ hrule r hr, fun hclosure => ?_, hname⟩
    rw [htext]
    obtain hmarker | hmarker | hmarker := Rule.exactly_of_closure r hr (hkind.symm ▸ hclosure)
    · rw [hmarker] at hmatch
      rw [Rule.take_of_exactly hmatch]
      exact ⟨.zeroOrMore, rfl⟩
    · rw [hmarker] at hmatch
      rw [Rule.take_of_exactly hmatch]
      exact ⟨.oneOrMore, rfl⟩
    · rw [hmarker] at hmatch
      rw [Rule.take_of_exactly hmatch]
      exact ⟨.zeroOrOne, rfl⟩
  · refine ⟨by rw [hgarbage]; rfl, fun h => ?_, hname⟩
    rw [hgarbage] at h
    cases h

/-! ### Leaves -/

namespace Tree

theorem mem_leavesOf_of_mem_nodesOf {cs : List Tree} {x : Tree} {t : Token} (hx : x ∈ nodesOf cs) (ht : t ∈ x.leaves) :
    t ∈ leavesOf cs := by
  fun_induction nodesOf cs with
  | case1 => cases hx
  | case2 u cs ih => exact List.mem_append_right _ (ih hx)
  | case3 k ds cs ih =>
      obtain rfl | hx := List.mem_cons.mp hx
      · exact List.mem_append_left _ ht
      · exact List.mem_append_right _ (ih hx)

theorem mem_leavesOf_of_mem_tokensOf {cs : List Tree} {t : Token} (ht : t ∈ tokensOf cs) : t ∈ leavesOf cs := by
  fun_induction tokensOf cs with
  | case1 => cases ht
  | case2 u cs _ ih => exact List.mem_append_right _ (ih ht)
  | case3 u cs _ ih =>
      obtain rfl | ht := List.mem_cons.mp ht
      · exact List.mem_append_left _ List.mem_cons_self
      · exact List.mem_append_right _ (ih ht)
  | case4 k ds cs ih => exact List.mem_append_right _ (ih ht)

/-- Where a tree is laid out does not change which tokens are among its children. -/
theorem tokensOf_locateAll {p : Kind → Bool} (hp : ∀ k, k.isTrivia = true → p k = false) (cs : List Tree) (o : Nat) :
    (Located.tokensOf p (locateAll o cs).1).map Prod.fst = (tokensOf cs).filter fun t => p t.kind := by
  fun_induction tokensOf cs generalizing o with
  | case1 => rfl
  | case2 t cs ht ih =>
      have hnone : p t.kind = false := hp t.kind ht
      simpa [locateAll, locateFrom, Located.tokensOf, hnone] using ih (o + t.width)
  | case3 t cs ht ih =>
      cases hk : p t.kind <;> simpa [locateAll, locateFrom, Located.tokensOf, hk] using ih (o + t.width)
  | case4 k ds cs ih => simpa [locateAll, locateFrom, Located.tokensOf] using ih (locateAll o ds).2

theorem textsOf_locateAll {k : Kind} (hk : k.isTrivia = false) (cs : List Tree) (o : Nat) :
    Located.textsOf k (locateAll o cs).1 = ((tokensOf cs).filter fun t => t.kind == k).map Token.text := by
  have htrivia : ∀ k', k'.isTrivia = true → (k' == k) = false := by
    intro k' hk'
    refine beq_eq_false_iff_ne.mpr fun heq => ?_
    rw [heq, hk] at hk'
    cases hk'
  rw [Located.textsOf, ← tokensOf_locateAll (p := (· == k)) htrivia cs o, List.map_map]
  rfl

theorem length_textsOf {k : Kind} (hk : k.isTrivia = false) (cs : List Tree) (o : Nat) :
    (Located.textsOf k (locateAll o cs).1).length = (tokensOf cs).countP fun t => t.kind == k := by
  rw [textsOf_locateAll hk, List.length_map, List.countP_eq_length_filter]

theorem head?_textsOf {k : Kind} (hk : k.isTrivia = false) {cs : List Tree} (h : ∃ t ∈ tokensOf cs, t.kind = k)
    (o : Nat) : ∃ t ∈ tokensOf cs, t.kind = k ∧ (Located.textsOf k (locateAll o cs).1).head? = some t.text := by
  rw [textsOf_locateAll hk]
  cases hfilter : (tokensOf cs).filter fun t => t.kind == k with
  | nil =>
      obtain ⟨t, ht, hkind⟩ := h
      exact absurd (beq_iff_eq.mpr hkind) (List.filter_eq_nil_iff.mp hfilter t ht)
  | cons t ts =>
      have hmem : t ∈ (tokensOf cs).filter fun t => t.kind == k := by
        rw [hfilter]
        exact List.mem_cons_self
      obtain ⟨ht, hkind⟩ := List.mem_filter.mp hmem
      exact ⟨t, ht, beq_iff_eq.mp hkind, rfl⟩

theorem isNode_of_formed {x : Tree} (h : Formed x) : Expr.isNode x.kind = true := by
  cases h with
  | call children => rfl
  | @node k children hshape _ => cases k <;> first | rfl | exact hshape.elim

end Tree

namespace Expr

variable {ok : String → Prop}

/-- The operands among some children are the nodes. -/
theorem wholeAll_partsOf {cs : List Tree} (hleaves : ∀ t ∈ leavesOf cs, t.Lexical ok)
    (hformed : ∀ x ∈ nodesOf cs, Formed x)
    (hwhole : ∀ x ∈ nodesOf cs, ∀ o, (ofLocated (x.locateFrom o).1).Whole ok) (o : Nat) :
    WholeAll ok (partsOf (locateAll o cs).1) ∧ (partsOf (locateAll o cs).1).length = (nodesOf cs).length := by
  induction cs generalizing o with
  | nil => exact ⟨trivial, rfl⟩
  | cons c cs ih =>
      cases c with
      | leaf t =>
          obtain ⟨ht, hleaves⟩ := List.forall_mem_append.mp hleaves
          have hkind : isNode t.kind = false := (ht t List.mem_cons_self).not_node
          simpa [locateAll, locateFrom, partsOf, Located.kind, hkind, nodesOf] using
            ih hleaves hformed hwhole (o + t.width)
      | node k ds =>
          obtain ⟨-, hleaves⟩ := List.forall_mem_append.mp hleaves
          obtain ⟨hfirst, hformed⟩ := List.forall_mem_cons.mp hformed
          obtain ⟨hfirst', hwhole⟩ := List.forall_mem_cons.mp hwhole
          have hkind : isNode k = true := isNode_of_formed hfirst
          obtain ⟨hall, hlength⟩ := ih hleaves hformed hwhole (locateAll o ds).2
          have hparts : partsOf (locateAll o (.node k ds :: cs)).1 =
              ofLocated ((Tree.node k ds).locateFrom o).1 :: partsOf (locateAll (locateAll o ds).2 cs).1 := by
            simp [locateAll, locateFrom, partsOf, Located.kind, hkind]
          rw [hparts]
          exact ⟨⟨hfirst' o, hall⟩, congrArg (· + 1) hlength⟩

theorem WholeAll.headD {es : List Expr} (h : WholeAll ok es) (hlength : 1 ≤ es.length) :
    (es.headD .missing).Whole ok := by
  cases es with
  | nil => exact absurd hlength (Nat.not_succ_le_zero 0)
  | cons e es => exact h.1

theorem WholeAll.drop {es : List Expr} (h : WholeAll ok es) : WholeAll ok (es.drop 1) := by
  cases es with
  | nil => exact h
  | cons e es => exact h.2

/-- The bounds of a repetition are the numbers between its braces. -/
theorem repetitionBounds_of_texts {texts : List String} {isRange : Bool}
    (hread : ∀ text ∈ texts, ∃ n, readNumeral? text = some n) (hlength : (if isRange then 2 else 1) ≤ texts.length) :
    ∃ bounds, Builder.repetitionBounds isRange texts.head? (if isRange then texts[1]? else none) = some bounds := by
  cases isRange with
  | false =>
      cases texts with
      | nil => cases hlength
      | cons low texts =>
          obtain ⟨m, hm⟩ := hread low List.mem_cons_self
          exact ⟨(m, m), by simp [Builder.repetitionBounds, hm]⟩
  | true =>
      cases texts with
      | nil => cases hlength
      | cons low texts =>
          cases texts with
          | nil => exact absurd hlength (by simp)
          | cons high texts =>
              obtain ⟨m, hm⟩ := hread low List.mem_cons_self
              obtain ⟨n, hn⟩ := hread high (List.mem_cons_of_mem _ List.mem_cons_self)
              exact ⟨(m, n), by simp [Builder.repetitionBounds, hm, hn]⟩

/-- The marker of a closure is the first token that can be one. -/
theorem marker_of_closure {cs : List Tree} (hleaves : ∀ t ∈ leavesOf cs, t.Lexical ok)
    (h : ∃ t ∈ tokensOf cs, KindSet.closures.contains t.kind = true) (o : Nat) :
    ∃ q, ((Located.tokensOf KindSet.closures.contains (locateAll o cs).1).head?.map fun t => t.1.text).bind
      Quantifier.ofMarker? = some q := by
  have htrivia : ∀ k : Kind, k.isTrivia = true → KindSet.closures.contains k = false := by
    intro k hk
    cases k <;> first | rfl | cases hk
  have htokens := tokensOf_locateAll htrivia cs o
  cases hlocated : Located.tokensOf KindSet.closures.contains (locateAll o cs).1 with
  | nil =>
      obtain ⟨t, ht, hkind⟩ := h
      rw [hlocated] at htokens
      exact absurd hkind (List.filter_eq_nil_iff.mp htokens.symm t ht)
  | cons first rest =>
      have hmem : first.1 ∈ (tokensOf cs).filter fun t => KindSet.closures.contains t.kind := by
        rw [← htokens, hlocated]
        exact List.mem_cons_self
      obtain ⟨hfirst, hkind⟩ := List.mem_filter.mp hmem
      exact (hleaves first.1 (mem_leavesOf_of_mem_tokensOf hfirst)).marker hkind

/-- A formed tree of lexical tokens is read as a whole expression. -/
theorem whole_ofLocated {x : Tree} (h : Formed x) (hleaves : ∀ t ∈ x.leaves, t.Lexical ok) (o : Nat) :
    (ofLocated (x.locateFrom o).1).Whole ok := by
  induction h generalizing o with
  | call children => simp [locateFrom, ofLocated, Whole]
  | @node k children hshape hformed ih =>
      have hleaves' : ∀ t ∈ leavesOf children, t.Lexical ok := hleaves
      obtain ⟨hparts, hlength⟩ := wholeAll_partsOf hleaves' hformed
        (fun x hx => ih x hx fun t ht => hleaves' t (mem_leavesOf_of_mem_nodesOf hx ht)) o
      rw [← hlength] at hshape
      have hchain {op : Kind} (hop : op.isTrivia = false)
          (hcount : (partsOf (locateAll o children).1).length =
            ((tokensOf children).countP fun t => t.kind == op) + 1) :
          (partsOf (locateAll o children).1).length = (Located.textsOf op (locateAll o children).1).length + 1 := by
        rw [length_textsOf hop, hcount]
      cases k with
      | compose => exact ⟨hchain rfl hshape, hparts⟩
      | union => exact ⟨hchain rfl hshape, hparts⟩
      | diff => exact ⟨hchain rfl hshape, hparts⟩
      | concat => exact ⟨List.ne_nil_of_length_pos hshape, hparts⟩
      | output =>
          refine ⟨hparts.headD (Nat.le_of_succ_le hshape), hparts.drop.headD ?_⟩
          rw [List.length_drop]
          exact Nat.le_sub_of_add_le hshape
      | weight => exact trivial
      | repetition =>
          obtain ⟨hoperand, hread, hcount⟩ := hshape
          refine ⟨repetitionBounds_of_texts (fun text htext => ?_) ?_, hparts.headD hoperand⟩
          · rw [textsOf_locateAll rfl] at htext
            obtain ⟨t, ht, rfl⟩ := List.mem_map.mp htext
            obtain ⟨ht, hkind⟩ := List.mem_filter.mp ht
            exact hread t ht (beq_iff_eq.mp hkind)
          · rw [length_textsOf rfl]
            convert hcount using 2
            simp [textsOf_locateAll (k := .comma) rfl]
      | closure =>
          obtain ⟨hoperand, hmarker⟩ := hshape
          exact ⟨marker_of_closure hleaves' hmarker o, hparts.headD hoperand⟩
      | ref =>
          obtain ⟨t, ht, hkind, htext⟩ := head?_textsOf rfl hshape o
          exact ⟨t.text, htext, (hleaves' t (mem_leavesOf_of_mem_tokensOf ht)).name hkind⟩
      | str => exact trivial
      | nested => exact hparts.headD hshape
      | call => exact trivial
      | _ => exact hshape.elim

end Expr

namespace Stmt

variable {ok : String → Prop}

theorem whole_ofLocated? {x : Tree} (h : StmtFormed x) (hleaves : ∀ t ∈ x.leaves, t.Lexical ok) (o : Nat) :
    ∀ stmt ∈ ofLocated? (x.locateFrom o).1, stmt.Whole ok := by
  intro stmt hstmt
  cases h with
  | @definition children hname hbody hformed =>
      have hleaves' : ∀ t ∈ leavesOf children, t.Lexical ok := hleaves
      obtain ⟨hparts, hlength⟩ := Expr.wholeAll_partsOf hleaves' hformed
        (fun x hx => Expr.whole_ofLocated (hformed x hx) fun t ht => hleaves' t (mem_leavesOf_of_mem_nodesOf hx ht)) o
      obtain ⟨t, ht, hkind, htext⟩ := head?_textsOf rfl hname o
      cases hstmt
      refine ⟨⟨t.text, htext, (hleaves' t (mem_leavesOf_of_mem_tokensOf ht)).name hkind⟩, hparts.headD ?_⟩
      rw [hlength]
      exact List.length_pos_iff.mpr hbody
  | function htokens => cases hstmt; trivial
  | @other k children hkind =>
      cases k with
      | varDef => exact absurd rfl hkind.1
      | funcDef => exact absurd rfl hkind.2
      | importStmt => cases hstmt; trivial
      | returnStmt => cases hstmt; trivial
      | _ => cases hstmt

/-- The statements of a formed root are whole. -/
theorem whole_ofChildren {cs : List Tree} (h : ∀ x ∈ nodesOf cs, StmtFormed x)
    (hleaves : ∀ t ∈ leavesOf cs, t.Lexical ok) (o : Nat) :
    ∀ stmt ∈ ofChildren (locateAll o cs).1, stmt.Whole ok := by
  induction cs generalizing o with
  | nil => exact fun _ hstmt => nomatch hstmt
  | cons c cs ih =>
      obtain ⟨hfirst, hothers⟩ := List.forall_mem_append.mp hleaves
      simp only [locateAll, ofChildren]
      cases c with
      | leaf t => exact ih h hothers (o + t.width)
      | node k ds =>
          obtain ⟨hnode, hnodes⟩ := List.forall_mem_cons.mp h
          have hrest := ih hnodes hothers ((Tree.node k ds).locateFrom o).2
          split
          · rename_i stmt hstmt
            exact List.forall_mem_cons.mpr ⟨whole_ofLocated? hnode hfirst o stmt hstmt, hrest⟩
          · exact hrest

end Stmt

/-- The root of a source that is parsed without a report. -/
theorem formed_of_parse {limits : Limits} {source : String} {p : Parse.Parsed} (hparse : parse limits source = .ok p)
    (hclean : p.diagnostics = []) :
    ∃ children, p.root = .node .root children ∧ leavesOf children = lex source ∧
      ∀ x ∈ nodesOf children, StmtFormed x := by
  obtain ⟨s, hrun, hreached, hbelow, ⟨e, -, herror⟩ | ⟨hstopped, hend, hok⟩⟩ :=
    Parse.ofTokens_eq limits (paired_lex source)
  · rw [parse, herror] at hparse
    cases hparse
  · rw [parse, hok] at hparse
    cases hparse
    have hdiagnostics : s.diagnostics = [] := List.reverse_eq_nil_iff.mp hclean
    have hstart : (Parse.State.start limits (lex source)).Clean := ⟨rfl, rfl⟩
    have hflawless : s.Flawless := by
      refine ⟨(hreached.clean_iff hstart).mpr hdiagnostics, ?_⟩
      rw [Parse.State.isStopped, hstopped]
      rfl
    exact ⟨_, rfl, Parse.leaves_root hreached hbelow hend, Parse.stmtFormed_root hrun hflawless⟩

theorem whole_of_parse {limits : Limits} {source : String} {p : Parse.Parsed} {ok : String → Prop}
    (hparse : parse limits source = .ok p) (hclean : p.diagnostics = [])
    (hnames : ∀ t ∈ lex source, t.kind = .id → ok t.text) : ∀ stmt ∈ Stmt.ofRoot p.root, stmt.Whole ok := by
  obtain ⟨children, hroot, hleaves, hformed⟩ := formed_of_parse hparse hclean
  rw [Stmt.ofRoot, hroot]
  refine Stmt.whole_ofChildren hformed (fun t ht => ?_) 0
  rw [hleaves] at ht
  exact lexical_of_mem_lex ht (hnames t ht)

end Transducer
