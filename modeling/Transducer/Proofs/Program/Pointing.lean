import Transducer.Proofs.Ast.Reading
import Transducer.Proofs.Literal.Malformed
import Transducer.Proofs.Program.Totality
import Transducer.Proofs.Tree.Ranges

/-!
# Diagnostics point into the source

What the builder reports is about a part of the typed syntax, which carries the span of its node, or about an escape
inside a literal. A node holds tokens that follow each other in the source, so its span starts and ends between
characters. A literal starts where the token of its content does, and a malformed escape is counted from there; so what
is reported about it lies inside that token and covers the very text that is quoted. With the errors of the parser this
makes all diagnostics of a compilation.
-/

namespace Transducer

open Token

theorem Covers.trans {source raw text : String} {start stop i j : Nat} (h : Covers source ⟨start, stop⟩ raw)
    (h' : Covers raw ⟨i, j⟩ text) : Covers source ⟨start + i, start + j⟩ text := by
  obtain ⟨before, after, rfl, hspan⟩ := h
  obtain ⟨front, back, rfl, hinner⟩ := h'
  cases hspan
  cases hinner
  refine ⟨before ++ front, back ++ after, by simp only [String.append_assoc], ?_⟩
  rw [String.utf8ByteSize_append, Nat.add_assoc]

theorem Token.StandsAt.pointsInto {source : String} {o : Nat} {ts : List Token} (h : StandsAt (lex source) o ts) :
    Span.PointsInto source ⟨o, o + totalWidth ts⟩ := by
  have hcovers := h.covers
  rw [joined, join_text_lex] at hcovers
  exact hcovers.pointsInto

/-! ### Typed syntax -/

/-- The span points into the source and is not empty. -/
structure Span.Marks (source : String) (s : Span) : Prop where
  points : s.PointsInto source
  wide : s.start < s.stop

theorem Token.StandsAt.marks {source : String} {o : Nat} {ts : List Token} (h : StandsAt (lex source) o ts)
    (hne : ts ≠ []) : Span.Marks source ⟨o, o + totalWidth ts⟩ :=
  ⟨h.pointsInto, Nat.lt_add_of_pos_right (h.totalWidth_pos hne)⟩

/-- A literal of the source has the content `raw`, which starts at `start`. -/
def Quotes (source raw : String) (start : Nat) : Prop :=
  ∃ t : Token, t.kind = .strVal ∧ t.text = raw ∧ (t, ⟨start, start + t.width⟩) ∈ placed 0 (lex source)

namespace Expr

mutual

/-- All parts that are evaluated point into the source and are not empty, and literals are quoted from it. -/
def Points (source : String) : Expr → Prop
  | .missing => True
  | .chain span _ _ operands | .concat span operands => span.Marks source ∧ PointsAll source operands
  | .output span lhs rhs => span.Marks source ∧ lhs.Points source ∧ rhs.Points source
  | .repetition span operand _ _ _ | .closure span operand _ | .group span operand =>
      span.Marks source ∧ operand.Points source
  | .weight span _ _ | .reference span _ | .call span _ _ => span.Marks source
  | .literal span content => span.Marks source ∧ ∀ raw start, content = some (raw, start) → Quotes source raw start

def PointsAll (source : String) : List Expr → Prop
  | [] => True
  | e :: es => e.Points source ∧ PointsAll source es

end

variable {source : String} {e : Expr}

theorem Points.span (h : e.Points source) (hsome : e ≠ .missing) : e.span.Marks source := by
  cases e with
  | missing => exact absurd rfl hsome
  | weight | reference | call => exact h
  | _ => exact h.1

theorem PointsAll.headD {es : List Expr} (h : PointsAll source es) : (es.headD .missing).Points source := by
  cases es with
  | nil => trivial
  | cons e es => exact h.1

theorem PointsAll.drop {es : List Expr} (h : PointsAll source es) : PointsAll source (es.drop 1) := by
  cases es with
  | nil => exact h
  | cons e es => exact h.2

end Expr

/-- A token among the children of a node is laid out with the others of the node. -/
theorem Tree.mem_placed_of_leaf {t : Token} {span : Span} {cs : List Tree} {o : Nat}
    (h : .leaf t span ∈ (locateAll o cs).1) : (t, span) ∈ placed o (leavesOf cs) := by
  induction cs generalizing o with
  | nil => cases h
  | cons c cs ih =>
      rw [leavesOf, placed_append, ← stop_locateFrom]
      rcases List.mem_cons.mp h with hfirst | hlater
      · refine List.mem_append_left _ ?_
        cases c with
        | leaf u =>
            cases hfirst
            exact List.mem_cons_self
        | node kind children => cases hfirst
      · exact List.mem_append_right _ (ih hlater)

theorem Located.leaf_mem_of_tokensOf {p : Kind → Bool} {t : Token} {span : Span} {ts : List Located}
    (h : (t, span) ∈ tokensOf p ts) : .leaf t span ∈ ts ∧ p t.kind = true := by
  obtain ⟨x, hx, heq⟩ := List.mem_filterMap.mp h
  cases x with
  | leaf u s =>
      dsimp only at heq
      split at heq
      · rename_i hkind
        cases heq
        exact ⟨hx, hkind⟩
      · cases heq
  | node kind s children => cases heq

namespace Expr

variable {source : String}

open Transducer.Tree

mutual

theorem points_ofLocated (x : Tree) (o : Nat) (h : StandsAt (lex source) o x.leaves) (htight : x.Tight) :
    (ofLocated (x.locateFrom o).1).Points source := by
  match x, htight with
  | .leaf t, _ => trivial
  | .node k cs, .node hedges hchildren =>
      have hparts := pointsAll_partsOf cs o h hchildren
      have hspan (hk : k.isTight = true) : Span.Marks source ⟨o, (locateAll o cs).2⟩ := by
        rw [stop_locateAll]
        exact h.marks (hedges hk).2.ne_nil
      cases k with
      | compose | union | diff | concat => exact ⟨hspan rfl, hparts⟩
      | output => exact ⟨hspan rfl, hparts.headD, hparts.drop.headD⟩
      | repetition | closure | nested => exact ⟨hspan rfl, hparts.headD⟩
      | weight | ref | call => exact hspan rfl
      | str =>
          refine ⟨hspan rfl, fun raw start hcontent => ?_⟩
          obtain ⟨⟨t, span⟩, hfirst, heq⟩ := Option.map_eq_some_iff.mp hcontent
          cases heq
          obtain ⟨hleaf, hkind⟩ := Located.leaf_mem_of_tokensOf (List.mem_of_head? hfirst)
          have hplaced := h.mem_placed (mem_placed_of_leaf hleaf)
          refine ⟨t, beq_iff_eq.mp hkind, rfl, ?_⟩
          obtain ⟨before, after, -, hspan⟩ := split_of_mem_placed hplaced
          rw [hspan] at hplaced ⊢
          exact hplaced
      | _ => trivial

theorem pointsAll_partsOf (cs : List Tree) (o : Nat) (h : StandsAt (lex source) o (leavesOf cs))
    (htight : ∀ c ∈ cs, c.Tight) : PointsAll source (partsOf (locateAll o cs).1) := by
  match cs with
  | [] => trivial
  | c :: cs =>
      obtain ⟨hfirst, hothers⟩ := h.append
      obtain ⟨hfirst', hothers'⟩ := List.forall_mem_cons.mp htight
      rw [← stop_locateFrom c o] at hothers
      rw [locateAll]
      dsimp only
      rw [partsOf]
      split
      · exact ⟨points_ofLocated c o hfirst hfirst', pointsAll_partsOf cs _ hothers hothers'⟩
      · exact pointsAll_partsOf cs _ hothers hothers'

end

end Expr

namespace Stmt

open Transducer.Tree

variable {source : String} {clean : Prop}

/-- What is evaluated of a statement points into the source and is not empty. Only functions that broke off may be. -/
def Points (source : String) (clean : Prop) : Stmt → Prop
  | .definition _ _ _ body => body.Points source
  | .importing span _ _ | .returning span _ => span.Marks source
  | .function span _ _ _ => span.PointsInto source ∧ (clean → span.start < span.stop)

theorem points_ofLocated? {x : Tree} {o : Nat} (h : StandsAt (lex source) o x.leaves) (htight : x.Tight)
    (hformed : clean → ∀ y ∈ nodesOf [x], StmtFormed y) :
    ∀ stmt ∈ ofLocated? (x.locateFrom o).1, stmt.Points source clean := by
  intro stmt hstmt
  cases htight with
  | leaf t => cases hstmt
  | @node k cs hedges hchildren =>
      have hspan (hk : k.isTight = true) : Span.Marks source ⟨o, (locateAll o cs).2⟩ := by
        rw [stop_locateAll]
        exact h.marks (hedges hk).2.ne_nil
      cases k with
      | varDef =>
          cases hstmt
          exact (Expr.pointsAll_partsOf cs o h hchildren).headD
      | importStmt | returnStmt =>
          cases hstmt
          exact hspan rfl
      | funcDef =>
          cases hstmt
          dsimp only [Stmt.Points]
          rw [stop_locateAll]
          refine ⟨h.pointsInto, fun hclean => ?_⟩
          obtain ⟨t, ht⟩ : ∃ t, t ∈ Tree.tokensOf cs := by
            cases hformed hclean _ List.mem_cons_self with
            | function htokens => exact List.exists_mem_of_ne_nil _ htokens
            | other hkind => exact absurd rfl hkind.2
          exact (h.marks (List.ne_nil_of_mem (mem_leavesOf_of_mem_tokensOf ht))).wide
      | _ => cases hstmt

theorem points_ofChildren {cs : List Tree} {o : Nat} (h : StandsAt (lex source) o (Tree.leavesOf cs))
    (htight : ∀ c ∈ cs, c.Tight) (hformed : clean → ∀ x ∈ nodesOf cs, StmtFormed x) :
    ∀ stmt ∈ ofChildren (Tree.locateAll o cs).1, stmt.Points source clean := by
  induction cs generalizing o with
  | nil => exact fun _ hstmt => nomatch hstmt
  | cons c cs ih =>
      obtain ⟨hfirst, hothers⟩ := h.append
      obtain ⟨hfirst', hothers'⟩ := List.forall_mem_cons.mp htight
      have hnodes : nodesOf (c :: cs) = nodesOf [c] ++ nodesOf cs := nodesOf_append [c] cs
      rw [hnodes] at hformed
      have hone : ∀ stmt ∈ ofLocated? (c.locateFrom o).1, stmt.Points source clean :=
        points_ofLocated? hfirst hfirst' fun hclean x hx => hformed hclean x (List.mem_append_left _ hx)
      rw [← stop_locateFrom c o] at hothers
      have hrest := ih hothers hothers' fun hclean x hx => hformed hclean x (List.mem_append_right _ hx)
      rw [locateAll]
      dsimp only
      rw [ofChildren]
      split
      · rename_i stmt hstmt
        exact List.forall_mem_cons.mpr ⟨hone stmt hstmt, hrest⟩
      · exact hrest

end Stmt

theorem points_of_parse {limits : Limits} {source : String} {p : Parse.Parsed} (hparse : parse limits source = .ok p) :
    ∀ stmt ∈ Stmt.ofRoot p.root, stmt.Points source (p.diagnostics = []) := by
  obtain ⟨children, hroot, hleaves, -⟩ := named_of_parse hparse
  obtain ⟨-, htight⟩ := tight_of_parse hparse
  have hformed : p.diagnostics = [] → ∀ x ∈ Tree.nodesOf children, Tree.StmtFormed x := by
    intro hclean
    obtain ⟨children', hroot', -, hformed⟩ := formed_of_parse hparse hclean
    rw [hroot] at hroot'
    cases hroot'
    exact hformed
  rw [Stmt.ofRoot, hroot]
  rw [hroot] at htight
  cases htight with
  | node _ hchildren =>
      exact Stmt.points_ofChildren ⟨[], [], by rw [hleaves, List.append_nil, List.nil_append], rfl⟩ hchildren hformed

/-! ### Building -/

namespace Diagnostic

/-- A diagnostic about an escape lies inside the content of a literal, and covers the text that the error about that
content quotes. -/
def QuotesEscape (source : String) (d : Diagnostic) : Prop :=
  ∃ t span e, (t, span) ∈ placed 0 (lex source) ∧ t.kind = .strVal ∧ Literal.unescape t.text = .error e ∧
    span.start ≤ d.span.start ∧ d.span.stop ≤ span.stop ∧ Covers source d.span e.text ∧
    d.message = Issue.message .invalidNumericEscape (some e.message)

/-- The diagnostic points into the source, and quotes from it what it is about if that is an escape. A warning about a
clean source is not about an empty place, and it names no other one. -/
structure Sourced (source : String) (clean : Prop) (d : Diagnostic) : Prop where
  points : d.PointsInto source
  quotes : d.issue = .invalidNumericEscape → d.QuotesEscape source
  warns : clean → d.isError = false → d.span.start < d.span.stop ∧ d.related = []

theorem pointsInto_withDetail {source : String} {span : Span} (h : span.PointsInto source) (issue : Issue)
    (detail : String) : (withDetail issue span detail).PointsInto source :=
  ⟨h, h, fun _ hr => nomatch hr⟩

end Diagnostic

namespace Builder

variable {source : String} {clean : Prop} {b : Builder}

/-- All that was reported can be found in the source. -/
def Sourced (source : String) (clean : Prop) (b : Builder) : Prop := ∀ d ∈ b.diagnostics, d.Sourced source clean

namespace Sourced

theorem report (h : b.Sourced source clean) {issue : Issue} (hissue : issue ≠ .invalidNumericEscape) {span : Span}
    (hspan : span.PointsInto source) (hwide : clean → span.start < span.stop) (detail : String) :
    (b.report issue span detail).Sourced source clean := by
  refine List.forall_mem_cons.mpr ⟨⟨Diagnostic.pointsInto_withDetail hspan issue detail, ?_, ?_⟩, h⟩
  · exact fun heq => absurd heq hissue
  · exact fun hclean _ => ⟨hwide hclean, rfl⟩

theorem reportAt (h : b.Sourced source clean) {issue : Issue} (hissue : issue ≠ .invalidNumericEscape) {span : Span}
    (hspan : span.Marks source) (detail : String) : (b.report issue span detail).Sourced source clean :=
  h.report hissue hspan.points (fun _ => hspan.wide) detail

theorem reference (h : b.Sourced source clean) {span : Span} (hspan : span.Marks source) (name : String) :
    (b.reference span name).2.Sourced source clean := by
  unfold Builder.reference
  split
  · split
    · exact h
    · exact h
  · exact h.reportAt (by decide) hspan name

/-- An escape is counted from where its literal starts. -/
theorem literal (h : b.Sourced source clean) {content : Option (String × Nat)}
    (hcontent : ∀ raw start, content = some (raw, start) → Quotes source raw start) :
    Ensures (b.literal content) fun r => r.2.Sourced source clean := by
  unfold Builder.literal
  split
  · exact .ok h
  · rename_i raw start
    split
    · exact .ok h
    · rename_i e herror
      obtain ⟨t, hkind, rfl, hplaced⟩ := hcontent raw start rfl
      have hescape := Literal.covers_of_unescape herror
      have hcovers : Covers source ⟨start + e.start, start + e.stop⟩ e.text := by
        have hliteral := covers_of_mem_placed hplaced
        rw [join_text_lex] at hliteral
        exact hliteral.trans hescape
      intro r hr
      obtain ⟨span, hspan, heq⟩ := bind_eq_ok hr
      cases heq
      unfold Span.checked at hspan
      split at hspan
      · cases hspan
        refine List.forall_mem_cons.mpr
          ⟨⟨Diagnostic.pointsInto_withDetail hcovers.pointsInto _ _, fun _ => ?_, fun _ hwarning => ?_⟩, h⟩
        · refine ⟨t, _, e, hplaced, hkind, herror, Nat.le_add_right _ _, ?_, hcovers, rfl⟩
          exact Nat.add_le_add_left hescape.pointsInto.stop_le start
        · cases hwarning
      · cases hspan

theorem withOutput (h : b.Sourced source clean) {span : Span} (input : Option Re) {output : Option Re}
    (hspan : output ≠ none → span.Marks source) : (b.withOutput span input output).2.Sourced source clean := by
  unfold Builder.withOutput
  split
  · split
    · exact h
    · exact h.reportAt (by decide) (hspan (Option.some_ne_none _)) _
  · exact h

theorem repeated (h : b.Sourced source clean) (m n : Nat) (value : Option Re) :
    (repeated m n value b).2.Sourced source clean := by
  unfold Builder.repeated Builder.hoist
  cases value with
  | none => exact h
  | some re =>
      dsimp only
      split
      · exact h
      · cases b.current with
        | none => exact h
        | some d => exact h

mutual

theorem build (a : Alphabet) (e : Expr) (b : Builder) (he : e.Points source) (h : b.Sourced source clean) :
    Ensures (build a e b) fun r => r.2.Sourced source clean := by
  cases e with
  | missing => exact .ok h
  | chain span op operators operands =>
      exact (buildAll a operands b he.2 h).bind fun r hr => .after fun _ => .ok hr
  | concat span operands => exact (buildAll a operands b he.2 h).bind fun r hr => .ok hr
  | output span lhs rhs =>
      have hnone (c : Builder) : Ensures (Builder.build a rhs c) fun r => rhs = .missing → r.1 = none := by
        cases rhs with
        | missing => exact .ok fun _ => rfl
        | _ => exact fun _ _ hmissing => nomatch hmissing
      refine (build a lhs b he.2.1 h).bind fun r hr => ((build a rhs r.2 he.2.2 hr).and (hnone r.2)).bind fun r' hr' => .ok ?_
      exact hr'.1.withOutput r.1 fun hsome => he.2.2.span fun hmissing => hsome (hr'.2 hmissing)
  | weight span operand value => exact .ok (h.reportAt (by decide) he _)
  | repetition span operand isRange lower upper =>
      simp only [Builder.build]
      split
      · exact .ok h
      · split
        · exact .ok h
        · exact (build a operand b he.2 h).bind fun r hr => .ok (hr.repeated _ _ r.1)
  | closure span operand marker => exact (build a operand b he.2 h).bind fun r hr => .ok hr
  | reference span name =>
      cases name with
      | none => exact .ok h
      | some name => exact .ok (h.reference he name)
  | literal span content => exact h.literal he.2
  | group span inner => exact build a inner b he.2 h
  | call span name arguments => exact .ok (h.reportAt (by decide) he _)

theorem buildAll (a : Alphabet) (es : List Expr) (b : Builder) (hes : Expr.PointsAll source es)
    (h : b.Sourced source clean) : Ensures (buildAll a es b) fun r => r.2.Sourced source clean := by
  cases es with
  | nil => exact .ok h
  | cons e es => exact (build a e b hes.1 h).bind fun r hr => (buildAll a es r.2 hes.2 hr).bind fun r' hr' => .ok hr'

end

theorem endDefinition (h : b.Sourced source clean) (name : String) (value : Option Re) :
    Ensures (b.endDefinition name value) (Sourced source clean) := by
  unfold Builder.endDefinition
  split
  · exact .ok h
  · exact .error

theorem define (h : b.Sourced source clean) (a : Alphabet) (name : String) {body : Expr} (hbody : body.Points source) :
    Ensures (define a name body b) (Sourced source clean) := by
  have hbegin : Ensures (b.beginDefinition name) (Sourced source clean) := by
    unfold beginDefinition
    split
    · exact .error
    · exact .ok h
  exact hbegin.bind fun b₁ h₁ => (build a body b₁ hbody h₁).bind fun r hr => hr.endDefinition name r.1

theorem visit (h : b.Sourced source clean) (a : Alphabet) {stmt : Stmt} (hstmt : stmt.Points source clean) :
    Ensures (visit a b stmt) (Sourced source clean) := by
  cases stmt with
  | definition span exported name body =>
      cases name with
      | none => exact .ok h
      | some name => exact h.define a name hstmt
  | importing span path renamed => exact .ok (h.reportAt (by decide) hstmt _)
  | function span name params body => exact .ok (h.report (by decide) hstmt.1 hstmt.2 _)
  | returning span body => exact .ok (h.reportAt (by decide) hstmt _)

theorem visitAll (h : b.Sourced source clean) (a : Alphabet) {stmts : List Stmt}
    (hstmts : ∀ stmt ∈ stmts, stmt.Points source clean) : Ensures (stmts.foldlM (Builder.visit a) b) (Sourced source clean) := by
  induction stmts generalizing b with
  | nil => exact .ok h
  | cons stmt stmts ih =>
      obtain ⟨hstmt, hstmts⟩ := List.forall_mem_cons.mp hstmts
      exact (h.visit a hstmt).bind fun b' h' => ih h' hstmts

end Sourced

end Builder

/-- All diagnostics of a compilation, where a source is clean if its parse reports nothing. -/
theorem sourced_of_compile {options : Options} {source : String} {c : Compilation}
    (hcompile : compile options source = .ok c) :
    ∀ d ∈ c.diagnostics, d.Sourced source (c.parseDiagnostics = []) := by
  obtain ⟨p, built, hparse, hbuilt, rfl⟩ := compile_eq_ok hcompile
  refine List.forall_mem_append.mpr ⟨fun d hd => ?_, fun d hd => ?_⟩
  · obtain ⟨hpoints, hissue⟩ := pointsInto_of_parse hparse d hd
    refine ⟨hpoints, fun heq => ?_, fun hclean => ?_⟩
    · rw [heq] at hissue
      cases hissue
    · exact absurd hd (hclean ▸ List.not_mem_nil)
  · have hstart : Builder.start.Sourced source (p.diagnostics = []) := fun _ h => nomatch h
    exact hstart.visitAll options.alphabet (points_of_parse hparse) built hbuilt d (List.mem_reverse.mp hd)

/-- Diagnostics point into the source. Whatever the source, the limits and the alphabet are, each diagnostic of a
compilation has a span, a cascade and related places that do not end before they start or behind the end of the source,
and that start and end between characters. One about an escape lies inside the content of a literal and covers the text
that the error about this content quotes. -/
theorem diagnostics_point_into_source {options : Options} {source : String} {c : Compilation}
    (hcompile : compile options source = .ok c) :
    ∀ d ∈ c.diagnostics,
      (∀ span ∈ d.span :: d.cascade :: d.related.map Related.span,
        span.start ≤ span.stop ∧ span.stop ≤ source.utf8ByteSize ∧
          String.Pos.Raw.IsValid source ⟨span.start⟩ ∧ String.Pos.Raw.IsValid source ⟨span.stop⟩) ∧
      (d.issue = .invalidNumericEscape → d.QuotesEscape source) := by
  have hsourced := sourced_of_compile hcompile
  intro d hd
  obtain ⟨hpoints, hquotes, -⟩ := hsourced d hd
  refine ⟨?_, hquotes⟩
  have hall : ∀ span ∈ d.span :: d.cascade :: d.related.map Related.span, span.PointsInto source := by
    refine List.forall_mem_cons.mpr ⟨hpoints.span, List.forall_mem_cons.mpr ⟨hpoints.cascade, fun span hspan => ?_⟩⟩
    obtain ⟨r, hr, rfl⟩ := List.mem_map.mp hspan
    exact hpoints.related r hr
  intro span hspan
  have hinto := hall span hspan
  exact ⟨hinto.ordered, hinto.stop_le, hinto.start, hinto.stop⟩

/-- A literal with a malformed escape behind a character of two bytes, and a group that is not closed. -/
theorem diagnostics_point_into_source_of_escape :
    ∃ c unclosed escape, compile .standard "x = 'é[0x110000]';\ny = ('ü';" = .ok c ∧ c.diagnostics = [unclosed, escape] ∧
      unclosed.span = ⟨24, 30⟩ ∧ unclosed.span.stop ≤ "x = 'é[0x110000]';\ny = ('ü';".utf8ByteSize ∧
      escape.issue = .invalidNumericEscape ∧ escape.span = ⟨7, 17⟩ ∧
      escape.QuotesEscape "x = 'é[0x110000]';\ny = ('ü';" := by
  have hcompiles : ((compile .standard "x = 'é[0x110000]';\ny = ('ü';").toOption.map fun c =>
      c.diagnostics.map fun d => (d.issue, d.span)) =
        some [(.unclosedParen, ⟨24, 30⟩), (.invalidNumericEscape, ⟨7, 17⟩)] := by
    decide +kernel
  obtain ⟨c, hcompile, hseen⟩ := eq_ok_of_toOption hcompiles
  obtain ⟨unclosed, rest, hdiagnostics, hunclosed, hrest⟩ := List.map_eq_cons_iff.mp hseen
  obtain ⟨escape, nothing, rfl, hescape, hnothing⟩ := List.map_eq_cons_iff.mp hrest
  rw [List.map_eq_nil_iff] at hnothing
  subst hnothing
  obtain ⟨-, hunclosed⟩ := Prod.mk.inj hunclosed
  obtain ⟨hissue, hspan⟩ := Prod.mk.inj hescape
  have hpoint := diagnostics_point_into_source hcompile
  rw [hdiagnostics] at hpoint
  obtain ⟨hplaces, -⟩ := hpoint unclosed List.mem_cons_self
  obtain ⟨-, hquotes⟩ := hpoint escape (List.mem_cons_of_mem _ List.mem_cons_self)
  exact ⟨c, unclosed, escape, hcompile, hdiagnostics, hunclosed, (hplaces _ List.mem_cons_self).2.1, hissue, hspan,
    hquotes hissue⟩

end Transducer
