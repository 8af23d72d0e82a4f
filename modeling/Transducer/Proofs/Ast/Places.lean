import Transducer.Ast.Stmt
import Transducer.Proofs.Parse.Lossless
import Transducer.Proofs.Parse.Simulation

/-!
# References stand where their names do

The parser makes a reference in one piece: it opens a node, moves a name into it and closes it again. No other node
becomes a reference, and nothing is added to one, so a reference covers the bytes of its name and no others. Since a
tree holds all tokens of its source, the name is found in the source at just that place.
-/

namespace Transducer

/-- The span is that of an occurrence of the name in the source. -/
def Covers (source : String) (span : Span) (name : String) : Prop :=
  ∃ before after, source = before ++ name ++ after ∧
    span = ⟨before.utf8ByteSize, before.utf8ByteSize + name.utf8ByteSize⟩

/-! ### Places of tokens -/

namespace Token

theorem placed_append (o : Nat) (ts us : List Token) :
    placed o (ts ++ us) = placed o ts ++ placed (o + totalWidth ts) us := by
  induction ts generalizing o with
  | nil => rfl
  | cons t ts ih => rw [List.cons_append, placed, ih, placed, totalWidth_cons, Nat.add_assoc, List.cons_append]

theorem utf8ByteSize_join (ts : List Token) : (String.join (ts.map text)).utf8ByteSize = totalWidth ts := by
  induction ts with
  | nil => rfl
  | cons t ts ih => rw [List.map_cons, String.join_cons, String.utf8ByteSize_append, ih, totalWidth_cons, width]

theorem split_of_mem_placed {t : Token} {span : Span} {ts : List Token} {o : Nat} (h : (t, span) ∈ placed o ts) :
    ∃ before after, ts = before ++ t :: after ∧ span = ⟨o + totalWidth before, o + totalWidth before + t.width⟩ := by
  induction ts generalizing o with
  | nil => cases h
  | cons u ts ih =>
      obtain heq | h := List.mem_cons.mp h
      · cases heq
        exact ⟨[], ts, rfl, rfl⟩
      · obtain ⟨before, after, rfl, rfl⟩ := ih h
        refine ⟨u :: before, after, rfl, ?_⟩
        rw [totalWidth_cons, Nat.add_assoc]

/-- A token that is placed among others covers its own text. -/
theorem covers_of_mem_placed {t : Token} {span : Span} {ts : List Token} (h : (t, span) ∈ placed 0 ts) :
    Covers (String.join (ts.map text)) span t.text := by
  obtain ⟨before, after, rfl, rfl⟩ := split_of_mem_placed h
  refine ⟨String.join (before.map text), String.join (after.map text), ?_, ?_⟩
  · rw [List.map_append, List.map_cons, String.join_append, String.join_cons, String.append_assoc]
  · rw [utf8ByteSize_join, Nat.zero_add, width]

end Token

/-! ### References in trees -/

namespace Tree

/-- Every reference is a node around a single name. -/
inductive Named : Tree → Prop where
  | leaf (t : Token) : Named (.leaf t)
  | ref {t : Token} (h : t.kind = .id) : Named (.node .ref [.leaf t])
  | node {k : Kind} {cs : List Tree} (hk : k ≠ .ref) (h : ∀ c ∈ cs, Named c) : Named (.node k cs)

mutual

theorem stop_locateFrom (t : Tree) (o : Nat) : (t.locateFrom o).2 = o + Token.totalWidth t.leaves := by
  match t with
  | .leaf t => rw [locateFrom, leaves, Token.totalWidth_cons, Token.totalWidth_nil, Nat.add_zero]
  | .node kind children => exact stop_locateAll children o

theorem stop_locateAll (ts : List Tree) (o : Nat) : (locateAll o ts).2 = o + Token.totalWidth (leavesOf ts) := by
  match ts with
  | [] => rfl
  | t :: ts =>
      rw [locateAll, leavesOf, Token.totalWidth_append, ← Nat.add_assoc, ← stop_locateFrom t o]
      exact stop_locateAll ts (t.locateFrom o).2

end

end Tree

/-! ### Parsing -/

namespace Parse

/-- The frame is no reference, and those that it holds are around a single name. -/
structure Frame.Named (f : Frame) : Prop where
  kind_ne : f.kind ≠ some .ref
  children : ∀ c ∈ f.children, c.Named

namespace State

/-- No reference is under construction. -/
structure Named (s : State) : Prop where
  top : s.top.Named
  below : ∀ f ∈ s.below, f.Named

theorem named_start (limits : Limits) (tokens : List Token) : (start limits tokens).Named :=
  ⟨⟨fun hkind => (nomatch hkind), fun _ hc => (nomatch hc)⟩, fun _ hf => (nomatch hf)⟩

namespace Named

variable {s : State}

theorem flush (h : s.Named) : s.flush.Named := by
  refine ⟨⟨h.top.kind_ne, fun c hc => ?_⟩, h.below⟩
  obtain hc | hc := List.mem_append.mp hc
  · obtain ⟨t, -, rfl⟩ := List.mem_map.mp (List.mem_reverse.mp hc)
    exact .leaf t
  · exact h.top.children c hc

theorem openTight (h : s.Named) {kind : Option Kind} (hkind : kind ≠ some .ref) : (s.openTight kind).Named :=
  ⟨⟨hkind, fun _ hc => nomatch hc⟩, List.forall_mem_cons.mpr ⟨h.top, h.below⟩⟩

theorem wrap (h : s.Named) {kind : Kind} (hkind : kind ≠ .ref) : (s.wrap kind).Named :=
  ⟨⟨fun heq => hkind (Option.some.inj heq), h.top.children⟩, h.below⟩

theorem closeNode (h : s.Named) : Ensures s.closeNode Named := by
  intro t ht
  obtain ⟨frame, below, hbelow, rfl⟩ := closeNode_eq_ok ht
  have hframes := h.below
  rw [hbelow] at hframes
  obtain ⟨hframe, hframes⟩ := List.forall_mem_cons.mp hframes
  refine ⟨⟨hframe.kind_ne, ?_⟩, hframes⟩
  have hkind := h.top.kind_ne
  dsimp only
  split
  · rename_i kind heq
    rw [heq] at hkind
    refine List.forall_mem_cons.mpr ⟨.node (fun href => hkind (congrArg some href)) fun c hc => ?_, hframe.children⟩
    exact h.top.children c (List.mem_reverse.mp hc)
  · exact List.forall_mem_append.mpr ⟨h.top.children, hframe.children⟩

theorem bump (h : s.Named) : Ensures s.bump Named := by
  intro t ht
  obtain ⟨token, ts, -, rfl⟩ := bump_eq_ok ht
  exact ⟨⟨h.top.kind_ne, List.forall_mem_cons.mpr ⟨.leaf token, h.flush.top.children⟩⟩, h.below⟩

/-- The node of a reference is opened behind the trivia, so it holds the name and nothing else. -/
theorem reference (h : s.Named) (hid : s.current = .id) : Ensures (reference s) Named := by
  intro u hu
  obtain ⟨t, ht, hclose⟩ := bind_eq_ok hu
  obtain ⟨token, ts, hahead, rfl⟩ := bump_eq_ok ht
  obtain ⟨frame, below, hbelow, rfl⟩ := closeNode_eq_ok hclose
  cases hbelow
  have htoken : token.kind = .id := by
    have hahead' : s.ahead = token :: ts := s.ahead_flush.symm.trans hahead
    rw [current, hahead'] at hid
    exact hid
  have htrivia : (s.openNode .ref).trivia = [] := s.trivia_flush
  have hflush := h.flush
  refine ⟨⟨hflush.top.kind_ne, List.forall_mem_cons.mpr ⟨?_, hflush.top.children⟩⟩, hflush.below⟩
  rw [htrivia]
  exact .ref htoken

end Named

theorem preserved_named : Preserved Named where
  flush h := h.flush
  openTight h _ hkind := h.openTight hkind
  wrap h _ hkind := h.wrap hkind
  closeNode h := h.closeNode
  bump h := h.bump
  reference h hid := h.reference hid
  claim h position report := by
    intro t ht
    obtain ⟨rfl, -⟩ | ⟨d, -, -, rfl⟩ := claim_eq_ok ht
    · exact h
    · exact ⟨h.top, h.below⟩
  withDelimiters h _ := ⟨h.top, h.below⟩

theorem bisimulation_named : Bisimulation (fun s t => s = t ∧ Named s) (fun s t => s = t ∧ Named s) where
  toSimulation := preserved_named.simulation
  isStopped := fun ⟨heq, _⟩ => congrArg State.isStopped heq
  allowsDepth := fun ⟨heq, _⟩ => congrArg (fun s : State => s.limits.allowsDepth s.depth) heq
  descend := fun {s t} ⟨heq, h⟩ => by
    refine ⟨congrArg State.descend heq, ?_⟩
    obtain ⟨depth, hdescend⟩ := s.descend_eq
    rw [hdescend]
    exact ⟨h.top, h.below⟩
  ascend := fun ⟨heq, h⟩ => ⟨congrArg State.ascend heq, h.top, h.below⟩

end State

end Parse

open Parse State in
theorem named_of_parse {limits : Limits} {source : String} {p : Parsed} (hparse : parse limits source = .ok p) :
    ∃ children, p.root = .node .root children ∧ Tree.leavesOf children = lex source ∧ ∀ c ∈ children, c.Named := by
  obtain ⟨s, hrun, hreached, hbelow, ⟨e, -, herror⟩ | ⟨-, hend, hok⟩⟩ := ofTokens_eq limits (paired_lex source)
  · rw [parse, herror] at hparse
    cases hparse
  · rw [parse, hok] at hparse
    cases hparse
    have hstart := named_start limits (lex source)
    obtain ⟨-, hnamed⟩ := bisimulation_named.run ⟨rfl, hstart⟩ (entering_start _) s s hrun hrun
    refine ⟨_, rfl, leaves_root hreached hbelow hend, fun c hc => ?_⟩
    exact hnamed.flush.top.children c (List.mem_reverse.mp hc)

/-! ### References in typed syntax -/

namespace Expr

mutual

/-- The references that are evaluated satisfy a condition on where they stand and whom they name. -/
def Refers (q : Span → String → Prop) : Expr → Prop
  | .missing | .weight _ _ _ | .literal _ _ | .call _ _ _ => True
  | .chain _ _ _ operands | .concat _ operands => RefersAll q operands
  | .output _ lhs rhs => lhs.Refers q ∧ rhs.Refers q
  | .repetition _ operand _ _ _ | .closure _ operand _ => operand.Refers q
  | .reference span name => ∀ n ∈ name, q span n
  | .group _ inner => inner.Refers q

def RefersAll (q : Span → String → Prop) : List Expr → Prop
  | [] => True
  | e :: es => e.Refers q ∧ RefersAll q es

end

variable {q : Span → String → Prop}

theorem RefersAll.headD {es : List Expr} (h : RefersAll q es) : (es.headD .missing).Refers q := by
  cases es with
  | nil => trivial
  | cons e es => exact h.1

theorem RefersAll.drop {es : List Expr} (h : RefersAll q es) : RefersAll q (es.drop 1) := by
  cases es with
  | nil => exact h
  | cons e es => exact h.2

open Transducer.Tree

/-- The condition holds of the names among some tokens that are laid out from an offset. -/
def HoldsOfNames (q : Span → String → Prop) (o : Nat) (ts : List Token) : Prop :=
  ∀ t span, (t, span) ∈ Token.placed o ts → t.kind = .id → q span t.text

theorem HoldsOfNames.append {o : Nat} {ts us : List Token} (h : HoldsOfNames q o (ts ++ us)) :
    HoldsOfNames q o ts ∧ HoldsOfNames q (o + Token.totalWidth ts) us := by
  rw [HoldsOfNames, Token.placed_append] at h
  exact ⟨fun t span ht => h t span (List.mem_append_left _ ht), fun t span ht => h t span (List.mem_append_right _ ht)⟩

theorem refersAll_partsOf {cs : List Tree}
    (h : ∀ c ∈ cs, ∀ o, HoldsOfNames q o c.leaves → (ofLocated (c.locateFrom o).1).Refers q) {o : Nat}
    (hq : HoldsOfNames q o (leavesOf cs)) : RefersAll q (partsOf (locateAll o cs).1) := by
  induction cs generalizing o with
  | nil => trivial
  | cons c cs ih =>
      obtain ⟨hc, hcs⟩ := List.forall_mem_cons.mp h
      obtain ⟨hfirst, hothers⟩ := hq.append
      rw [← stop_locateFrom c o] at hothers
      rw [locateAll]
      dsimp only
      rw [partsOf]
      split
      · exact ⟨hc o hfirst, ih hcs hothers⟩
      · exact ih hcs hothers

theorem refers_ofLocated {x : Tree} (h : x.Named) (o : Nat) (hq : HoldsOfNames q o x.leaves) :
    (ofLocated (x.locateFrom o).1).Refers q := by
  induction h generalizing o with
  | leaf t => trivial
  | @ref t hid =>
      have hname : Located.textsOf .id [.leaf t ⟨o, o + t.width⟩] = [t.text] := by
        simp [Located.textsOf, Located.tokensOf, hid]
      simp only [locateFrom, locateAll, ofLocated, hname, Refers]
      intro n hn
      cases hn
      exact hq t _ List.mem_cons_self hid
  | @node k cs hk hcs ih =>
      have hparts := refersAll_partsOf ih hq
      cases k with
      | ref => exact absurd rfl hk
      | compose | union | diff | concat => exact hparts
      | output => exact ⟨hparts.headD, hparts.drop.headD⟩
      | repetition | closure | nested => exact hparts.headD
      | _ => trivial

end Expr

namespace Stmt

variable {q : Span → String → Prop}

def Refers (q : Span → String → Prop) : Stmt → Prop
  | .definition _ _ _ body => body.Refers q
  | .importing _ _ _ | .function _ _ _ _ | .returning _ _ => True

theorem refers_ofLocated? {x : Tree} (h : x.Named) {o : Nat} (hq : Expr.HoldsOfNames q o x.leaves) :
    ∀ stmt ∈ ofLocated? (x.locateFrom o).1, stmt.Refers q := by
  intro stmt hstmt
  cases h with
  | leaf t => cases hstmt
  | ref hid => cases hstmt
  | @node k cs hk hcs =>
      have hparts := Expr.refersAll_partsOf (fun c hc o => Expr.refers_ofLocated (hcs c hc) o) hq
      cases k with
      | varDef =>
          cases hstmt
          exact hparts.headD
      | importStmt | funcDef | returnStmt =>
          cases hstmt
          trivial
      | _ => cases hstmt

theorem refers_ofChildren {cs : List Tree} (h : ∀ c ∈ cs, c.Named) {o : Nat}
    (hq : Expr.HoldsOfNames q o (Tree.leavesOf cs)) : ∀ stmt ∈ ofChildren (Tree.locateAll o cs).1, stmt.Refers q := by
  induction cs generalizing o with
  | nil => exact fun _ hstmt => nomatch hstmt
  | cons c cs ih =>
      obtain ⟨hc, hcs⟩ := List.forall_mem_cons.mp h
      obtain ⟨hfirst, hothers⟩ := hq.append
      rw [← Tree.stop_locateFrom c o] at hothers
      rw [Tree.locateAll]
      dsimp only
      rw [ofChildren]
      split
      · rename_i stmt hstmt
        exact List.forall_mem_cons.mpr ⟨refers_ofLocated? hc hfirst stmt hstmt, ih hcs hothers⟩
      · exact ih hcs hothers

end Stmt

/-- Every reference of a source stands where its name does, whether the source is broken or not. -/
theorem refers_of_parse {limits : Limits} {source : String} {p : Parse.Parsed} (hparse : parse limits source = .ok p) :
    ∀ stmt ∈ Stmt.ofRoot p.root, stmt.Refers (Covers source) := by
  obtain ⟨children, hroot, hleaves, hnamed⟩ := named_of_parse hparse
  rw [Stmt.ofRoot, hroot]
  refine Stmt.refers_ofChildren hnamed fun t span ht _ => ?_
  rw [hleaves] at ht
  have hcovers := Token.covers_of_mem_placed ht
  rwa [join_text_lex] at hcovers

end Transducer
