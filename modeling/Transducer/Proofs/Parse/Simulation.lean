import Transducer.Proofs.Agree
import Transducer.Proofs.Parse.Agenda

/-!
# Parses side by side

Two parses are compared through a relation between their states. If the relation fixes what is ahead and the
operations on the state preserve it, then every goal preserves it and leaves the same goals over. This is shown here
once, for any such relation. A relation that holds of equal states only is an invariant of a single parse.

A second relation says what is left of the first one behind the `;` that ends a statement, or behind the report that it
is missing. No goal looks at a token between that place and the end of its step, so from there on the parses may differ
in what is ahead.
-/

namespace Transducer.Issue

/-- What a parser can find wrong: all errors but those inside a literal. -/
def isSyntactic (i : Issue) : Bool := i.severity == .error && i != .invalidNumericEscape

theorem severity_of_isSyntactic {i : Issue} (h : i.isSyntactic = true) : i.severity = .error :=
  eq_of_beq (Bool.and_eq_true_iff.mp h).1

/-- What a parser reports at the next token: all that it can find wrong but a missing `;`. -/
def isAtNext (i : Issue) : Bool := i.isSyntactic && i != .expectedSemicolon

theorem isSyntactic_of_isAtNext {i : Issue} (h : i.isAtNext = true) : i.isSyntactic = true :=
  (Bool.and_eq_true_iff.mp h).1

theorem ne_expectedSemicolon_of_isAtNext {i : Issue} (h : i.isAtNext = true) : i ≠ .expectedSemicolon :=
  bne_iff_ne.mp (Bool.and_eq_true_iff.mp h).2

end Transducer.Issue

namespace Transducer.Parse

open State

/-- A relation `R` that the operations of a parse preserve, up to `Q` where a `;` is consumed or missing. -/
structure Simulation (R Q : State → State → Prop) : Prop where
  current {s t : State} (h : R s t) : s.current = t.current
  currentText {s t : State} (h : R s t) : s.currentText = t.currentText
  atEnd {s t : State} (h : R s t) : s.atEnd = t.atEnd
  isFollowedBy {s t : State} (h : R s t) (hid : s.current = .id) (k : Kind) : s.isFollowedBy k = t.isFollowedBy k
  flush {s t : State} (h : R s t) : R s.flush t.flush
  openTight {s t : State} (h : R s t) {kind : Option Kind} (hkind : kind ≠ some .ref) :
    R (s.openTight kind) (t.openTight kind)
  wrap {s t : State} (h : R s t) {kind : Kind} (hkind : kind ≠ .ref) : R (s.wrap kind) (t.wrap kind)
  closeNode {s t : State} (h : R s t) : Agree R s.closeNode t.closeNode
  bump {s t : State} (h : R s t) (hnot : s.current ≠ .semicolon) : Agree R s.bump t.bump
  /-- A name is opened, consumed and closed at once. -/
  reference {s t : State} (h : R s t) (hid : s.current = .id) : Agree R (reference s) (reference t)
  unterminatedString {s t : State} (h : R s t) (hcurrent : s.current = .unterminatedStr) :
    Agree R s.unterminatedString t.unterminatedString
  report {s t : State} (h : R s t) {issue : Issue} (hissue : issue.isAtNext = true) (detail : String) :
    Agree R (s.report issue detail) (t.report issue detail)
  openDelimiter {s t : State} (h : R s t) {k : Kind} (hk : k ≠ .semicolon) :
    Agree R (s.openDelimiter k) (t.openDelimiter k)
  closeDelimiter {s t : State} (h : R s t) {closer : Kind} (hcloser : closer ≠ .semicolon) (construct : String) :
    Agree R (s.closeDelimiter closer construct) (t.closeDelimiter closer construct)
  /-- A `;` that is missing is reported. -/
  expectSemicolon {s t : State} (h : R s t) (hnot : s.current ≠ .semicolon) (detail : String) :
    Agree Q (s.expectSemicolon detail) (t.expectSemicolon detail)
  ended {s t : State} (h : R s t) : Q s t
  bumpEnded {s t : State} (h : R s t) (hsemicolon : s.current = .semicolon) : Agree Q s.bump t.bump
  closeEnded {s t : State} (h : Q s t) : Agree Q s.closeNode t.closeNode

/-- The relation holds, or it is left as it is behind the `;` of a statement, where only some goals can be left over. -/
def OrEnded (R Q : State → State → Prop) (ended : List (List Goal)) (goals : List Goal) (s t : State) : Prop :=
  R s t ∨ goals ∈ ended ∧ Q s t

/-- What a goal can leave over behind the `;` of a statement. A `;` that starts no statement is taken for the first one
of some tokens to be skipped. -/
def Goal.ended : Goal → List (List Goal)
  | .statements inBody => [[.statements inBody], [.skip, .endRecovery, .statements inBody]]
  | .endStatement _ | .endRecovery | .endSkipped => [[]]
  | _ => []

/-! ### Goals left over -/

/-- Goals that neither enter nor leave an expression. -/
def Goal.isPlain : Goal → Bool
  | .expression | .leaveExpression => false
  | _ => true

/-- What a step leaves over in front of the goals `following`: perhaps an expression, which the state is ready to
enter, and then plain goals. -/
def Leaves (following goals : List Goal) (s : State) : Prop :=
  ∃ first plain, goals = first ++ plain ++ following ∧
    (first = [] ∨ first = [.expression] ∧ s.looksAtAny .exprFirst = true) ∧ ∀ g ∈ plain, g.isPlain = true

/-- Two steps leave the same goals over, and their states are related in a way that may depend on them. -/
structure StepRel (S : List Goal → State → State → Prop) (following : List Goal) (p q : List Goal × State) : Prop where
  goals_eq : p.1 = q.1
  leaves : Leaves following p.1 p.2
  states : S p.1 p.2 q.2

section Steps

variable {R Q : State → State → Prop} {S : List Goal → State → State → Prop} {s t : State}
  {r r' : Except Fault State} {following goals : List Goal}

theorem leaves_of_plain {u : State} (h : ∀ g ∈ goals, g.isPlain = true) : Leaves [] goals u :=
  ⟨[], goals, (List.append_nil goals).symm, .inl rfl, h⟩

theorem leaves_nil (u : State) : Leaves [] [] u := leaves_of_plain fun _ hg => nomatch hg

/-- Plain goals need not be told apart from those in front of them. -/
theorem StepRel.merge {p q : List Goal × State} (h : StepRel S following p q)
    (hplain : ∀ g ∈ following, g.isPlain = true) : StepRel S [] p q := by
  obtain ⟨first, plain, hgoals, hfirst, hall⟩ := h.leaves
  refine ⟨h.goals_eq, ⟨first, plain ++ following, ?_, hfirst, ?_⟩, h.states⟩
  · rw [hgoals, List.append_nil, List.append_assoc]
  · exact List.forall_mem_append.mpr ⟨hall, hplain⟩

theorem agree_leaving (h : Agree (S goals) r r') (hplain : ∀ g ∈ goals, g.isPlain = true) :
    Agree (StepRel S []) (leaving goals r) (leaving goals r') :=
  h.map fun _ _ h => ⟨rfl, leaves_of_plain hplain, h⟩

theorem agree_done (h : Agree (S []) r r') : Agree (StepRel S []) (done r) (done r') :=
  agree_leaving h fun _ hg => nomatch hg

theorem agree_requireCurrent (s t : State) (k : Kind) :
    Agree (fun _ _ => s.current = k) (s.requireCurrent k) (t.requireCurrent k) := by
  intro _ _ hs _
  unfold requireCurrent at hs
  split at hs
  · assumption
  · cases hs

end Steps

namespace Simulation

variable {R Q : State → State → Prop} {s t : State}

/-! ### Reading ahead -/

section Reading

variable (hR : Simulation R Q) (h : R s t)
include hR h

theorem looksAt (k : Kind) : s.looksAt k = t.looksAt k := congrArg (· == k) (hR.current h)

theorem looksAtAny (ks : KindSet) : s.looksAtAny ks = t.looksAtAny ks := congrArg ks.contains (hR.current h)

theorem atBoundary : s.atBoundary = t.atBoundary := by
  unfold State.atBoundary
  rw [← hR.current h]
  split
  · rename_i hid
    exact hR.isFollowedBy h hid .equals
  · rfl

theorem atEnd_or_atBoundary : (s.atEnd || s.atBoundary) = (t.atEnd || t.atBoundary) := by
  rw [hR.atEnd h, hR.atBoundary h]

theorem atOperand : s.atOperand = t.atOperand := by
  unfold State.atOperand
  rw [← hR.looksAtAny h, ← hR.current h]
  by_cases hid : s.current = .id
  · rw [hR.isFollowedBy h hid]
  · rw [beq_eq_false_iff_ne.mpr hid]
    rfl

end Reading

theorem ne_semicolon_of_looksAt {k : Kind} (h : s.looksAt k = true) (hk : k ≠ .semicolon) :
    s.current ≠ .semicolon := by
  rw [looksAt_iff.mp h]
  exact hk

theorem ne_semicolon_of_looksAtAny {ks : KindSet} (h : s.looksAtAny ks = true)
    (hks : ks.contains .semicolon = false) : s.current ≠ .semicolon := by
  intro hcurrent
  rw [State.looksAtAny, hcurrent, hks] at h
  cases h

/-! ### Operations -/

section Operations

variable (hR : Simulation R Q) (h : R s t)
include hR h

theorem openNode {kind : Kind} (hkind : kind ≠ .ref) : R (s.openNode kind) (t.openNode kind) :=
  hR.openTight (hR.flush h) fun heq => hkind (Option.some.inj heq)

theorem mark : R s.mark t.mark := hR.openTight (hR.flush h) (by simp)

omit h in
theorem marks (strengths : List Strength) {s t : State} (h : R s t) :
    R (strengths.foldl (fun s _ => s.mark) s) (strengths.foldl (fun s _ => s.mark) t) := by
  induction strengths generalizing s t with
  | nil => exact h
  | cons strength strengths ih => exact ih (hR.mark h)

theorem skipOne {k : Kind} (hk : k ≠ .semicolon) : Agree R (s.skipOne k) (t.skipOne k) :=
  .branch (hR.looksAt h k) (fun hlooks => hR.bump h (ne_semicolon_of_looksAt hlooks hk)) fun _ => .ok h

theorem expect {k : Kind} (hk : k ≠ .semicolon) {issue : Issue} (hissue : issue.isAtNext = true) (detail : String) :
    Agree R (s.expect k issue detail) (t.expect k issue detail) :=
  .branch (hR.looksAt h k) (fun hlooks => hR.bump h (ne_semicolon_of_looksAt hlooks hk))
    fun _ => hR.report h hissue detail

theorem endSemicolon (detail : String) : Agree Q (s.expectSemicolon detail) (t.expectSemicolon detail) := by
  by_cases hsemicolon : s.current = .semicolon
  · have hlooks : s.looksAt .semicolon = true := looksAt_iff.mpr hsemicolon
    have hlooks' : t.looksAt .semicolon = true := hR.looksAt h .semicolon ▸ hlooks
    rw [State.expectSemicolon, State.expectSemicolon, if_pos hlooks, if_pos hlooks']
    exact hR.bumpEnded h hsemicolon
  · exact hR.expectSemicolon h hsemicolon detail

theorem skipSemicolon : Agree Q (s.skipOne .semicolon) (t.skipOne .semicolon) :=
  .branch (hR.looksAt h .semicolon) (fun hlooks => hR.bumpEnded h (looksAt_iff.mp hlooks)) fun _ => .ok (hR.ended h)

/-- Any token may be consumed if what follows it is not looked at. -/
theorem bumpAny : Agree Q s.bump t.bump := by
  by_cases hsemicolon : s.current = .semicolon
  · exact hR.bumpEnded h hsemicolon
  · exact (hR.bump h hsemicolon).mono fun _ _ => hR.ended

/-! ### Atoms -/

theorem string (hquote : s.current = .doubleQuote ∨ s.current = .singleQuote) :
    Agree R (Parse.string s) (Parse.string t) := by
  have hne : s.current ≠ .semicolon := by
    rintro hsemicolon
    rw [hsemicolon] at hquote
    obtain hquote | hquote := hquote
    · cases hquote
    · cases hquote
  unfold Parse.string
  rw [← hR.current h]
  have hopened : R (s.openNode .str) (t.openNode .str) := hR.openNode h (by decide)
  refine (hR.bump hopened (by rwa [current_openNode])).bind fun u v huv => ?_
  refine (hR.skipOne huv (by decide)).bind fun u v huv => ?_
  refine (agree_requireCurrent u v s.current).bind fun _ _ hcurrent => ?_
  refine (hR.bump huv ?_).bind fun u v huv => hR.closeNode huv
  rwa [hcurrent]

theorem nestedExpression (opener : String) {next : Goal} (hnext : next.isPlain = true) :
    Agree (StepRel (fun _ => R) []) (Parse.nestedExpression s opener next) (Parse.nestedExpression t opener next) := by
  have hplain : ∀ g ∈ [next], g.isPlain = true := List.forall_mem_singleton.mpr hnext
  refine .branch (hR.looksAtAny h .exprFirst) (fun hfirst => ?_) fun _ => ?_
  · exact .ok ⟨rfl, ⟨[.expression], [next], rfl, .inr ⟨rfl, hfirst⟩, hplain⟩, h⟩
  · exact agree_leaving (hR.report h rfl _) hplain

theorem group : Agree (StepRel (fun _ => R) []) (Parse.group s) (Parse.group t) :=
  (hR.openDelimiter (hR.openNode h (by decide)) (by decide)).bind fun _ _ h => hR.nestedExpression h "(" rfl

theorem endArguments : Agree R (Parse.endArguments s) (Parse.endArguments t) :=
  (hR.closeDelimiter h (by decide) _).bind fun _ _ h => (hR.closeNode h).bind fun _ _ h => hR.closeNode h

theorem call (hid : s.current = .id) : Agree (StepRel (fun _ => R) []) (Parse.call s) (Parse.call t) := by
  have hopened : R (s.openNode .call) (t.openNode .call) := hR.openNode h (by decide)
  refine (hR.bump hopened (by rw [current_openNode, hid]; decide)).bind fun _ _ h => ?_
  refine (hR.openDelimiter (hR.openTight h (by decide)) (by decide)).bind fun _ _ h => ?_
  exact .branch (hR.looksAt h .bracketClose) (fun _ => agree_done (hR.endArguments h))
    fun _ => hR.nestedExpression h "[" rfl

theorem atom (hfirst : s.looksAtAny .exprFirst = true) :
    Agree (StepRel (fun _ => R) []) (Parse.atom s) (Parse.atom t) := by
  unfold Parse.atom
  rw [← hR.current h]
  split
  · rename_i hid
    exact .branch (hR.isFollowedBy h hid .bracketOpen) (fun _ => hR.call h hid) fun _ => agree_done (hR.reference h hid)
  · rename_i hquote
    exact agree_done (hR.string h (.inl hquote))
  · rename_i hquote
    exact agree_done (hR.string h (.inr hquote))
  · rename_i hstring
    exact agree_done (hR.unterminatedString h hstring)
  · exact hR.group h
  · rename_i hid hdouble hsingle hstring hparen
    simp only [State.looksAtAny, KindSet.exprFirst, KindSet.contains, List.contains_eq_mem, List.mem_cons,
      List.not_mem_nil, or_false, decide_eq_true_eq] at hfirst
    obtain hkind | hkind | hkind | hkind | hkind := hfirst
    · exact absurd hkind hid
    · exact absurd hkind hdouble
    · exact absurd hkind hsingle
    · exact absurd hkind hstring
    · exact absurd hkind hparen

/-! ### Expressions -/

theorem operand (strength : Strength) (following : List Goal) (hfirst : s.looksAtAny .exprFirst = true) :
    Agree (StepRel (fun _ => R) following) (Parse.operand strength following s)
      (Parse.operand strength following t) := by
  have hmarked : (strength.upTo.foldl (fun s _ => s.mark) s).looksAtAny .exprFirst = true := by
    rw [State.looksAtAny, current_congr (ahead_marks strength.upTo s)]
    exact hfirst
  refine (hR.atom (hR.marks strength.upTo h) hmarked).bind fun p q hpq => .ok ⟨?_, ?_, hpq.states⟩
  · rw [hpq.goals_eq]
  · obtain ⟨first, plain, hgoals, hready, hall⟩ := hpq.leaves
    refine ⟨first, plain ++ strength.upTo.map .suffixOf, ?_, hready, ?_⟩
    · simp only [hgoals, List.append_nil, List.append_assoc]
    · refine List.forall_mem_append.mpr ⟨hall, fun g hg => ?_⟩
      obtain ⟨suffix, -, rfl⟩ := List.mem_map.mp hg
      rfl

theorem operandAfter (operator : String) (strength : Strength) {following : List Goal}
    (hplain : ∀ g ∈ following, g.isPlain = true) :
    Agree (StepRel (fun _ => R) []) (Parse.operandAfter operator strength following s)
      (Parse.operandAfter operator strength following t) := by
  refine .branch (hR.looksAtAny h .exprFirst) (fun hfirst => ?_) fun _ => agree_leaving (hR.report h rfl _) hplain
  exact (hR.operand h strength following hfirst).mono fun _ _ hpq => hpq.merge hplain

theorem bound : Agree R (Parse.bound s) (Parse.bound t) := by
  refine .branch (hR.looksAt h .number) (fun hnumber => ?_) fun _ => hR.report h rfl _
  have hcheck : Agree (fun u v => R u v ∧ u.rest = s.rest) (checkBound s) (checkBound t) := by
    unfold checkBound
    rw [← hR.currentText h]
    refine .ite Iff.rfl ?_ (.ok ⟨h, rfl⟩)
    intro u v hu hv
    exact ⟨hR.report h rfl _ u v hu hv, s.ensures_report _ _ u hu⟩
  refine hcheck.bind fun u v huv => hR.bump huv.1 ?_
  rw [current_of_rest huv.2, looksAt_iff.mp hnumber]
  decide

theorem bounds : Agree R (Parse.bounds s) (Parse.bounds t) := by
  refine (hR.openDelimiter (hR.wrap h (by decide)) (by decide)).bind fun _ _ h => (hR.bound h).bind fun _ _ h => ?_
  refine Agree.bind (R := R) ?_ fun _ _ h => hR.closeDelimiter h (by decide) _
  refine .branch (hR.looksAt h .comma) (fun hcomma => ?_) fun _ => .ok h
  exact (hR.bump h (ne_semicolon_of_looksAt hcomma (by decide))).bind fun _ _ h => hR.bound h

theorem weightValue (hangle : s.current ≠ .semicolon) : Agree R (Parse.weightValue s) (Parse.weightValue t) := by
  refine (hR.bump (hR.wrap h (by decide)) (by rwa [current_wrap])).bind fun _ _ h => ?_
  exact (hR.expect h (by decide) rfl _).bind fun _ _ h => hR.expect h (by decide) rfl _

theorem chainLink {node : Kind} (hnode : node ≠ .ref) (operator : String) (strength tighter : Strength)
    (hnot : s.current ≠ .semicolon) :
    Agree (StepRel (fun _ => R) []) (Parse.chainLink node operator strength tighter s)
      (Parse.chainLink node operator strength tighter t) := by
  refine (hR.bump (hR.wrap h hnode) (by rwa [current_wrap])).bind fun _ _ h => ?_
  exact hR.operandAfter h operator tighter (List.forall_mem_singleton.mpr rfl)

theorem suffixStep (strength : Strength) :
    Agree (StepRel (fun _ => R) []) (Parse.suffixStep strength s) (Parse.suffixStep strength t) := by
  have hnone : Agree (StepRel (fun _ => R) []) (done s.closeNode) (done t.closeNode) := agree_done (hR.closeNode h)
  cases strength with
  | closure =>
      refine .branch (hR.looksAtAny h .closures) (fun hmarker => agree_done ?_) fun _ => hnone
      have hnot := ne_semicolon_of_looksAtAny hmarker (by decide)
      exact (hR.bump (hR.wrap h (by decide)) (by rwa [current_wrap])).bind fun _ _ h => hR.closeNode h
  | repetition =>
      refine .branch (hR.looksAt h .braceOpen) (fun _ => agree_done ?_) fun _ => hnone
      exact (hR.bounds h).bind fun _ _ h => hR.closeNode h
  | weight =>
      refine .branch (hR.looksAt h .angleOpen) (fun hangle => agree_done ?_) fun _ => hnone
      exact (hR.weightValue h (ne_semicolon_of_looksAt hangle (by decide))).bind fun _ _ h => hR.closeNode h
  | output =>
      refine .branch (hR.looksAt h .colon) (fun hcolon => ?_) fun _ => hnone
      have hnot := ne_semicolon_of_looksAt hcolon (by decide)
      refine (hR.bump (hR.wrap h (by decide)) (by rwa [current_wrap])).bind fun _ _ h => ?_
      exact hR.operandAfter h ":" .weight (List.forall_mem_singleton.mpr rfl)
  | concat =>
      refine .branch (hR.atOperand h) (fun hoperand => ?_) fun _ => hnone
      have hfirst : s.looksAtAny .exprFirst = true := (Bool.and_eq_true_iff.mp hoperand).1
      refine (hR.operand (hR.wrap h (by decide)) .output [.suffixOf .concat] hfirst).mono fun _ _ hpq => ?_
      exact hpq.merge (List.forall_mem_singleton.mpr rfl)
  | diff =>
      refine .branch (hR.looksAt h .minus) (fun hminus => ?_) fun _ => hnone
      exact hR.chainLink h (by decide) "-" .diff .concat (ne_semicolon_of_looksAt hminus (by decide))
  | union =>
      refine .branch (hR.looksAt h .pipe) (fun hpipe => ?_) fun _ => hnone
      exact hR.chainLink h (by decide) "|" .union .diff (ne_semicolon_of_looksAt hpipe (by decide))
  | compose =>
      refine .branch (hR.looksAt h .atSign) (fun hat => ?_) fun _ => hnone
      exact hR.chainLink h (by decide) "@" .compose .union (ne_semicolon_of_looksAt hat (by decide))

theorem moreArguments : Agree (StepRel (fun _ => R) []) (Parse.moreArguments s) (Parse.moreArguments t) := by
  refine .branch (hR.looksAt h .comma) (fun hcomma => ?_) fun _ => agree_done (hR.endArguments h)
  refine (hR.bump h (ne_semicolon_of_looksAt hcomma (by decide))).bind fun _ _ h => ?_
  exact hR.nestedExpression h "," rfl

theorem endGroup : Agree R (Parse.endGroup s) (Parse.endGroup t) :=
  (hR.closeDelimiter h (by decide) _).bind fun _ _ h => hR.closeNode h

theorem endParameters : Agree R (Parse.endParameters s) (Parse.endParameters t) :=
  (hR.closeDelimiter h (by decide) _).bind fun _ _ h => hR.closeNode h

theorem parameters : Agree (StepRel (fun _ => R) []) (Parse.parameters s) (Parse.parameters t) := by
  refine (hR.expect h (by decide) rfl _).bind fun _ _ h => ?_
  refine .branch (hR.looksAt h .comma) (fun hcomma => ?_) fun _ => agree_done (hR.endParameters h)
  exact agree_leaving (hR.bump h (ne_semicolon_of_looksAt hcomma (by decide))) (List.forall_mem_singleton.mpr rfl)

omit h in
/-- Entering an expression, where no limit forbids it. -/
theorem expression (hdescend : R s.descend t.descend) (hs : s.limits.allowsDepth s.depth = true)
    (ht : t.limits.allowsDepth t.depth = true) (hfirst : s.looksAtAny .exprFirst = true) :
    Agree (StepRel (fun _ => R) [.leaveExpression]) (Parse.expression s) (Parse.expression t) := by
  rw [Parse.expression, Parse.expression, if_pos hs, if_pos ht]
  refine hR.operand hdescend .compose [.leaveExpression] ?_
  rw [State.looksAtAny, current_of_rest s.rest_descend]
  exact hfirst

/-! ### Statements -/

theorem statementBody (form : Form) :
    Agree (StepRel (fun _ => R) []) (Parse.statementBody form s) (Parse.statementBody form t) := by
  have hskip : ∀ g ∈ [Goal.skip, .endSkipped], g.isPlain = true := by decide
  have hend : ∀ g ∈ [Goal.endStatement form], g.isPlain = true := List.forall_mem_singleton.mpr rfl
  refine .branch (hR.looksAtAny h .exprFirst) (fun hfirst => ?_) fun _ => ?_
  · exact .ok ⟨rfl, ⟨[.expression], [.endStatement form], rfl, .inr ⟨rfl, hfirst⟩, hend⟩, h⟩
  · refine .branch (hR.atEnd_or_atBoundary h) (fun _ => ?_) fun _ => ?_
    · exact agree_leaving (hR.report h rfl _) hend
    · exact agree_leaving (hR.report (hR.openNode h (by decide)) rfl _) hskip

theorem endStatement (form : Form) :
    Agree (StepRel (OrEnded R Q [[]]) []) (Parse.endStatement form s) (Parse.endStatement form t) := by
  refine .branch (hR.atEnd_or_atBoundary h) (fun _ => agree_done ?_) fun _ => agree_leaving ?_ (by decide)
  · exact ((hR.endSemicolon h _).bind fun _ _ h => hR.closeEnded h).mono fun _ _ h => .inr ⟨List.mem_cons_self, h⟩
  · exact (hR.report (hR.openNode h (by decide)) rfl _).mono fun _ _ h => .inl h

omit h in
/-- A definition depends on nothing before its name. -/
theorem definition_of_name {P : State → State → Prop}
    (hskip : Agree P ((s.openNode .varDef).skipOne .kwExport) ((t.openNode .varDef).skipOne .kwExport))
    (hname : ∀ u v, P u v → Agree R (u.expect .id .expectedName "for definition")
      (v.expect .id .expectedName "for definition")) :
    Agree (StepRel (fun _ => R) []) (Parse.definition s) (Parse.definition t) := by
  refine hskip.bind fun u v huv => (hname u v huv).bind fun _ _ h => ?_
  exact (hR.expect h (by decide) rfl _).bind fun _ _ h => hR.statementBody h .definition

theorem definition : Agree (StepRel (fun _ => R) []) (Parse.definition s) (Parse.definition t) :=
  hR.definition_of_name (hR.skipOne (hR.openNode h (by decide)) (by decide)) fun _ _ h => hR.expect h (by decide) rfl _

/-- A keyword is consumed as the first token of its statement. -/
theorem keyword {kind k : Kind} (hkind : kind ≠ .ref) (hk : k ≠ .semicolon) (hcurrent : s.current = k) :
    Agree R (s.openNode kind).bump (t.openNode kind).bump := by
  refine hR.bump (hR.openNode h hkind) ?_
  rwa [current_openNode, hcurrent]

omit h in
/-- The other statements depend on nothing before their keyword. -/
theorem returnStatement_of_bump
    (hbump : s.current = .kwReturn → Agree R (s.openNode .returnStmt).bump (t.openNode .returnStmt).bump) :
    Agree (StepRel (fun _ => R) []) (Parse.returnStatement s) (Parse.returnStatement t) := by
  refine (agree_requireCurrent (s.openNode .returnStmt) (t.openNode .returnStmt) .kwReturn).bind fun _ _ hcurrent => ?_
  rw [current_openNode] at hcurrent
  exact (hbump hcurrent).bind fun _ _ h => hR.statementBody h .returned

theorem returnStatement : Agree (StepRel (fun _ => R) []) (Parse.returnStatement s) (Parse.returnStatement t) :=
  hR.returnStatement_of_bump (hR.keyword h (by decide) (by decide))

theorem importPath : Agree R (Parse.importPath s) (Parse.importPath t) := by
  unfold Parse.importPath
  rw [← hR.current h]
  split
  · rename_i hquote
    exact hR.string h (.inl hquote)
  · rename_i hquote
    exact hR.string h (.inr hquote)
  · rename_i hstring
    exact hR.unterminatedString h hstring
  · exact hR.report h rfl _

omit h in
theorem importStatement_of_bump
    (hbump : s.current = .kwImport → Agree R (s.openNode .importStmt).bump (t.openNode .importStmt).bump) :
    Agree Q (Parse.importStatement s) (Parse.importStatement t) := by
  refine (agree_requireCurrent (s.openNode .importStmt) (t.openNode .importStmt) .kwImport).bind fun _ _ hcurrent => ?_
  rw [current_openNode] at hcurrent
  refine (hbump hcurrent).bind fun _ _ h => ?_
  refine (hR.importPath h).bind fun _ _ h => (hR.expect h (by decide) rfl _).bind fun _ _ h => ?_
  refine (hR.expect h (by decide) rfl _).bind fun _ _ h => (hR.endSemicolon h _).bind fun _ _ h => ?_
  exact hR.closeEnded h

theorem importStatement : Agree Q (Parse.importStatement s) (Parse.importStatement t) :=
  hR.importStatement_of_bump (hR.keyword h (by decide) (by decide))

theorem openParameters : Agree R (Parse.openParameters s) (Parse.openParameters t) := by
  refine .branch (hR.looksAt h .id) (fun hid => ?_) fun _ => ?_
  · exact (hR.bump h (ne_semicolon_of_looksAt hid (by decide))).map fun _ _ h => hR.openTight h (by decide)
  · exact (hR.report h rfl _).map fun _ _ h => hR.openNode h (by decide)

omit h in
theorem functionStatement_of_bump
    (hbump : s.current = .kwFunc → Agree R (s.openNode .funcDef).bump (t.openNode .funcDef).bump) :
    Agree (StepRel (fun _ => R) []) (Parse.functionStatement s) (Parse.functionStatement t) := by
  have hbody : ∀ g ∈ [Goal.functionBody], g.isPlain = true := by decide
  have hlist : ∀ g ∈ [Goal.parameters, .functionBody], g.isPlain = true := by decide
  refine (agree_requireCurrent (s.openNode .funcDef) (t.openNode .funcDef) .kwFunc).bind fun _ _ hcurrent => ?_
  rw [current_openNode] at hcurrent
  refine (hbump hcurrent).bind fun _ _ h => ?_
  refine (hR.openParameters h).bind fun _ _ h => .branch (hR.looksAt h .bracketOpen) (fun _ => ?_) fun _ => ?_
  · refine (hR.openDelimiter h (by decide)).bind fun _ _ h => ?_
    refine .branch (hR.looksAt h .bracketClose) (fun _ => agree_leaving (hR.endParameters h) hbody) fun _ => ?_
    exact .ok ⟨rfl, leaves_of_plain hlist, h⟩
  · exact (hR.report h rfl _).bind fun _ _ h => agree_leaving (hR.closeNode h) hbody

theorem functionStatement :
    Agree (StepRel (fun _ => R) []) (Parse.functionStatement s) (Parse.functionStatement t) :=
  hR.functionStatement_of_bump (hR.keyword h (by decide) (by decide))

theorem functionBody : Agree (StepRel (fun _ => R) []) (Parse.functionBody s) (Parse.functionBody t) := by
  refine .branch (hR.looksAt h .braceOpen) (fun _ => ?_) fun _ => agree_done ?_
  · exact agree_leaving (hR.openDelimiter h (by decide)) (by decide)
  · exact (hR.report h rfl _).bind fun _ _ h => hR.closeNode h

theorem endBody : Agree R (Parse.endBody s) (Parse.endBody t) :=
  (hR.closeDelimiter h (by decide) _).bind fun _ _ h => hR.closeNode h

theorem recovery (message : String) :
    Agree (StepRel (OrEnded R Q [[], [.skip, .endRecovery]]) []) (Parse.recovery message s)
      (Parse.recovery message t) := by
  refine (hR.report (hR.openNode h (by decide)) rfl message).bind fun _ _ h => agree_leaving ?_ (by decide)
  exact (hR.bumpAny h).mono fun _ _ h => .inr ⟨by simp, h⟩

theorem statement :
    Agree (StepRel (OrEnded R Q [[], [.skip, .endRecovery]]) []) (Parse.statement s) (Parse.statement t) := by
  have hinside {p q : List Goal × State} (hpq : StepRel (fun _ => R) [] p q) :
      StepRel (OrEnded R Q [[], [.skip, .endRecovery]]) [] p q :=
    ⟨hpq.goals_eq, hpq.leaves, .inl hpq.states⟩
  unfold Parse.statement
  rw [← hR.current h]
  split
  · exact (hR.definition h).mono fun _ _ => hinside
  · exact (hR.definition h).mono fun _ _ => hinside
  · exact agree_done ((hR.importStatement h).mono fun _ _ h => .inr ⟨List.mem_cons_self, h⟩)
  · exact (hR.functionStatement h).mono fun _ _ => hinside
  · exact (hR.returnStatement h).mono fun _ _ => hinside
  · exact hR.recovery h _

theorem statements (inBody : Bool) (hstopped : s.isStopped = t.isStopped) :
    Agree (StepRel (OrEnded R Q (Goal.statements inBody).ended) []) (Parse.statements inBody s)
      (Parse.statements inBody t) := by
  unfold Parse.statements
  rw [← hstopped, ← hR.atEnd h, ← hR.current h]
  refine .ite Iff.rfl (.ok ⟨rfl, leaves_nil s, .inl h⟩) ?_
  refine Agree.map (R := StepRel (OrEnded R Q [[], [.skip, .endRecovery]]) []) ?_ fun p q hpq => ?_
  · exact .ite Iff.rfl (hR.recovery h _) (hR.statement h)
  · obtain ⟨first, plain, hgoals, hready, hall⟩ := hpq.leaves
    refine ⟨congrArg (· ++ [Goal.statements inBody]) hpq.goals_eq, ?_, ?_⟩
    · refine ⟨first, plain ++ [.statements inBody], ?_, hready, ?_⟩
      · simp only [hgoals, List.append_nil, List.append_assoc]
      · exact List.forall_mem_append.mpr ⟨hall, List.forall_mem_singleton.mpr rfl⟩
    · exact hpq.states.imp_right fun hended =>
        ⟨List.mem_map_of_mem (f := (· ++ [Goal.statements inBody])) hended.1, hended.2⟩

theorem skip (hstopped : s.isStopped = t.isStopped) :
    Agree (StepRel (fun _ => R) []) (Parse.skip s) (Parse.skip t) := by
  unfold Parse.skip
  rw [← hstopped, ← hR.atEnd h]
  refine .branch (by rw [hR.atBoundary h]) (fun _ => .ok ⟨rfl, leaves_nil s, h⟩) fun hgo => ?_
  refine agree_leaving (hR.bump h fun hsemicolon => ?_) (by decide)
  -- A `;` is a boundary.
  rw [State.atBoundary, hsemicolon, Bool.or_eq_false_iff] at hgo
  exact absurd hgo.2 Bool.noConfusion

theorem endRecovery : Agree Q (Parse.endRecovery s) (Parse.endRecovery t) :=
  (hR.skipSemicolon h).bind fun _ _ h => hR.closeEnded h

theorem endSkipped : Agree Q (Parse.endSkipped s) (Parse.endSkipped t) :=
  (hR.closeNode h).bind fun _ _ h => (hR.skipSemicolon h).bind fun _ _ h => hR.closeEnded h

/-! ### Steps -/

theorem act_inner {g : Goal} (hinner : g.isInner = true) (hplain : g.isPlain = true) :
    Agree (StepRel (fun _ => R) []) (act g s) (act g t) := by
  cases g with
  | parameters => exact hR.parameters h
  | suffixOf strength => exact hR.suffixStep h strength
  | endOutput => exact agree_done (hR.closeNode h)
  | arguments => exact hR.moreArguments h
  | endGroup => exact agree_done (hR.endGroup h)
  | expression => cases hplain
  | leaveExpression => cases hplain
  | _ => cases hinner

end Operations

end Simulation

/-- A step of a goal that neither enters nor leaves an expression. -/
theorem Simulation.act_plain {R Q : State → State → Prop} (hR : Simulation R Q) {s t : State} (h : R s t) {g : Goal}
    (hplain : g.isPlain = true) (hstopped : s.isStopped = t.isStopped) :
    Agree (StepRel (OrEnded R Q g.ended) []) (act g s) (act g t) := by
  have hinside {p q : List Goal × State} (hpq : StepRel (fun _ => R) [] p q) :
      StepRel (OrEnded R Q g.ended) [] p q :=
    ⟨hpq.goals_eq, hpq.leaves, .inl hpq.states⟩
  by_cases hinner : g.isInner = true
  · exact (hR.act_inner h hinner hplain).mono fun _ _ => hinside
  · cases g with
    | statements inBody => exact hR.statements h inBody hstopped
    | functionBody => exact (hR.functionBody h).mono fun _ _ => hinside
    | endBody => exact agree_done ((hR.endBody h).mono fun _ _ h => .inl h)
    | skip => exact (hR.skip h hstopped).mono fun _ _ => hinside
    | endRecovery => exact agree_done ((hR.endRecovery h).mono fun _ _ h => .inr ⟨List.mem_cons_self, h⟩)
    | endSkipped => exact agree_done ((hR.endSkipped h).mono fun _ _ h => .inr ⟨List.mem_cons_self, h⟩)
    | endStatement form => exact hR.endStatement h form
    | _ => exact absurd rfl hinner

/-! ### Runs -/

theorem run_cons_eq_ok {g : Goal} {goals : List Goal} {s t : State} (h : run (g :: goals) s = .ok t) :
    ∃ new u, act g s = .ok (new, u) ∧ run (new ++ goals) u = .ok t := by
  rw [run] at h
  split at h
  · cases h
  · rename_i new u hact
    exact ⟨new, u, hact, h⟩

/-- An expression comes first on the agenda or not at all, and the state is ready to enter it. -/
def Entering (goals : List Goal) (s : State) : Prop :=
  (goals.head? = some .expression → s.looksAtAny .exprFirst = true) ∧ ∀ g ∈ goals.tail, g ≠ .expression

theorem entering_start (s : State) : Entering [.statements false] s := ⟨fun h => (nomatch h), fun _ hg => (nomatch hg)⟩

theorem ne_expression_of_isPlain {g : Goal} (h : g.isPlain = true) : g ≠ .expression := by
  rintro rfl
  cases h

theorem Leaves.entering {following new goals : List Goal} {s : State} (h : Leaves following new s)
    (hfollowing : ∀ g ∈ following, g ≠ .expression) (hgoals : ∀ g ∈ goals, g ≠ .expression) :
    Entering (new ++ goals) s := by
  obtain ⟨first, plain, rfl, hfirst, hplain⟩ := h
  have hlater : ∀ g ∈ plain ++ following ++ goals, g ≠ .expression := by
    refine List.forall_mem_append.mpr ⟨List.forall_mem_append.mpr ⟨fun g hg => ?_, hfollowing⟩, hgoals⟩
    exact ne_expression_of_isPlain (hplain g hg)
  obtain rfl | ⟨rfl, hready⟩ := hfirst
  · refine ⟨fun hhead => ?_, fun g hg => hlater g (List.mem_of_mem_tail hg)⟩
    exact absurd rfl (hlater _ (List.mem_of_head? hhead))
  · exact ⟨fun _ => hready, fun g hg => hlater g (by simpa using hg)⟩

/-- A relation that whole steps preserve, up to what is left of it behind a `;`. -/
structure Bisimulation (R Q : State → State → Prop) : Prop extends Simulation R Q where
  isStopped {s t : State} (h : R s t) : s.isStopped = t.isStopped
  allowsDepth {s t : State} (h : R s t) : s.limits.allowsDepth s.depth = t.limits.allowsDepth t.depth
  descend {s t : State} (h : R s t) : R s.descend t.descend
  ascend {s t : State} (h : R s t) : R s.ascend t.ascend

namespace Bisimulation

variable {R Q : State → State → Prop} {s t : State}

/-- A step leaves the same goals over, and the states are related again. -/
theorem act (hR : Bisimulation R Q) (h : R s t) {g : Goal} {goals : List Goal} (hentering : Entering (g :: goals) s) :
    Agree (fun p q => p.1 = q.1 ∧ Entering (p.1 ++ goals) p.2 ∧ OrEnded R Q g.ended p.1 p.2 q.2) (act g s)
      (act g t) := by
  have hentered (following : List Goal) (hfollowing : ∀ g ∈ following, g ≠ .expression) {p q : List Goal × State}
      (hpq : StepRel (OrEnded R Q g.ended) following p q) :
      p.1 = q.1 ∧ Entering (p.1 ++ goals) p.2 ∧ OrEnded R Q g.ended p.1 p.2 q.2 :=
    ⟨hpq.goals_eq, hpq.leaves.entering hfollowing hentering.2, hpq.states⟩
  by_cases hplain : g.isPlain = true
  · exact (hR.act_plain h hplain (hR.isStopped h)).mono fun p q => hentered [] (by simp)
  · cases g with
    | expression =>
        by_cases hs : s.limits.allowsDepth s.depth = true
        · have ht : t.limits.allowsDepth t.depth = true := hR.allowsDepth h ▸ hs
          refine (hR.expression (hR.descend h) hs ht (hentering.1 rfl)).mono fun p q hpq => ?_
          exact hentered [.leaveExpression] (by decide) ⟨hpq.goals_eq, hpq.leaves, .inl hpq.states⟩
        · have ht : ¬ t.limits.allowsDepth t.depth = true := hR.allowsDepth h ▸ hs
          rw [Parse.act, Parse.act, Parse.expression, Parse.expression, if_neg hs, if_neg ht]
          refine (agree_done ?_).mono fun _ _ => hentered [] (by simp)
          exact (hR.closeNode (hR.openNode (hR.descend h) (by decide))).mono fun _ _ h => .inl h
    | leaveExpression =>
        refine .ok (hentered [] (by simp) ?_)
        exact ⟨rfl, leaves_nil _, .inl (hR.ascend h)⟩
    | _ => exact absurd rfl hplain

theorem run (hR : Bisimulation R R) (h : R s t) {goals : List Goal} (hentering : Entering goals s) :
    Agree R (run goals s) (run goals t) := by
  fun_induction Parse.run goals s generalizing t with
  | case1 s =>
      rw [Parse.run]
      exact .ok h
  | case2 g goals s fault hact =>
      intro s' t' hs
      cases hs
  | case3 g goals s new u hact ih =>
      intro s' t' hs ht
      obtain ⟨new', v, hact', hrest⟩ := run_cons_eq_ok ht
      obtain ⟨hgoals, hentering', hstates⟩ := hR.act h hentering (new, u) (new', v) hact hact'
      dsimp only at hgoals hentering' hstates
      rw [← hgoals] at hrest
      exact ih (hstates.elim id And.right) hentering' s' t' hs hrest

end Bisimulation

/-! ### Relations that do not look at positions -/

/-- A relation `R` that sees neither where tokens stand nor what an error says. The reports of two parses may then
differ in both. -/
structure Blind (R Q : State → State → Prop) : Prop where
  current {s t : State} (h : R s t) : s.current = t.current
  currentText {s t : State} (h : R s t) : s.currentText = t.currentText
  atEnd {s t : State} (h : R s t) : s.atEnd = t.atEnd
  isFollowedBy {s t : State} (h : R s t) (hid : s.current = .id) (k : Kind) : s.isFollowedBy k = t.isFollowedBy k
  delimiters {s t : State} (h : R s t) : s.delimiters.map Delimiter.kind = t.delimiters.map Delimiter.kind
  flush {s t : State} (h : R s t) : R s.flush t.flush
  openTight {s t : State} (h : R s t) (kind : Option Kind) : R (s.openTight kind) (t.openTight kind)
  wrap {s t : State} (h : R s t) (kind : Kind) : R (s.wrap kind) (t.wrap kind)
  withDelimiters {s t : State} (h : R s t) {ds ds' : List Delimiter}
    (hkinds : ds.map Delimiter.kind = ds'.map Delimiter.kind) :
    R { s with delimiters := ds } { t with delimiters := ds' }
  closeNode {s t : State} (h : R s t) : Agree R s.closeNode t.closeNode
  bump {s t : State} (h : R s t) (hnot : s.current ≠ .semicolon) : Agree R s.bump t.bump
  claim {s t : State} (h : R s t) {position position' : Nat} {report report' : Except Fault Diagnostic}
    (hreport : Ensures report fun d => d.isError = true) (hreport' : Ensures report' fun d => d.isError = true) :
    Agree R (s.claim position report) (t.claim position' report')
  ended {s t : State} (h : R s t) : Q s t
  bumpEnded {s t : State} (h : R s t) (hsemicolon : s.current = .semicolon) : Agree Q s.bump t.bump
  closeEnded {s t : State} (h : Q s t) : Agree Q s.closeNode t.closeNode

namespace Blind

variable {R Q : State → State → Prop} {s t : State} (hR : Blind R Q) (h : R s t)
include hR h

theorem report {issue : Issue} (hissue : issue.severity = .error) (detail : String) :
    Agree R (s.report issue detail) (t.report issue detail) := by
  unfold State.report
  apply hR.claim h
  all_goals
    refine .after fun span => .ok ?_
    exact beq_iff_eq.mpr hissue

theorem reportUnclosed (d d' : Delimiter) (closer : Kind) (construct : String) :
    Agree R (s.reportUnclosed d closer construct) (t.reportUnclosed d' closer construct) := by
  have hissue : (unclosed closer).1.severity = .error := by
    unfold unclosed
    split <;> rfl
  unfold State.reportUnclosed
  apply hR.claim h
  all_goals
    refine .after fun span => .ok ?_
    exact beq_iff_eq.mpr hissue

theorem bumpIf {k : Kind} (hk : k ≠ .semicolon) {r r' : Except Fault State} (hother : Agree R r r') :
    Agree R (if s.looksAt k then s.bump else r) (if t.looksAt k then t.bump else r') := by
  refine .branch (congrArg (· == k) (hR.current h)) (fun hlooks => hR.bump h fun hcurrent => ?_) fun _ => hother
  exact hk ((beq_iff_eq.mp hlooks).symm.trans hcurrent)

theorem openDelimiter {k : Kind} (hk : k ≠ .semicolon) : Agree R (s.openDelimiter k) (t.openDelimiter k) := by
  refine (agree_requireCurrent s t k).bind fun _ _ hcurrent => ?_
  refine hR.bump (hR.withDelimiters h (congrArg (k :: ·) (hR.delimiters h))) fun hsemicolon => hk ?_
  exact hcurrent.symm.trans hsemicolon

theorem closeDelimiter {closer : Kind} (hcloser : closer ≠ .semicolon) (construct : String) :
    Agree R (s.closeDelimiter closer construct) (t.closeDelimiter closer construct) := by
  have hkinds := hR.delimiters h
  unfold State.closeDelimiter
  cases hs : s.delimiters with
  | nil =>
      rw [hs] at hkinds
      rw [List.map_eq_nil_iff.mp hkinds.symm]
      exact hR.bumpIf h hcloser (.ok h)
  | cons d ds =>
      rw [hs] at hkinds
      obtain ⟨d', ds', ht, hkind, hkinds⟩ := List.map_eq_cons_iff.mp hkinds.symm
      rw [ht]
      have hforgot := hR.withDelimiters h hkinds.symm
      dsimp only
      rw [hkind]
      refine .ite Iff.rfl (hR.bumpIf hforgot hcloser ?_) (fun _ _ hfault => nomatch hfault)
      exact hR.reportUnclosed hforgot d d' closer construct

theorem leafNode (hnot : s.current ≠ .semicolon) (kind : Kind) :
    Agree R (do (← (s.openNode kind).bump).closeNode) (do (← (t.openNode kind).bump).closeNode) := by
  have hopened : R (s.openNode kind) (t.openNode kind) := hR.openTight (hR.flush h) (some kind)
  exact (hR.bump hopened (by rwa [current_openNode])).bind fun _ _ h => hR.closeNode h

theorem unterminatedString (hcurrent : s.current = .unterminatedStr) :
    Agree R s.unterminatedString t.unterminatedString := by
  have hsame (position : Nat) (report : Except Fault Diagnostic) :
      Ensures (s.claim position report) fun u => u.current = .unterminatedStr := by
    intro u hu
    obtain ⟨rfl, -⟩ | ⟨d, -, -, rfl⟩ := claim_eq_ok hu
    · exact hcurrent
    · exact hcurrent
  unfold State.unterminatedString
  refine ((hR.claim h ?_ ?_).and_ensures (hsame _ _)).bind fun u v huv =>
    hR.leafNode huv.1 (by rw [huv.2]; decide) .error
  all_goals
    refine .after fun span => .ok ?_
    rfl

theorem expectSemicolon (hnot : s.current ≠ .semicolon) (detail : String) :
    Agree R (s.expectSemicolon detail) (t.expectSemicolon detail) := by
  refine .branch (congrArg (· == .semicolon) (hR.current h)) (fun _ => hR.bump h hnot) fun _ => ?_
  exact hR.claim h (.ok rfl) (.ok rfl)

end Blind

theorem Blind.simulation {R Q : State → State → Prop} (hR : Blind R Q) : Simulation R Q where
  current := hR.current
  currentText := hR.currentText
  atEnd := hR.atEnd
  isFollowedBy := hR.isFollowedBy
  flush := hR.flush
  openTight h kind _ := hR.openTight h kind
  wrap h kind _ := hR.wrap h kind
  closeNode := hR.closeNode
  bump := hR.bump
  reference h hid := hR.leafNode h (by rw [hid]; decide) .ref
  unterminatedString := hR.unterminatedString
  report h _ hissue := hR.report h (Issue.severity_of_isSyntactic (Issue.isSyntactic_of_isAtNext hissue))
  openDelimiter h _ := hR.openDelimiter h
  closeDelimiter h _ := hR.closeDelimiter h
  expectSemicolon h hnot detail := (hR.expectSemicolon h hnot detail).mono fun _ _ => hR.ended
  ended := hR.ended
  bumpEnded := hR.bumpEnded
  closeEnded := hR.closeEnded

/-! ### Invariants -/

/-- What the operations of a single parse preserve. -/
structure Preserved (p : State → Prop) : Prop where
  flush {s : State} (h : p s) : p s.flush
  openTight {s : State} (h : p s) {kind : Option Kind} (hkind : kind ≠ some .ref) : p (s.openTight kind)
  wrap {s : State} (h : p s) {kind : Kind} (hkind : kind ≠ .ref) : p (s.wrap kind)
  closeNode {s : State} (h : p s) : Ensures s.closeNode p
  bump {s : State} (h : p s) : Ensures s.bump p
  reference {s : State} (h : p s) (hid : s.current = .id) : Ensures (reference s) p
  claim {s : State} (h : p s) (position : Nat) (report : Except Fault Diagnostic) : Ensures (s.claim position report) p
  withDelimiters {s : State} (h : p s) (delimiters : List Delimiter) : p { s with delimiters }

namespace Preserved

variable {p : State → Prop} {s : State}

theorem agree {r : Except Fault State} (h : Ensures r p) : Agree (fun s t => s = t ∧ p s) r r := by
  intro s t hs ht
  rw [hs] at ht
  exact ⟨Except.ok.inj ht, h s hs⟩

theorem openDelimiter (hp : Preserved p) (h : p s) (k : Kind) : Ensures (s.openDelimiter k) p :=
  .after fun _ => hp.bump (hp.withDelimiters h _)

theorem closeDelimiter (hp : Preserved p) (h : p s) (closer : Kind) (construct : String) :
    Ensures (s.closeDelimiter closer construct) p := by
  unfold State.closeDelimiter State.skipOne
  split
  · split
    · exact hp.bump h
    · exact .ok h
  · rename_i d ds _
    have hforgot : p { s with delimiters := ds } := hp.withDelimiters h ds
    dsimp only
    split
    · split
      · exact hp.bump hforgot
      · exact hp.claim hforgot _ _
    · exact .error

theorem unterminatedString (hp : Preserved p) (h : p s) : Ensures s.unterminatedString p := by
  refine (hp.claim h _ _).bind fun t ht => ?_
  have hopened : p (t.openNode .error) := hp.openTight (hp.flush ht) (by decide)
  exact (hp.bump hopened).bind fun u hu => hp.closeNode hu

theorem expectSemicolon (hp : Preserved p) (h : p s) (detail : String) : Ensures (s.expectSemicolon detail) p := by
  unfold State.expectSemicolon
  split
  · exact hp.bump h
  · exact hp.claim h _ _

theorem simulation (hp : Preserved p) : Simulation (fun s t => s = t ∧ p s) (fun s t => s = t ∧ p s) where
  current := fun ⟨heq, _⟩ => congrArg State.current heq
  currentText := fun ⟨heq, _⟩ => congrArg State.currentText heq
  atEnd := fun ⟨heq, _⟩ => congrArg State.atEnd heq
  isFollowedBy := fun ⟨heq, _⟩ _ k => congrArg (State.isFollowedBy · k) heq
  flush := fun ⟨heq, h⟩ => ⟨congrArg State.flush heq, hp.flush h⟩
  openTight := fun ⟨heq, h⟩ kind hkind => ⟨congrArg (State.openTight · kind) heq, hp.openTight h hkind⟩
  wrap := fun ⟨heq, h⟩ kind hkind => ⟨congrArg (State.wrap · kind) heq, hp.wrap h hkind⟩
  closeNode := fun ⟨heq, h⟩ => heq ▸ agree (hp.closeNode h)
  bump := fun ⟨heq, h⟩ _ => heq ▸ agree (hp.bump h)
  reference := fun ⟨heq, h⟩ hid => heq ▸ agree (hp.reference h hid)
  unterminatedString := fun ⟨heq, h⟩ _ => heq ▸ agree (hp.unterminatedString h)
  report := fun ⟨heq, h⟩ _ _ _ => heq ▸ agree (hp.claim h _ _)
  openDelimiter := fun ⟨heq, h⟩ k _ => heq ▸ agree (hp.openDelimiter h k)
  closeDelimiter := fun ⟨heq, h⟩ closer _ construct => heq ▸ agree (hp.closeDelimiter h closer construct)
  expectSemicolon := fun ⟨heq, h⟩ _ detail => heq ▸ agree (hp.expectSemicolon h detail)
  ended h := h
  bumpEnded := fun ⟨heq, h⟩ _ => heq ▸ agree (hp.bump h)
  closeEnded := fun ⟨heq, h⟩ => heq ▸ agree (hp.closeNode h)

end Preserved

end Transducer.Parse
