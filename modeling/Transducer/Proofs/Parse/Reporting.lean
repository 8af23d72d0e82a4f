import Transducer.Proofs.Parse.Simulation
import Transducer.Proofs.Parse.Totality

/-!
# What a parse reports

All errors of a parse are claimed in one of two ways. Either they are claimed at the next token, and then they are about
that token or reach from an open delimiter to it; or a `;` is missing, which is claimed right behind the token before.
A condition on what has been reported is therefore an invariant of a parse if tokens, delimiters and these two kinds of
claims preserve it. What a missing `;` leads to may be weaker, because a statement ends with it.
-/

namespace Transducer.Parse

open State

namespace State

/-- Where a missing `;` is reported: behind the token before the next one. -/
def gap (s : State) : Nat := s.lastEnd.getD s.currentSpan.start

/-- What a state knows of positions and reports, which the tree and the limits have no part in. -/
structure Record where
  rest : List Token
  offset : Nat
  length : Nat
  lastEnd : Option Nat
  diagnostics : List Diagnostic
  claimed : Option Nat
  delimiters : List Delimiter

def record (s : State) : Record :=
  ⟨s.rest, s.offset, s.length, s.lastEnd, s.diagnostics, s.claimed, s.delimiters⟩

theorem record_closeNode {s t : State} (h : s.closeNode = .ok t) : t.record = s.record := by
  obtain ⟨frame, below, -, rfl⟩ := closeNode_eq_ok h
  rfl

theorem record_descend (s : State) : s.descend.record = s.record := by
  obtain ⟨depth, hdescend⟩ := s.descend_eq
  rw [hdescend]
  rfl

/-- An error that is claimed at the next token. It is about the token or reaches from an open delimiter to it, and what
it may have caused lies there or between one of these places and the end of the source. -/
structure ClaimsNext (s : State) (d : Diagnostic) : Prop where
  issue : d.issue.isAtNext = true
  span : d.span = s.currentSpan ∨
    d.issue.isStructural = true ∧ ∃ opener ∈ s.delimiters, Span.checked opener.span.start s.currentSpan.stop = .ok d.span
  cascade : d.cascade = d.span ∨
    ∃ start, (start = s.currentSpan.start ∨ ∃ opener ∈ s.delimiters, start = opener.span.start) ∧
      Span.checked start s.length = .ok d.cascade
  related : ∀ r ∈ d.related, ∃ opener ∈ s.delimiters, r.span = opener.span

/-- A missing `;` in the gap in front of the next token. -/
structure ClaimsGap (s : State) (d : Diagnostic) : Prop where
  issue : d.issue = .expectedSemicolon
  span : d.span = .point s.gap
  cascade : d.cascade = .point s.gap
  related : d.related = []

variable {s : State}

theorem claimsNext_report {issue : Issue} (hissue : issue.isAtNext = true) (detail : String) :
    Ensures (do return { Diagnostic.withDetail issue s.currentSpan detail with cascade := ← s.cascade })
      s.ClaimsNext := by
  intro d hd
  obtain ⟨cascade, hcascade, heq⟩ := bind_eq_ok hd
  cases heq
  refine ⟨hissue, .inl rfl, ?_, fun _ hr => nomatch hr⟩
  unfold State.cascade at hcascade
  split at hcascade
  · rename_i opener openers hopeners
    exact .inr ⟨opener.span.start, .inr ⟨opener, by rw [hopeners]; exact List.mem_cons_self, rfl⟩, hcascade⟩
  · cases hcascade
    exact .inl rfl

theorem isStructural_unclosed (closer : Kind) : (unclosed closer).1.isStructural = true := by
  unfold unclosed
  split <;> rfl

theorem claimsNext_unclosed {opener : Delimiter} (hopener : opener ∈ s.delimiters) (closer : Kind) (construct : String) :
    Ensures (do
      let span ← Span.checked opener.span.start s.currentSpan.stop
      let (issue, written) := unclosed closer
      return { Diagnostic.withDetail issue span s!"expected {written}" with
        related := [⟨s!"{construct} started here", opener.span⟩] }) s.ClaimsNext := by
  have hissue : (unclosed closer).1.isAtNext = true := by
    unfold unclosed
    split <;> rfl
  intro d hd
  obtain ⟨span, hspan, heq⟩ := bind_eq_ok hd
  cases heq
  refine ⟨hissue, .inr ⟨isStructural_unclosed closer, opener, hopener, hspan⟩, .inl rfl, fun r hr => ?_⟩
  rw [List.mem_singleton.mp hr]
  exact ⟨opener, hopener, rfl⟩

theorem claimsNext_unterminated (fix : Option Fix) :
    Ensures (do return { Diagnostic.ofIssue .unterminatedString s.currentSpan with
      fix := fix
      cascade := ← Span.checked s.currentSpan.start s.length }) s.ClaimsNext := by
  intro d hd
  obtain ⟨cascade, hcascade, heq⟩ := bind_eq_ok hd
  cases heq
  exact ⟨rfl, .inl rfl, .inr ⟨_, .inl rfl, hcascade⟩, fun _ hr => nomatch hr⟩

end State

/-- A condition `p` that the operations of a parse preserve, up to `q` where a `;` is missing. -/
structure Watched (p q : State → Prop) : Prop where
  congr {s t : State} (h : p s) (heq : t.record = s.record) : p t
  congrEnded {s t : State} (h : q s) (heq : t.record = s.record) : q t
  ended {s : State} (h : p s) : q s
  flush {s : State} (h : p s) : p s.flush
  bump {s : State} (h : p s) : Ensures s.bump p
  remember {s : State} (h : p s) (k : Kind) : p { s with delimiters := ⟨k, s.currentSpan⟩ :: s.delimiters }
  forget {s : State} (h : p s) {ds : List Delimiter} (hds : ds <:+ s.delimiters) : p { s with delimiters := ds }
  /-- Delimiters may be forgotten before an error is claimed. -/
  claimNext {s : State} (h : p s) {ds : List Delimiter} (hds : ds <:+ s.delimiters) {r : Except Fault Diagnostic}
    (hr : Ensures r s.ClaimsNext) : Ensures ({ s with delimiters := ds }.claim s.currentSpan.start r) p
  claimGap {s : State} (h : p s) {d : Diagnostic} (hd : s.ClaimsGap d) : Ensures (s.claim s.gap (.ok d)) q

namespace Watched

variable {p q : State → Prop} {s : State} (hp : Watched p q) (h : p s)
include hp h

theorem openTight (kind : Option Kind) : p (s.openTight kind) := hp.congr h rfl

theorem openNode (kind : Kind) : p (s.openNode kind) := hp.openTight (hp.flush h) (some kind)

theorem closeNode : Ensures s.closeNode p := fun _ ht => hp.congr h (record_closeNode ht)

theorem leafNode (kind : Kind) : Ensures (do (← (s.openNode kind).bump).closeNode) p :=
  (hp.bump (hp.openNode h kind)).bind fun _ ht => hp.closeNode ht

/-- Errors at the next token, with all delimiters still open. -/
theorem claim {r : Except Fault Diagnostic} (hr : Ensures r s.ClaimsNext) : Ensures (s.claim s.currentSpan.start r) p :=
  hp.claimNext h List.suffix_rfl hr

theorem report {issue : Issue} (hissue : issue.isAtNext = true) (detail : String) :
    Ensures (s.report issue detail) p :=
  hp.claim h (claimsNext_report hissue detail)

theorem unterminatedString : Ensures s.unterminatedString p :=
  (hp.claim h (claimsNext_unterminated _)).bind fun _ ht => hp.leafNode ht .error

theorem openDelimiter (k : Kind) : Ensures (s.openDelimiter k) p := .after fun _ => hp.bump (hp.remember h k)

theorem closeDelimiter (closer : Kind) (construct : String) : Ensures (s.closeDelimiter closer construct) p := by
  unfold State.closeDelimiter State.skipOne
  split
  · split
    · exact hp.bump h
    · exact .ok h
  · rename_i opener openers hopeners
    have hsuffix : openers <:+ s.delimiters := by
      rw [hopeners]
      exact List.suffix_cons _ _
    have hopener : opener ∈ s.delimiters := by
      rw [hopeners]
      exact List.mem_cons_self
    dsimp only
    split
    · split
      · exact hp.bump (hp.forget h hsuffix)
      · exact hp.claimNext h hsuffix (claimsNext_unclosed hopener closer construct)
    · exact .error

theorem expectSemicolon (hnot : s.current ≠ .semicolon) (detail : String) : Ensures (s.expectSemicolon detail) q := by
  have hlooks : ¬ s.looksAt .semicolon = true := fun hlooks => hnot (looksAt_iff.mp hlooks)
  rw [State.expectSemicolon, if_neg hlooks]
  exact hp.claimGap h ⟨rfl, rfl, rfl, rfl⟩

omit h in
theorem bisimulation : Bisimulation (fun s t => s = t ∧ p s) (fun s t => s = t ∧ q s) where
  current := fun ⟨heq, _⟩ => congrArg State.current heq
  currentText := fun ⟨heq, _⟩ => congrArg State.currentText heq
  atEnd := fun ⟨heq, _⟩ => congrArg State.atEnd heq
  isFollowedBy := fun ⟨heq, _⟩ _ k => congrArg (State.isFollowedBy · k) heq
  flush := fun ⟨heq, h⟩ => ⟨congrArg State.flush heq, hp.flush h⟩
  openTight := fun ⟨heq, h⟩ kind _ => ⟨congrArg (State.openTight · kind) heq, hp.openTight h kind⟩
  wrap := fun ⟨heq, h⟩ kind _ => ⟨congrArg (State.wrap · kind) heq, hp.congr h rfl⟩
  closeNode := fun ⟨heq, h⟩ => heq ▸ Preserved.agree (hp.closeNode h)
  bump := fun ⟨heq, h⟩ _ => heq ▸ Preserved.agree (hp.bump h)
  reference := fun ⟨heq, h⟩ _ => heq ▸ Preserved.agree (hp.leafNode h .ref)
  unterminatedString := fun ⟨heq, h⟩ _ => heq ▸ Preserved.agree (hp.unterminatedString h)
  report := fun ⟨heq, h⟩ _ hissue detail => heq ▸ Preserved.agree (hp.report h hissue detail)
  openDelimiter := fun ⟨heq, h⟩ k _ => heq ▸ Preserved.agree (hp.openDelimiter h k)
  closeDelimiter := fun ⟨heq, h⟩ closer _ construct => heq ▸ Preserved.agree (hp.closeDelimiter h closer construct)
  expectSemicolon := fun ⟨heq, h⟩ hnot detail => heq ▸ Preserved.agree (hp.expectSemicolon h hnot detail)
  ended := fun ⟨heq, h⟩ => ⟨heq, hp.ended h⟩
  bumpEnded := fun ⟨heq, h⟩ _ => heq ▸ Preserved.agree ((hp.bump h).mono fun _ => hp.ended)
  closeEnded := fun ⟨heq, h⟩ => heq ▸ Preserved.agree fun _ ht => hp.congrEnded h (record_closeNode ht)
  isStopped := fun ⟨heq, _⟩ => congrArg State.isStopped heq
  allowsDepth := fun ⟨heq, _⟩ => congrArg (fun s : State => s.limits.allowsDepth s.depth) heq
  descend := fun {s _} ⟨heq, h⟩ => ⟨congrArg State.descend heq, hp.congr h s.record_descend⟩
  ascend := fun ⟨heq, h⟩ => ⟨congrArg State.ascend heq, hp.congr h rfl⟩

end Watched

theorem watched_true : Watched (fun _ => True) (fun _ => True) where
  congr _ _ := trivial
  congrEnded _ _ := trivial
  ended _ := trivial
  flush _ := trivial
  bump _ _ _ := trivial
  remember _ _ := trivial
  forget _ _ _ := trivial
  claimNext _ _ _ _ _ _ _ := trivial
  claimGap _ _ _ _ _ := trivial

/-- At every step the state is ready to enter the expression that comes first on the agenda. -/
theorem Entering.act {g : Goal} {goals : List Goal} {s : State} (h : Entering (g :: goals) s) :
    Ensures (Parse.act g s) fun a => Entering (a.1 ++ goals) a.2 :=
  fun a ha => (watched_true.bisimulation.act ⟨rfl, trivial⟩ h a a ha ha).2.1

/-- The errors of a parse are those of the state that its agenda ends in. -/
theorem run_of_parse {limits : Limits} {source : String} {p : Parsed} (h : parse limits source = .ok p) :
    ∃ s, run [.statements false] (.start limits (lex source)) = .ok s ∧ p.diagnostics = s.diagnostics.reverse := by
  obtain ⟨s, hrun, -, -, ⟨e, -, herror⟩ | ⟨-, -, hok⟩⟩ := ofTokens_eq limits (paired_lex source)
  · rw [parse, herror] at h
    cases h
  · rw [parse, hok] at h
    cases h
    exact ⟨s, hrun, rfl⟩

end Transducer.Parse
