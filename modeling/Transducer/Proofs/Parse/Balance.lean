import Transducer.Proofs.Parse.Moves
import Transducer.Proofs.Returns
import Transducer.Proofs.Token.Lexed

/-!
# Operations that never fault

`Fits` says how a state stands between two steps: how many frames lie below the top one, which delimiters wait for
their partner, and, where it matters, that the next quote ahead opens a string. Every operation of the parser is
shown to return when its frames and delimiters are there, and to leave as many as it should.

The condition on quotes is a parameter. While tokens are being skipped the parser may stand inside a string, so
what is done then must not depend on it.
-/

namespace Transducer

theorem Span.checked_of_le {start stop : Nat} (h : start ≤ stop) : Span.checked start stop = .ok ⟨start, stop⟩ :=
  if_pos h

/-! ### Quotes ahead -/

theorem Paired.of_cons {t : Token} {ts : List Token} (h : Paired (t :: ts)) (ht : t.kind.isStringPart = false) :
    Paired ts := by
  cases h with
  | plain _ hts => exact hts
  | empty hq =>
      rw [Kind.isStringPart, hq] at ht
      cases ht
  | full hq =>
      rw [Kind.isStringPart, hq] at ht
      cases ht

theorem Token.not_isStringPart_of_isTrivia {t : Token} (h : t.isTrivia = true) : t.kind.isStringPart = false := by
  unfold Token.isTrivia at h
  revert h
  cases t.kind <;> decide

theorem Paired.dropTrivia {ts : List Token} (h : Paired ts) : Paired (ts.dropWhile Token.isTrivia) := by
  induction ts with
  | nil => exact h
  | cons t ts ih =>
      by_cases ht : t.isTrivia = true
      · rw [List.dropWhile_cons_of_pos ht]
        exact ih (h.of_cons (Token.not_isStringPart_of_isTrivia ht))
      · rw [List.dropWhile_cons_of_neg ht]
        exact h

namespace Parse

open State

/-! ### The next token -/

namespace State

variable {s : State}

theorem current_of_ahead {t : Token} {ts : List Token} (h : s.ahead = t :: ts) : s.current = t.kind := by
  rw [current, h]

theorem current_of_rest {t : State} (h : t.rest = s.rest) : t.current = s.current :=
  current_congr (congrArg (List.dropWhile Token.isTrivia) h)

theorem looksAt_iff {k : Kind} : s.looksAt k = true ↔ s.current = k := beq_iff_eq

theorem requireCurrent_returns {k : Kind} (h : s.current = k) : Returns (s.requireCurrent k) fun _ => True :=
  ⟨(), if_pos h, trivial⟩

theorem atEnd_eq_false_of_current {k : Kind} (h : s.current = k) (hk : k ≠ .error) : s.atEnd = false := by
  unfold atEnd
  cases hahead : s.ahead with
  | nil =>
      rw [current, hahead] at h
      exact absurd h.symm hk
  | cons t ts => rfl

theorem exists_ahead_of_not_atEnd (h : s.atEnd = false) : ∃ t ts, s.ahead = t :: ts := by
  cases hahead : s.ahead with
  | nil =>
      rw [atEnd, hahead] at h
      cases h
  | cons t ts => exact ⟨t, ts, rfl⟩

@[simp] theorem current_openNode (s : State) (k : Kind) : (s.openNode k).current = s.current :=
  current_congr (dropTrivia_dropTrivia s.rest)

@[simp] theorem atEnd_openNode (s : State) (k : Kind) : (s.openNode k).atEnd = s.atEnd :=
  congrArg List.isEmpty (dropTrivia_dropTrivia s.rest)

@[simp] theorem current_wrap (s : State) (k : Kind) : (s.wrap k).current = s.current := rfl

end State

/-! ### Standing in a parse -/

/-- The state is reached from `origin`, has `height` frames below its top one and `opened` delimiters, innermost
first; if `p` holds, the next quote ahead opens a string. -/
structure Fits (origin : State) (p : Prop) (height : Nat) (opened : List Kind) (s : State) : Prop where
  reached : Reaches origin s
  placed : s.Placed
  height_eq : s.below.length = height
  opened_eq : s.delimiters.map (·.kind) = opened
  paired : p → Paired s.rest

namespace Fits

variable {origin s t : State} {p q : Prop} {n m : Nat} {ks ls : List Kind}

theorem move (hs : Fits origin p n ks s) (hmove : Move s t) (hheight : t.below.length = m)
    (hopened : t.delimiters.map (·.kind) = ls) (hpaired : p → Paired t.rest) : Fits origin p m ls t :=
  ⟨hs.reached.move hmove, hmove.placed hs.placed, hheight, hopened, hpaired⟩

/-- Where the next quote opens a string, the condition on quotes may be strengthened. -/
theorem pair (hs : Fits origin q n ks s) (hpaired : Paired s.rest) : Fits origin p n ks s :=
  ⟨hs.reached, hs.placed, hs.height_eq, hs.opened_eq, fun _ => hpaired⟩

theorem weaken (hs : Fits origin p n ks s) (himp : q → p) : Fits origin q n ks s :=
  ⟨hs.reached, hs.placed, hs.height_eq, hs.opened_eq, fun hq => hs.paired (himp hq)⟩

theorem cast (hs : Fits origin p n ks s) (hn : n = m) (hk : ks = ls) : Fits origin p m ls s := by
  subst hn hk
  exact hs

theorem flush (hs : Fits origin p n ks s) : Fits origin p n ks s.flush :=
  hs.move .flushed hs.height_eq hs.opened_eq fun hp => (hs.paired hp).dropTrivia

theorem openTight (hs : Fits origin p n ks s) (k : Option Kind) : Fits origin p (n + 1) ks (s.openTight k) :=
  hs.move (.opened k) (congrArg (· + 1) hs.height_eq) hs.opened_eq hs.paired

theorem openNode (hs : Fits origin p n ks s) (k : Kind) : Fits origin p (n + 1) ks (s.openNode k) :=
  hs.flush.openTight (some k)

theorem marks (hs : Fits origin p n ks s) (strengths : List Strength) :
    Fits origin p (n + strengths.length) ks (strengths.foldl (fun s _ => s.mark) s) := by
  induction strengths generalizing s n with
  | nil => exact hs
  | cons strength strengths ih =>
      rw [List.length_cons, Nat.add_comm strengths.length 1, ← Nat.add_assoc]
      exact ih (hs.flush.openTight none)

theorem wrap (hs : Fits origin p (n + 1) ks s) (k : Kind) : Fits origin p (n + 1) ks (s.wrap k) := by
  refine hs.move (.wrapped k fun hnil => ?_) hs.height_eq hs.opened_eq hs.paired
  have hheight := hs.height_eq
  rw [hnil] at hheight
  cases hheight

theorem descend (hs : Fits origin p n ks s) : Fits origin p n ks s.descend := by
  obtain ⟨depth, hdescend⟩ := s.descend_eq
  have hmove : Move s s.descend := .descended
  rw [hdescend] at hmove ⊢
  exact hs.move hmove hs.height_eq hs.opened_eq hs.paired

theorem ascend (hs : Fits origin p n ks s) : Fits origin p n ks s.ascend :=
  hs.move .ascended hs.height_eq hs.opened_eq hs.paired

/-! ### Operations on the state -/

theorem bump_rest (hs : Fits origin p n ks s) (hend : s.atEnd = false) (hpart : p → s.current.isStringPart = false) :
    Returns s.bump fun t => Fits origin p n ks t ∧ t.rest = s.ahead.tail := by
  obtain ⟨token, ts, hahead⟩ := exists_ahead_of_not_atEnd hend
  have hreturns : ∃ t, s.bump = .ok t := by
    unfold State.bump
    rw [hahead]
    exact ⟨_, rfl⟩
  obtain ⟨t, hbump⟩ := hreturns
  have hmove : Move s t := .bumped hbump
  refine ⟨t, hbump, ?_⟩
  obtain ⟨token', ts', hahead', rfl⟩ := bump_eq_ok hbump
  refine ⟨hs.move hmove hs.height_eq hs.opened_eq fun hp => ?_, by rw [hahead']; rfl⟩
  have hpaired : Paired (token' :: ts') := hahead' ▸ (hs.paired hp).dropTrivia
  exact hpaired.of_cons (current_of_ahead hahead' ▸ hpart hp)

theorem bump (hs : Fits origin p n ks s) (hend : s.atEnd = false) (hpart : p → s.current.isStringPart = false) :
    Returns s.bump (Fits origin p n ks) :=
  (hs.bump_rest hend hpart).mono fun _ ht => ht.1

theorem bump_of_current {k : Kind} (hs : Fits origin p n ks s) (hk : s.current = k)
    (hplain : k ≠ .error ∧ k.isStringPart = false) : Returns s.bump (Fits origin p n ks) :=
  hs.bump (atEnd_eq_false_of_current hk hplain.1) fun _ => hk ▸ hplain.2

theorem closeNode (hs : Fits origin p (n + 1) ks s) : Returns s.closeNode (Fits origin p n ks) := by
  have hheight := hs.height_eq
  cases hbelow : s.below with
  | nil =>
      rw [hbelow] at hheight
      cases hheight
  | cons frame below =>
      have hreturns : ∃ t, s.closeNode = .ok t := by
        unfold State.closeNode
        rw [hbelow]
        exact ⟨_, rfl⟩
      obtain ⟨t, hclose⟩ := hreturns
      have hmove : Move s t := .closed hclose
      refine ⟨t, hclose, ?_⟩
      obtain ⟨frame', below', hbelow', rfl⟩ := closeNode_eq_ok hclose
      refine hs.move hmove ?_ hs.opened_eq hs.paired
      rw [hbelow'] at hheight
      exact Nat.succ.inj hheight

theorem claim_rest (hs : Fits origin p n ks s) (position : Nat) {report : Except Fault Diagnostic}
    (hreport : ∃ d, report = .ok d) :
    Returns (s.claim position report) fun t => Fits origin p n ks t ∧ t.rest = s.rest := by
  obtain ⟨d, rfl⟩ := hreport
  have hreturns : ∃ t, s.claim position (.ok d) = .ok t := by
    unfold State.claim
    split
    · exact ⟨_, rfl⟩
    · exact ⟨_, rfl⟩
  obtain ⟨t, hclaim⟩ := hreturns
  have hmove : Move s t := .claimed hclaim
  refine ⟨t, hclaim, ?_⟩
  obtain ⟨rfl, -⟩ | ⟨d', -, -, rfl⟩ := claim_eq_ok hclaim
  · exact ⟨hs, rfl⟩
  · exact ⟨hs.move hmove hs.height_eq hs.opened_eq hs.paired, rfl⟩

theorem claim (hs : Fits origin p n ks s) (position : Nat) {report : Except Fault Diagnostic}
    (hreport : ∃ d, report = .ok d) : Returns (s.claim position report) (Fits origin p n ks) :=
  (hs.claim_rest position hreport).mono fun _ ht => ht.1

end Fits

theorem State.Placed.cascade {s : State} (hs : s.Placed) : ∃ span, s.cascade = .ok span := by
  unfold State.cascade
  split
  · rename_i d ds hdelimiters
    have hle := hs.delimiter_le d (hdelimiters ▸ List.mem_cons_self)
    have hspan := hs.currentSpan
    exact ⟨_, Span.checked_of_le (by omega)⟩
  · exact ⟨_, rfl⟩

namespace Fits

variable {origin s : State} {p : Prop} {n : Nat} {ks : List Kind}

theorem report_rest (hs : Fits origin p n ks s) (issue : Issue) (detail : String) :
    Returns (s.report issue detail) fun t => Fits origin p n ks t ∧ t.rest = s.rest := by
  obtain ⟨span, hcascade⟩ := hs.placed.cascade
  refine hs.claim_rest _ ?_
  rw [hcascade]
  exact ⟨_, rfl⟩

theorem report (hs : Fits origin p n ks s) (issue : Issue) (detail : String) :
    Returns (s.report issue detail) (Fits origin p n ks) :=
  (hs.report_rest issue detail).mono fun _ ht => ht.1

theorem skipOne (hs : Fits origin p n ks s) {k : Kind} (hplain : k ≠ .error ∧ k.isStringPart = false) :
    Returns (s.skipOne k) (Fits origin p n ks) := by
  unfold State.skipOne
  split
  · exact hs.bump_of_current (looksAt_iff.mp (by assumption)) hplain
  · exact .ok hs

theorem expect (hs : Fits origin p n ks s) {k : Kind} (hplain : k ≠ .error ∧ k.isStringPart = false) (issue : Issue)
    (detail : String) : Returns (s.expect k issue detail) (Fits origin p n ks) := by
  unfold State.expect
  split
  · exact hs.bump_of_current (looksAt_iff.mp (by assumption)) hplain
  · exact hs.report issue detail

theorem expectSemicolon (hs : Fits origin p n ks s) (detail : String) :
    Returns (s.expectSemicolon detail) (Fits origin p n ks) := by
  unfold State.expectSemicolon
  split
  · exact hs.bump_of_current (looksAt_iff.mp (by assumption)) (by decide)
  · exact hs.claim _ ⟨_, rfl⟩

theorem openDelimiter (hs : Fits origin p n ks s) {k : Kind} (hk : s.current = k)
    (hplain : k ≠ .error ∧ k.isStringPart = false) : Returns (s.openDelimiter k) (Fits origin p n (k :: ks)) := by
  have hremembered : Fits origin p n (k :: ks) { s with delimiters := ⟨k, s.currentSpan⟩ :: s.delimiters } :=
    hs.move (.remembered k) hs.height_eq (congrArg (k :: ·) hs.opened_eq) hs.paired
  exact (requireCurrent_returns hk).bind fun _ _ => hremembered.bump_of_current hk hplain

/-- The partner of the innermost delimiter is consumed, or reported missing. -/
theorem closeDelimiter {opener closer : Kind} (hs : Fits origin p n (opener :: ks) s)
    (hpartners : arePartners opener closer = true) (construct : String) :
    Returns (s.closeDelimiter closer construct) (Fits origin p n ks) := by
  have hplain : closer ≠ .error ∧ closer.isStringPart = false := by
    unfold arePartners at hpartners
    split at hpartners
    · decide
    · decide
    · decide
    · cases hpartners
  have hopened := hs.opened_eq
  unfold State.closeDelimiter
  split
  · rename_i hnil
    rw [hnil] at hopened
    cases hopened
  · rename_i d ds hdelimiters
    rw [hdelimiters, List.map_cons, List.cons.injEq] at hopened
    obtain ⟨hkind, hrest⟩ := hopened
    have hforgotten : Fits origin p n ks { s with delimiters := ds } :=
      hs.move (.forgotten hdelimiters) hs.height_eq hrest hs.paired
    dsimp only
    rw [hkind, if_pos hpartners]
    split
    · exact hforgotten.bump_of_current (looksAt_iff.mp (by assumption)) hplain
    · have hle := hs.placed.delimiter_le d (hdelimiters ▸ List.mem_cons_self)
      have hspan := hs.placed.currentSpan
      refine hforgotten.claim _ ?_
      have hchecked : Span.checked d.span.start (State.currentSpan { s with delimiters := ds }).stop = .ok _ :=
        Span.checked_of_le (Nat.le_trans hle hspan.2.1)
      rw [hchecked]
      exact ⟨_, rfl⟩

theorem unterminatedString (hs : Fits origin p n ks s) (hk : s.current = .unterminatedStr) :
    Returns s.unterminatedString (Fits origin p n ks) := by
  have hspan := hs.placed.currentSpan
  have hchecked : Span.checked s.currentSpan.start s.length = .ok _ := Span.checked_of_le (by omega)
  unfold State.unterminatedString
  refine Returns.bind (hs.claim_rest _ ?_) fun t ht => ?_
  · rw [hchecked]
    exact ⟨_, rfl⟩
  · have hcurrent : (t.openNode .error).current = .unterminatedStr := by
      rw [current_openNode, current_of_rest ht.2, hk]
    exact ((ht.1.openNode .error).bump_of_current hcurrent (by decide)).bind fun u hu => hu.closeNode

end Fits

end Parse

end Transducer
