import Transducer.Proofs.Parse.Renewal
import Transducer.Proofs.Token.Tiling

/-!
# Where errors of a parse start

An error is dropped where the last one was reported, but only the last position is remembered. Errors inside a statement
are claimed at the next token, so there is at most one of them between two tokens. Then the `;` of the statement may be
missing, which is claimed behind the token before, and with that the next token is forgotten. If it starts no statement,
it is reported once more. This is the only way in which two errors start at one place. Unclosed delimiters do not count,
as they start where the delimiter does.

A ledger keeps what decides over a claim. Between two tokens it goes through phases: nothing is reported, an error at
the next token is reported, a `;` is missing, and the next token is reported again. Only tolerant goals are worked on
behind a missing `;`, and these consume the token they report.
-/

namespace Transducer

/-! ### Lists of errors -/

/-- All errors start before the position, unclosed delimiters apart. -/
def StartBefore (n : Nat) (ds : List Diagnostic) : Prop := ∀ d ∈ ds, d.issue.isStructural = false → d.span.start < n

/-- No other error starts where the given one does. -/
def StartsAlone (e : Diagnostic) (ds : List Diagnostic) : Prop :=
  ∀ d ∈ ds, d.issue.isStructural = false → d.span.start ≠ e.span.start

/-- A token is reported a second time, because a missing `;` in front of it was reported in between. -/
structure Repeats (first missing again : Diagnostic) : Prop where
  isMissing : missing.issue = .expectedSemicolon
  before : missing.span.start < first.span.start
  isUnexpected : again.issue = .unexpectedToken
  span_eq : again.span = first.span

/-- Errors, last one first, that start at places of their own unless a token is repeated. -/
def Spread : List Diagnostic → Prop
  | [] => True
  | e :: ds =>
      (e.issue.isStructural = true ∨ StartsAlone e ds ∨
        ∃ m d older, ds = m :: d :: older ∧ Repeats d m e ∧ StartsAlone e older) ∧ Spread ds

/-- Where errors start, unclosed delimiters apart. -/
def starts (ds : List Diagnostic) : List Nat := (ds.filter fun d => !d.issue.isStructural).map fun d => d.span.start

theorem startBefore_cons {n : Nat} {d : Diagnostic} {ds : List Diagnostic}
    (hd : d.issue.isStructural = true ∨ d.span.start < n) (h : StartBefore n ds) : StartBefore n (d :: ds) := by
  refine List.forall_mem_cons.mpr ⟨fun hlocal => ?_, h⟩
  obtain hstructural | hlt := hd
  · rw [hlocal] at hstructural
    cases hstructural
  · exact hlt

theorem StartBefore.mono {m n : Nat} {ds : List Diagnostic} (h : StartBefore m ds) (hle : m ≤ n) : StartBefore n ds :=
  fun d hd hlocal => Nat.lt_of_lt_of_le (h d hd hlocal) hle

theorem StartBefore.startsAlone {n : Nat} {e : Diagnostic} {ds : List Diagnostic} (h : StartBefore n ds)
    (he : n ≤ e.span.start) : StartsAlone e ds :=
  fun d hd hlocal => Nat.ne_of_lt (Nat.lt_of_lt_of_le (h d hd hlocal) he)

theorem startsAlone_cons {e d : Diagnostic} {ds : List Diagnostic}
    (hd : d.issue.isStructural = true ∨ d.span.start ≠ e.span.start) (h : StartsAlone e ds) :
    StartsAlone e (d :: ds) := by
  refine List.forall_mem_cons.mpr ⟨fun hlocal => ?_, h⟩
  obtain hstructural | hne := hd
  · rw [hlocal] at hstructural
    cases hstructural
  · exact hne

/-- Two errors that start at one place are the two reports of a token. -/
theorem Spread.repeats {newer between older : List Diagnostic} {d e : Diagnostic}
    (h : Spread (newer ++ e :: (between ++ d :: older))) (hd : d.issue.isStructural = false)
    (he : e.issue.isStructural = false) (hstart : d.span.start = e.span.start) :
    ∃ m, between = [m] ∧ Repeats d m e := by
  induction newer with
  | cons _ newer ih => exact ih h.2
  | nil =>
      obtain ⟨hstructural | halone | ⟨m, d', older', hds, hrepeats, halone⟩, -⟩ := h
      · rw [he] at hstructural
        cases hstructural
      · exact absurd hstart (halone d (List.mem_append_right _ List.mem_cons_self) hd)
      · match between with
        | [] =>
            cases hds
            have hlt := hrepeats.before
            rw [hstart, hrepeats.span_eq] at hlt
            exact absurd hlt (Nat.lt_irrefl _)
        | [_] =>
            cases hds
            exact ⟨m, rfl, hrepeats⟩
        | _ :: _ :: _ =>
            cases hds
            exact absurd hstart (halone d (List.mem_append_right _ List.mem_cons_self) hd)

theorem Spread.nodup_starts {ds : List Diagnostic} (h : Spread ds) (hnone : ∀ d ∈ ds, d.issue ≠ .expectedSemicolon) :
    (starts ds).Nodup := by
  induction ds with
  | nil => exact List.nodup_nil
  | cons e ds ih =>
      obtain ⟨hhead, htail⟩ := h
      have ih := ih htail fun d hd => hnone d (List.mem_cons_of_mem _ hd)
      cases he : e.issue.isStructural with
      | true => simpa [starts, he] using ih
      | false =>
          have halone : StartsAlone e ds := by
            obtain hstructural | halone | ⟨m, d, older, rfl, hrepeats, -⟩ := hhead
            · rw [he] at hstructural
              cases hstructural
            · exact halone
            · exact absurd hrepeats.isMissing (hnone m (by simp))
          have hnew : e.span.start ∉ starts ds := by
            intro hmem
            obtain ⟨d, hd, hstart⟩ := List.mem_map.mp hmem
            obtain ⟨hd, hlocal⟩ := List.mem_filter.mp hd
            exact halone d hd (by simpa using hlocal) hstart
          rw [starts, List.filter_cons_of_pos (by simp [he]), List.map_cons]
          exact List.nodup_cons.mpr ⟨hnew, ih⟩

theorem starts_reverse (ds : List Diagnostic) : starts ds.reverse = (starts ds).reverse := by
  rw [starts, starts, List.filter_reverse, List.map_reverse]

namespace Parse

/-! ### Ledgers -/

/-- The error is about the next token, or a delimiter is unclosed. -/
def AtNext (next : Span) (d : Diagnostic) : Prop := d.issue.isStructural = true ∨ d.span = next

/-- At most the last error is about the next token, and all others start before the gap in front of it. -/
inductive AtMostOne (next : Span) (gap : Nat) : List Diagnostic → Prop
  | none {ds : List Diagnostic} (h : StartBefore gap ds) : AtMostOne next gap ds
  | one {d : Diagnostic} {ds : List Diagnostic} (hd : AtNext next d) (h : StartBefore gap ds) :
      AtMostOne next gap (d :: ds)

section AtMostOne

variable {next : Span} {gap : Nat} {d m e : Diagnostic} {ds : List Diagnostic}

theorem AtNext.startsBefore (h : AtNext next d) : d.issue.isStructural = true ∨ d.span.start < next.start + 1 := by
  refine h.imp_right fun hspan => ?_
  rw [hspan]
  exact Nat.lt_succ_self _

namespace AtMostOne

theorem startBefore (h : AtMostOne next gap ds) (hgap : gap ≤ next.start) : StartBefore (next.start + 1) ds := by
  have hle : gap ≤ next.start + 1 := Nat.le_succ_of_le hgap
  cases h with
  | none h => exact h.mono hle
  | one hd h => exact startBefore_cons hd.startsBefore (h.mono hle)

theorem startsAlone (h : AtMostOne next gap ds) (hlt : gap < next.start) (hm : m.span.start = gap) :
    StartsAlone m ds := by
  have hle : gap ≤ m.span.start := Nat.le_of_eq hm.symm
  cases h with
  | none h => exact h.startsAlone hle
  | one hd h =>
      refine startsAlone_cons (hd.imp_right fun hspan => ?_) (h.startsAlone hle)
      rw [hspan, hm]
      exact Nat.ne_of_gt hlt

/-- Behind a missing `;` an error at the next token repeats the one before it, if there is one. -/
theorem again (h : AtMostOne next gap ds) (hlt : gap < next.start) (hissue : m.issue = .expectedSemicolon)
    (hm : m.span.start = gap) (hunexpected : e.issue = .unexpectedToken) (hspan : e.span = next) :
    StartsAlone e (m :: ds) ∨ ∃ m' d older, m :: ds = m' :: d :: older ∧ Repeats d m' e ∧ StartsAlone e older := by
  have hle : gap ≤ e.span.start := by
    rw [hspan]
    exact Nat.le_of_lt hlt
  have hne : m.issue.isStructural = true ∨ m.span.start ≠ e.span.start := by
    rw [hspan, hm]
    exact .inr (Nat.ne_of_lt hlt)
  cases h with
  | none h => exact .inl (startsAlone_cons hne (h.startsAlone hle))
  | one hd h =>
      obtain hstructural | hsame := hd
      · exact .inl (startsAlone_cons hne (startsAlone_cons (.inl hstructural) (h.startsAlone hle)))
      · refine .inr ⟨m, _, _, rfl, ⟨hissue, ?_, hunexpected, hspan.trans hsame.symm⟩, h.startsAlone hle⟩
        rw [hsame, hm]
        exact hlt

end AtMostOne

end AtMostOne

/-- The next token, the place of a `;` that is missing in front of it, the last position claimed, and all errors, last
one first. -/
structure Ledger where
  next : Span
  gap : Nat
  claimed : Option Nat
  diagnostics : List Diagnostic

namespace Ledger

variable {l : Ledger} {d m e : Diagnostic}

def add (l : Ledger) (position : Nat) (d : Diagnostic) : Ledger :=
  { l with claimed := some position, diagnostics := d :: l.diagnostics }

/-- Inside a statement. -/
inductive Opening (l : Ledger) : Prop
  | quiet (h : StartBefore l.gap l.diagnostics)
  /-- The `;` may be the error, if it is missing right in front of the next token. -/
  | reported (hclaimed : l.claimed = some l.next.start) (hbefore : StartBefore (l.next.start + 1) l.diagnostics)
      (hone : l.gap < l.next.start → AtMostOne l.next l.gap l.diagnostics)

/-- Behind a statement whose `;` is missing. -/
inductive Closing (l : Ledger) : Prop
  | missed {m : Diagnostic} {ds : List Diagnostic} (hds : l.diagnostics = m :: ds) (hlt : l.gap < l.next.start)
      (hclaimed : l.claimed = some l.gap) (hissue : m.issue = .expectedSemicolon) (hm : m.span.start = l.gap)
      (hone : AtMostOne l.next l.gap ds)
  | resumed (hclaimed : l.claimed = some l.next.start) (hbefore : StartBefore (l.next.start + 1) l.diagnostics)

/-- Inside a statement or behind one. -/
def Late (l : Ledger) : Prop := l.Opening ∨ l.Closing

/-- The errors are spread over the source, and the ledger is in a phase. -/
structure Spaced (phase : Ledger → Prop) (l : Ledger) : Prop where
  gap_le : l.gap ≤ l.next.start
  spread : Spread l.diagnostics
  phase : phase l

namespace Spaced

theorem late (h : l.Spaced Opening) : l.Spaced Late := ⟨h.gap_le, h.spread, .inl h.phase⟩

theorem startBefore (h : l.Spaced Late) : StartBefore (l.next.start + 1) l.diagnostics := by
  obtain (hquiet | ⟨-, hbefore, -⟩) | (⟨hds, hlt, -, -, hm, hone⟩ | ⟨-, hbefore⟩) := h.phase
  · exact hquiet.mono (Nat.le_succ_of_le h.gap_le)
  · exact hbefore
  · rw [hds]
    exact startBefore_cons (.inr (by omega)) (hone.startBefore h.gap_le)
  · exact hbefore

/-- A token is consumed: nothing has been reported behind it. -/
theorem advance {k : Ledger} (h : l.Spaced Late) (hds : k.diagnostics = l.diagnostics) (hlt : l.next.start < k.gap)
    (hgap : k.gap ≤ k.next.start) : k.Spaced Opening := by
  refine ⟨hgap, hds ▸ h.spread, .quiet ?_⟩
  rw [hds]
  exact h.startBefore.mono hlt

theorem add_first (h : l.Spaced Late) (hquiet : StartBefore l.gap l.diagnostics) (hd : AtNext l.next d) :
    (l.add l.next.start d).Spaced Opening := by
  have hone : AtMostOne l.next l.gap (d :: l.diagnostics) := .one hd hquiet
  refine ⟨h.gap_le, ⟨?_, h.spread⟩, .reported rfl (hone.startBefore h.gap_le) fun _ => hone⟩
  refine hd.imp_right fun hspan => .inl (hquiet.startsAlone ?_)
  rw [hspan]
  exact h.gap_le

theorem add_next (h : l.Spaced Opening) (hd : AtNext l.next d) (hnot : l.claimed ≠ some l.next.start) :
    (l.add l.next.start d).Spaced Opening := by
  obtain hquiet | ⟨hclaimed, -, -⟩ := h.phase
  · exact h.late.add_first hquiet hd
  · exact absurd hclaimed hnot

theorem add_gap (h : l.Spaced Opening) (hissue : m.issue = .expectedSemicolon) (hm : m.span.start = l.gap)
    (hnot : l.claimed ≠ some l.gap) : (l.add l.gap m).Spaced Late := by
  have hspread (halone : StartsAlone m l.diagnostics) : Spread (m :: l.diagnostics) := ⟨.inr (.inl halone), h.spread⟩
  obtain hquiet | ⟨hclaimed, -, hone⟩ := h.phase
  · refine ⟨h.gap_le, hspread (hquiet.startsAlone (Nat.le_of_eq hm.symm)), ?_⟩
    obtain hlt | heq := Nat.lt_or_eq_of_le h.gap_le
    · exact .inr (.missed rfl hlt rfl hissue hm (.none hquiet))
    · -- The `;` is missing right in front of the next token, which is claimed with it.
      have hstart : m.span.start < l.next.start + 1 := by omega
      refine .inl (.reported (congrArg some heq) ?_ fun hlt => absurd heq (Nat.ne_of_lt hlt))
      exact startBefore_cons (.inr hstart) (hquiet.mono (Nat.le_succ_of_le h.gap_le))
  · have hlt : l.gap < l.next.start := by
      refine Nat.lt_of_le_of_ne h.gap_le fun heq => hnot ?_
      rw [hclaimed, heq]
    exact ⟨h.gap_le, hspread ((hone hlt).startsAlone hlt hm), .inr (.missed rfl hlt rfl hissue hm (hone hlt))⟩

/-- Behind a statement the next token is reported once more. -/
theorem add_again (h : l.Spaced Late)
    (he : e.issue.isStructural = true ∨ e.issue = .unexpectedToken ∧ e.span = l.next)
    (hnot : l.claimed ≠ some l.next.start) : (l.add l.next.start e).Spaced Late := by
  have hnext : AtNext l.next e := he.imp_right And.right
  obtain (hquiet | ⟨hclaimed, -, -⟩) | (⟨hds, hlt, -, hissue, hm, hone⟩ | ⟨hclaimed, -⟩) := h.phase
  · exact (h.add_first hquiet hnext).late
  · exact absurd hclaimed hnot
  · have hresumed := startBefore_cons hnext.startsBefore h.startBefore
    refine ⟨h.gap_le, ⟨he.imp_right fun ⟨hunexpected, hspan⟩ => ?_, h.spread⟩, .inr (.resumed rfl hresumed)⟩
    rw [hds]
    exact hone.again hlt hissue hm hunexpected hspan
  · exact absurd hclaimed hnot

end Spaced

end Ledger

/-! ### States -/

namespace State

open Ledger

variable {s t : State}

/-- The tokens ahead are not empty and fill the rest of the source, and the last one consumed ends before them. -/
structure Standing (s : State) : Prop where
  offset_add : s.offset + Token.totalWidth s.rest = s.length
  width_pos : ∀ token ∈ s.rest, 0 < token.width
  lastEnd_le : ∀ n ∈ s.lastEnd, n ≤ s.offset

def ledger (s : State) : Ledger := ⟨s.currentSpan, s.gap, s.claimed, s.diagnostics⟩

namespace Standing

theorem offset_le (h : s.Standing) : s.offset ≤ s.currentSpan.start :=
  (Placed.currentSpan (s := { s with delimiters := [] }) ⟨h.offset_add, fun _ hd => nomatch hd⟩).1

theorem gap_le (h : s.Standing) : s.gap ≤ s.currentSpan.start := by
  unfold State.gap
  cases hlast : s.lastEnd with
  | none => exact Nat.le_refl _
  | some n => exact Nat.le_trans (h.lastEnd_le n hlast) h.offset_le

theorem flush (h : s.Standing) : s.flush.Standing := by
  have hwidth := s.totalWidth_rest
  have hoffset := h.offset_add
  refine ⟨?_, fun token htoken => h.width_pos token ?_, fun n hn => ?_⟩
  · simp only [State.flush]
    omega
  · exact (List.dropWhile_suffix _).subset htoken
  · exact Nat.le_trans (h.lastEnd_le n hn) (Nat.le_add_right _ _)

/-- The gap moves behind the start of the token that is consumed. -/
theorem bump (h : s.Standing) (hbump : s.bump = .ok t) : t.Standing ∧ s.currentSpan.start < t.gap := by
  obtain ⟨token, ts, hahead, rfl⟩ := bump_eq_ok hbump
  have hwidth := s.totalWidth_rest
  have hoffset := h.offset_add
  rw [hahead, Token.totalWidth_cons] at hwidth
  have hmem : ∀ u ∈ token :: ts, u ∈ s.rest := by
    rw [← hahead]
    exact (List.dropWhile_suffix _).subset
  refine ⟨⟨?_, fun u hu => h.width_pos u (hmem u (List.mem_cons_of_mem _ hu)), ?_⟩, ?_⟩
  · dsimp only
    omega
  · rintro _ ⟨⟩
    exact Nat.le_refl _
  · have hpos := h.width_pos token (hmem token List.mem_cons_self)
    have hstart : s.currentSpan.start = s.offset + Token.totalWidth s.trivia := by
      simp only [State.currentSpan, hahead]
    rw [hstart]
    exact Nat.lt_add_of_pos_right hpos

theorem withDelimiters (h : s.Standing) (ds : List Delimiter) : Standing { s with delimiters := ds } :=
  ⟨h.offset_add, h.width_pos, h.lastEnd_le⟩

end Standing

theorem standing_start (limits : Limits) {tokens : List Token} (h : ∀ token ∈ tokens, 0 < token.width) :
    (start limits tokens).Standing :=
  ⟨Nat.zero_add _, h, fun _ hn => nomatch hn⟩

/-- A state whose ledger is in a phase. -/
def Within (phase : Ledger → Prop) (s : State) : Prop := s.Standing ∧ s.ledger.Spaced phase

namespace Within

variable {phase : Ledger → Prop}

theorem congr (h : s.Within phase) (heq : t.record = s.record) : t.Within phase := by
  cases s
  cases t
  obtain ⟨rfl, rfl, rfl, rfl, rfl, rfl, rfl⟩ := Record.mk.inj heq
  exact ⟨⟨h.1.offset_add, h.1.width_pos, h.1.lastEnd_le⟩, h.2⟩

theorem flush (h : s.Within phase) : s.flush.Within phase := by
  have hledger : s.flush.ledger = s.ledger := by
    rw [ledger, ledger, State.gap, currentSpan_flush]
    rfl
  exact ⟨h.1.flush, hledger ▸ h.2⟩

theorem withDelimiters (h : s.Within phase) (ds : List Delimiter) : Within phase { s with delimiters := ds } :=
  ⟨h.1.withDelimiters ds, h.2⟩

theorem late (h : s.Within Opening) : s.Within Late := ⟨h.1, h.2.late⟩

theorem bump (h : s.Within Late) : Ensures s.bump (Within Opening) := by
  intro t ht
  obtain ⟨hstanding, hlt⟩ := h.1.bump ht
  have hds : t.diagnostics = s.diagnostics := by
    obtain ⟨token, ts, -, rfl⟩ := bump_eq_ok ht
    rfl
  exact ⟨hstanding, h.2.advance hds hlt hstanding.gap_le⟩

/-- A claim is dropped or added to the ledger. -/
theorem claim {target : Ledger → Prop} (h : s.Within phase) {position : Nat} {r : Except Fault Diagnostic}
    (hdropped : s.ledger.Spaced target)
    (hadded : s.claimed ≠ some position → Ensures r fun d => (s.ledger.add position d).Spaced target) :
    Ensures (s.claim position r) (Within target) := by
  intro t ht
  obtain ⟨rfl, -⟩ | ⟨d, hd, hnot, rfl⟩ := claim_eq_ok ht
  · exact ⟨h.1, hdropped⟩
  · exact ⟨⟨h.1.offset_add, h.1.width_pos, h.1.lastEnd_le⟩, hadded hnot d hd⟩

end Within

/-- Inside a statement every operation keeps the phase, until a `;` is missing. Behind it the next token may be reported
once more before it is consumed. -/
theorem renewed_positions : Renewed (Within Late) (Within Opening) (Within Late) where
  congr h heq := h.congr heq
  congrEnded h heq := h.congr heq
  ended h := h.late
  flush h := h.flush
  bump h := h.late.bump
  remember h _ := h.withDelimiters _
  forget h _ _ := h.withDelimiters _
  claimNext h _ _ _ hr := by
    refine (h.withDelimiters _).claim h.2 fun hnot => hr.mono fun _ hd => h.2.add_next ?_ hnot
    exact hd.span.symm.imp_left And.left
  claimGap h _ hd := by
    refine h.claim h.2.late fun hnot => .ok (h.2.add_gap hd.issue ?_ hnot)
    rw [hd.span]
    rfl
  congrIdle h heq := h.congr heq
  flushIdle h := h.flush
  withDelimiters h _ := h.withDelimiters _
  claimAgain h _ hr := h.claim h.2 fun hnot => hr.mono fun _ hd => h.2.add_again hd hnot
  renew h := h.bump
  idle h := h.late

end State

/-! ### Steps -/

open State Ledger

/-- The parse is inside a statement, or the goals on the agenda are tolerant. -/
def Continues (goals : List Goal) (s : State) : Prop :=
  s.Within Opening ∨ s.Within Late ∧ ∀ g ∈ goals, g.isTolerant = true

section Steps

variable {s : State}

/-- Behind the `;` of a statement only tolerant goals are left over, by a goal that is not inside one. -/
theorem tolerant_of_mem_ended {g : Goal} {new : List Goal} (h : new ∈ g.ended) :
    g.isInner = false ∧ ∀ g ∈ new, g.isTolerant = true := by
  cases g with
  | statements inBody =>
      simp only [Goal.ended, List.mem_cons, List.not_mem_nil, or_false] at h
      obtain rfl | rfl := h
      · exact ⟨rfl, by simp [Goal.isTolerant]⟩
      · exact ⟨rfl, by simp [Goal.isTolerant]⟩
  | endStatement form =>
      cases List.mem_singleton.mp h
      exact ⟨rfl, fun _ hg => nomatch hg⟩
  | endRecovery =>
      cases List.mem_singleton.mp h
      exact ⟨rfl, fun _ hg => nomatch hg⟩
  | endSkipped =>
      cases List.mem_singleton.mp h
      exact ⟨rfl, fun _ hg => nomatch hg⟩
  | _ => cases h

theorem Continues.act {g : Goal} {goals : List Goal} (h : Continues (g :: goals) s) (hordered : Ordered (g :: goals))
    (hentering : Entering (g :: goals) s) : Ensures (Parse.act g s) fun a => Continues (a.1 ++ goals) a.2 := by
  intro a ha
  obtain hopening | ⟨hlate, htolerant⟩ := h
  · obtain ⟨-, -, ⟨-, hopening⟩ | ⟨hended, -, hlate⟩⟩ :=
      renewed_positions.bisimulation.act ⟨rfl, hopening⟩ hentering a a ha ha
    · exact .inl hopening
    · obtain ⟨hinner, hnew⟩ := tolerant_of_mem_ended hended
      exact .inr ⟨hlate, List.forall_mem_append.mpr ⟨hnew, hordered.tolerant hinner⟩⟩
  · obtain ⟨hg, hgoals⟩ := List.forall_mem_cons.mp htolerant
    have hact := renewed_positions.act_idle hlate (isIdle_of_isTolerant hg)
      fun _ _ _ _ => renewed_positions.importStatement hlate
    exact (hact a ha).imp_right fun ⟨hlate, hnew⟩ => ⟨hlate, List.forall_mem_append.mpr ⟨hnew, hgoals⟩⟩

/-- A run keeps its errors spread over the source and ends late. -/
theorem Continues.run {origin : State} {goals : List Goal} (h : Continues goals s) (hsettled : Settled origin goals s)
    (hentering : Entering goals s) : Ensures (Parse.run goals s) (State.Within Late) := by
  fun_induction Parse.run goals s with
  | case1 s => exact .ok (h.elim Within.late And.left)
  | case2 g goals s fault hact => exact .error
  | case3 g goals s new t hact ih =>
      have hsettled' := hsettled.act.of_eq_ok hact
      exact ih (h.act hsettled.ordered hentering (new, t) hact) hsettled' (hentering.act (new, t) hact)

end Steps

theorem spread_of_parse {limits : Limits} {source : String} {p : Parsed} (hparse : parse limits source = .ok p) :
    Spread p.diagnostics.reverse := by
  obtain ⟨s, hrun, hds⟩ := run_of_parse hparse
  have hstanding : (State.start limits (lex source)).Standing :=
    standing_start limits fun token htoken => Token.width_pos ((lexed_lex source).genuine htoken).text_ne
  have hstart : Continues [.statements false] (State.start limits (lex source)) :=
    .inl ⟨hstanding, hstanding.gap_le, trivial, .quiet fun _ hd => nomatch hd⟩
  have hend := hstart.run (Settled.start limits (paired_lex source)) (entering_start _) s hrun
  rw [hds, List.reverse_reverse]
  exact hend.2.spread

end Parse

/-- In a parse without limits two errors start at one place only if they are about one token that was reported again
behind a missing `;`. So all errors start at different places if no `;` is missing. -/
theorem errors_repeat_only_behind_missing_semicolon (source : String) :
    ∃ p, parse .none source = .ok p ∧
      (∀ before d between e after, p.diagnostics = before ++ d :: (between ++ e :: after) →
        d.issue.isStructural = false → e.issue.isStructural = false → d.span.start = e.span.start →
          ∃ m, between = [m] ∧ Repeats d m e) ∧
      ((∀ d ∈ p.diagnostics, d.issue ≠ .expectedSemicolon) → (starts p.diagnostics).Nodup) := by
  obtain ⟨p, hparse⟩ := (parse_returns .none source).resolve_right fun ⟨_, _, hlimits⟩ => hlimits rfl
  have hspread := Parse.spread_of_parse hparse
  refine ⟨p, hparse, fun before d between e after hds hd he hstart => ?_, fun hnone => ?_⟩
  · have hreverse : p.diagnostics.reverse = after.reverse ++ e :: (between.reverse ++ d :: before.reverse) := by
      simp only [hds, List.reverse_append, List.reverse_cons, List.append_assoc, List.cons_append, List.nil_append]
    rw [hreverse] at hspread
    obtain ⟨m, hbetween, hrepeats⟩ := hspread.repeats hd he hstart
    exact ⟨m, by simpa using congrArg List.reverse hbetween, hrepeats⟩
  · have hnodup := hspread.nodup_starts fun d hd => hnone d (List.mem_reverse.mp hd)
    rw [starts_reverse] at hnodup
    exact (List.reverse_perm _).nodup_iff.mp hnodup

/-- What follows `import` is no path, and no statement either. -/
theorem error_repeated_behind_missing_semicolon :
    ∃ p, parse .none "import 5" = .ok p ∧ starts p.diagnostics = [7, 6, 7] :=
  eq_ok_of_toOption (f := fun p : Parse.Parsed => starts p.diagnostics) (by decide +kernel)

end Transducer
