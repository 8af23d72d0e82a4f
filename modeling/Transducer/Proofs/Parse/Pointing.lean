import Transducer.Proofs.Parse.Reporting
import Transducer.Proofs.Token.Tiling

/-!
# Errors of a parse point into the source

Everything that an error of a parse points at starts and ends where a token does: at the next token, behind the last one,
at a delimiter that is open, or at the end of the source. Tokens start and end between characters, so such a place never
lies inside a character, and no place lies behind the end. No error of a parse is about an escape.
-/

namespace Transducer

/-- The span starts and ends between characters of the source, and does not end before it starts. -/
structure Span.PointsInto (source : String) (s : Span) : Prop where
  ordered : s.start ≤ s.stop
  start : String.Pos.Raw.IsValid source ⟨s.start⟩
  stop : String.Pos.Raw.IsValid source ⟨s.stop⟩

/-- All places that a diagnostic names. -/
structure Diagnostic.PointsInto (source : String) (d : Diagnostic) : Prop where
  span : d.span.PointsInto source
  cascade : d.cascade.PointsInto source
  related : ∀ r ∈ d.related, r.span.PointsInto source

variable {source covered : String} {s : Span}

theorem Covers.pointsInto (h : Covers source s covered) : s.PointsInto source := by
  obtain ⟨hstart, hstop⟩ := h.isValid
  refine ⟨?_, hstart, hstop⟩
  obtain ⟨before, after, -, rfl⟩ := h
  exact Nat.le_add_right _ _

namespace Span

theorem PointsInto.stop_le (h : s.PointsInto source) : s.stop ≤ source.utf8ByteSize := h.stop.le_rawEndPos

theorem pointsInto_point {n : Nat} (h : String.Pos.Raw.IsValid source ⟨n⟩) : (point n).PointsInto source :=
  ⟨Nat.le_refl n, h, h⟩

theorem pointsInto_checked {start stop : Nat} (hstart : String.Pos.Raw.IsValid source ⟨start⟩)
    (hstop : String.Pos.Raw.IsValid source ⟨stop⟩) : Ensures (checked start stop) (PointsInto source) := by
  unfold checked
  split
  · rename_i hordered
    exact .ok ⟨hordered, hstart, hstop⟩
  · exact .error

end Span

/-! ### Tokens -/

namespace Token

/-- The text that tokens cover together. -/
def joined (ts : List Token) : String := String.join (ts.map text)

/-- Some of the tokens follow each other from an offset on. -/
def StandsAt (tokens : List Token) (o : Nat) (ts : List Token) : Prop :=
  ∃ before after, tokens = before ++ ts ++ after ∧ o = totalWidth before

namespace StandsAt

variable {tokens ts us : List Token} {o : Nat}

theorem append (h : StandsAt tokens o (ts ++ us)) : StandsAt tokens o ts ∧ StandsAt tokens (o + totalWidth ts) us := by
  obtain ⟨before, after, rfl, rfl⟩ := h
  constructor
  · exact ⟨before, us ++ after, by simp only [List.append_assoc], rfl⟩
  · exact ⟨before ++ ts, after, by simp only [List.append_assoc], (totalWidth_append before ts).symm⟩

theorem tail {t : Token} (h : StandsAt tokens o (t :: ts)) : StandsAt tokens (o + t.width) ts := by
  have hsplit : StandsAt tokens o ([t] ++ ts) := h
  have htail := hsplit.append.2
  rwa [totalWidth_cons, totalWidth_nil, Nat.add_zero] at htail

theorem covers (h : StandsAt tokens o ts) : Covers (joined tokens) ⟨o, o + totalWidth ts⟩ (joined ts) := by
  obtain ⟨before, after, rfl, rfl⟩ := h
  refine ⟨joined before, joined after, ?_, ?_⟩
  · simp only [joined, List.map_append, String.join_append]
  · rw [joined, joined, utf8ByteSize_join, utf8ByteSize_join]

theorem isValid (h : StandsAt tokens o ts) : String.Pos.Raw.IsValid (joined tokens) ⟨o⟩ := h.covers.isValid.1

/-- A token among those that follow each other is one of all tokens. -/
theorem mem_placed (h : StandsAt tokens o ts) {t : Token} {span : Span} (ht : (t, span) ∈ placed o ts) :
    (t, span) ∈ placed 0 tokens := by
  obtain ⟨before, after, rfl, rfl⟩ := h
  rw [placed_append, placed_append, Nat.zero_add]
  exact List.mem_append_left _ (List.mem_append_right _ ht)

end StandsAt

theorem isValid_totalWidth (tokens : List Token) : String.Pos.Raw.IsValid (joined tokens) ⟨totalWidth tokens⟩ := by
  have hend : StandsAt tokens (totalWidth tokens) [] := ⟨tokens, [], by simp only [List.append_nil], rfl⟩
  exact hend.isValid

end Token

/-! ### States -/

namespace Parse.State

open Token

variable {tokens : List Token} {s : State}

/-- The state stands between two of the tokens, and all places that it remembers lie between tokens. -/
structure Pointing (tokens : List Token) (s : State) : Prop where
  stands : StandsAt tokens s.offset s.rest
  length_eq : s.length = totalWidth tokens
  lastEnd : ∀ n ∈ s.lastEnd, String.Pos.Raw.IsValid (joined tokens) ⟨n⟩
  delimiters : ∀ d ∈ s.delimiters, d.span.PointsInto (joined tokens)
  diagnostics : ∀ d ∈ s.diagnostics, d.PointsInto (joined tokens) ∧ d.issue.isSyntactic = true

theorem pointing_start (limits : Limits) (tokens : List Token) : (start limits tokens).Pointing tokens where
  stands := ⟨[], [], by simp [start], rfl⟩
  length_eq := rfl
  lastEnd _ h := nomatch h
  delimiters _ h := nomatch h
  diagnostics _ h := nomatch h

namespace Pointing

theorem ahead (h : s.Pointing tokens) : StandsAt tokens (s.offset + totalWidth s.trivia) s.ahead := by
  have hstands := h.stands
  rw [← s.trivia_append_ahead] at hstands
  exact hstands.append.2

theorem length_isValid (h : s.Pointing tokens) : String.Pos.Raw.IsValid (joined tokens) ⟨s.length⟩ := by
  rw [h.length_eq]
  exact isValid_totalWidth tokens

theorem currentSpan (h : s.Pointing tokens) : s.currentSpan.PointsInto (joined tokens) := by
  unfold State.currentSpan
  split
  · exact Span.pointsInto_point h.length_isValid
  · rename_i t ts hahead
    have hstands := h.ahead
    rw [hahead] at hstands
    exact ⟨Nat.le_add_right _ _, hstands.isValid, hstands.tail.isValid⟩

theorem gap (h : s.Pointing tokens) : String.Pos.Raw.IsValid (joined tokens) ⟨s.gap⟩ := by
  unfold State.gap
  cases hlast : s.lastEnd with
  | none => exact h.currentSpan.start
  | some n => exact h.lastEnd n hlast

theorem claimsNext (h : s.Pointing tokens) {d : Diagnostic} (hd : s.ClaimsNext d) : d.PointsInto (joined tokens) := by
  have hspan : d.span.PointsInto (joined tokens) := by
    obtain hspan | ⟨-, opener, hopener, hchecked⟩ := hd.span
    · rw [hspan]
      exact h.currentSpan
    · exact Span.pointsInto_checked (h.delimiters opener hopener).start h.currentSpan.stop _ hchecked
  refine ⟨hspan, ?_, fun r hr => ?_⟩
  · obtain hcascade | ⟨start, hstart, hchecked⟩ := hd.cascade
    · rw [hcascade]
      exact hspan
    · refine Span.pointsInto_checked ?_ h.length_isValid _ hchecked
      obtain rfl | ⟨opener, hopener, rfl⟩ := hstart
      · exact h.currentSpan.start
      · exact (h.delimiters opener hopener).start
  · obtain ⟨opener, hopener, hspan⟩ := hd.related r hr
    rw [hspan]
    exact h.delimiters opener hopener

theorem claimsGap (h : s.Pointing tokens) {d : Diagnostic} (hd : s.ClaimsGap d) : d.PointsInto (joined tokens) := by
  have hpoint := Span.pointsInto_point h.gap
  refine ⟨by rwa [hd.span], by rwa [hd.cascade], fun r hr => ?_⟩
  rw [hd.related] at hr
  cases hr

/-- An error that points into the source is added to the others. -/
theorem claim (h : s.Pointing tokens) (position : Nat) {r : Except Fault Diagnostic}
    (hr : Ensures r fun d => d.PointsInto (joined tokens) ∧ d.issue.isSyntactic = true) :
    Ensures (s.claim position r) (Pointing tokens) := by
  intro t ht
  obtain ⟨rfl, -⟩ | ⟨d, hd, -, rfl⟩ := claim_eq_ok ht
  · exact h
  · exact ⟨h.stands, h.length_eq, h.lastEnd, h.delimiters, List.forall_mem_cons.mpr ⟨hr d hd, h.diagnostics⟩⟩

theorem bump (h : s.Pointing tokens) : Ensures s.bump (Pointing tokens) := by
  intro t ht
  obtain ⟨token, ts, hahead, rfl⟩ := bump_eq_ok ht
  have hstands := h.ahead
  rw [hahead] at hstands
  refine ⟨hstands.tail, h.length_eq, ?_, h.delimiters, h.diagnostics⟩
  rintro _ ⟨⟩
  exact hstands.tail.isValid

theorem forget (h : s.Pointing tokens) {ds : List Delimiter} (hds : ds <:+ s.delimiters) :
    Pointing tokens { s with delimiters := ds } :=
  ⟨h.stands, h.length_eq, h.lastEnd, fun d hd => h.delimiters d (hds.subset hd), h.diagnostics⟩

end Pointing

theorem Pointing.congr {t : State} (h : s.Pointing tokens) (heq : t.record = s.record) : t.Pointing tokens := by
  cases s
  cases t
  obtain ⟨rfl, rfl, rfl, rfl, rfl, rfl, rfl⟩ := Record.mk.inj heq
  exact ⟨h.stands, h.length_eq, h.lastEnd, h.delimiters, h.diagnostics⟩

theorem watched_pointing (tokens : List Token) : Watched (Pointing tokens) (Pointing tokens) where
  congr h heq := h.congr heq
  congrEnded h heq := h.congr heq
  ended h := h
  flush h := ⟨h.ahead, h.length_eq, h.lastEnd, h.delimiters, h.diagnostics⟩
  bump h := h.bump
  remember h k :=
    ⟨h.stands, h.length_eq, h.lastEnd, List.forall_mem_cons.mpr ⟨h.currentSpan, h.delimiters⟩, h.diagnostics⟩
  forget h _ hds := h.forget hds
  claimNext h _ hds _ hr := (h.forget hds).claim _ (hr.mono fun _ hd => ⟨h.claimsNext hd, Issue.isSyntactic_of_isAtNext hd.issue⟩)
  claimGap h _ hd := h.claim _ (.ok ⟨h.claimsGap hd, by rw [hd.issue]; rfl⟩)

end Parse.State

open Parse State in
/-- What a parse reports points into its source and is about the syntax. -/
theorem pointsInto_of_parse {limits : Limits} {source : String} {p : Parsed} (hparse : parse limits source = .ok p) :
    ∀ d ∈ p.diagnostics, d.PointsInto source ∧ d.issue.isSyntactic = true := by
  obtain ⟨s, hrun, hds⟩ := run_of_parse hparse
  have hstart := pointing_start limits (lex source)
  obtain ⟨-, hpointing⟩ := (watched_pointing (lex source)).bisimulation.run ⟨rfl, hstart⟩ (entering_start _) s s hrun hrun
  intro d hd
  rw [hds] at hd
  obtain ⟨hpoints, hissue⟩ := hpointing.diagnostics d (List.mem_reverse.mp hd)
  rw [Token.joined, join_text_lex] at hpoints
  exact ⟨hpoints, hissue⟩

end Transducer
