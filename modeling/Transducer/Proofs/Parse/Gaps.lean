import Transducer.Proofs.Parse.Renewal
import Transducer.Proofs.Parse.Shape
import Transducer.Proofs.Token.Insertion

/-!
# Where a `;` is missing

A missing `;` is reported right behind the last token that is no trivia. When it is reported, no string is open. So the
place lies between two groups of tokens, whatever was skipped before.
-/

namespace Transducer

namespace Token

/-- The tokens can be cut at the offset: behind a token that is no trivia, and outside of strings. -/
def CutAt (tokens : List Token) (o : Nat) : Prop :=
  ∃ before after, tokens = before ++ after ∧ totalWidth before = o ∧ before ≠ [] ∧ EndsSignificant before ∧ Paired after

end Token

theorem Paired.trivia_append {ts us : List Token} (hts : ∀ t ∈ ts, t.isTrivia = true) (hus : Paired us) :
    Paired (ts ++ us) := by
  induction ts with
  | nil => exact hus
  | cons t ts ih =>
      obtain ⟨ht, hts⟩ := List.forall_mem_cons.mp hts
      exact .plain (Token.not_isStringPart_of_isTrivia ht) (ih hts)

namespace Parse

namespace State

variable {tokens : List Token} {s t : State}

theorem not_isTrivia_of_ahead {token : Token} {ts : List Token} (h : s.ahead = token :: ts) :
    token.isTrivia = false := by
  have hhead := List.head?_dropWhile_not Token.isTrivia s.rest
  rw [← State.ahead, h] at hhead
  exact hhead

/-- What has been consumed ends in a token that is no trivia, with some trivia behind it. -/
def Trails (tokens : List Token) (s : State) : Prop :=
  ∃ before trivia, tokens = before ++ (trivia ++ s.rest) ∧ (∀ t ∈ trivia, t.isTrivia = true) ∧
    s.offset = Token.totalWidth before + Token.totalWidth trivia ∧ Token.EndsSignificant before ∧
    s.lastEnd = if before = [] then none else some (Token.totalWidth before)

namespace Trails

theorem flush (h : s.Trails tokens) : s.flush.Trails tokens := by
  obtain ⟨before, trivia, htokens, htrivia, hoffset, hlast, hend⟩ := h
  refine ⟨before, trivia ++ s.trivia, ?_, ?_, ?_, hlast, hend⟩
  · rw [htokens, ← s.trivia_append_ahead, List.append_assoc]
    rfl
  · exact List.forall_mem_append.mpr ⟨htrivia, s.isTrivia_of_mem_trivia⟩
  · rw [Token.totalWidth_append, ← Nat.add_assoc, ← hoffset]
    rfl

theorem bump (h : s.Trails tokens) (hbump : s.bump = .ok t) : t.Trails tokens ∧ t.lastEnd ≠ none := by
  obtain ⟨token, ts, hahead, rfl⟩ := bump_eq_ok hbump
  obtain ⟨before, trivia, htokens, htrivia, hoffset, -, -⟩ := h
  have hwidth : s.offset + Token.totalWidth s.trivia + token.width =
      Token.totalWidth (before ++ (trivia ++ s.trivia) ++ [token]) := by
    simp only [hoffset, Token.totalWidth_append, Token.totalWidth_cons, Token.totalWidth_nil]
    omega
  refine ⟨⟨before ++ (trivia ++ s.trivia) ++ [token], [], ?_, List.forall_mem_nil _, hwidth, ?_, ?_⟩, by simp⟩
  · rw [htokens, ← s.trivia_append_ahead, hahead]
    simp only [List.append_assoc, List.singleton_append, List.nil_append]
  · intro last hmem
    rw [List.getLast?_concat] at hmem
    cases hmem
    exact not_isTrivia_of_ahead hahead
  · rw [if_neg (by simp), hwidth]

/-- Outside of strings the tokens can be cut behind the last one that was consumed. -/
theorem cutAt (h : s.Trails tokens) (hpaired : Paired s.rest) {n : Nat} (hn : s.lastEnd = some n) :
    Token.CutAt tokens n := by
  obtain ⟨before, trivia, htokens, htrivia, -, hlast, hend⟩ := h
  rw [hn] at hend
  split at hend
  · cases hend
  · rename_i hne
    exact ⟨before, trivia ++ s.rest, htokens, (Option.some.inj hend).symm, hne, hlast, .trivia_append htrivia hpaired⟩

end Trails

theorem trails_start (limits : Limits) (tokens : List Token) : (start limits tokens).Trails tokens :=
  ⟨[], [], rfl, List.forall_mem_nil _, rfl, fun _ h => (nomatch h), rfl⟩

/-- Every `;` was reported missing at a place of the given kind. -/
def Misses (place : Nat → Prop) (s : State) : Prop :=
  ∀ d ∈ s.diagnostics, d.issue = .expectedSemicolon → place d.span.start

/-- Every `;` was reported missing where the tokens can be cut. -/
structure AtCuts (tokens : List Token) (s : State) : Prop where
  trails : s.Trails tokens
  misses : s.Misses (Token.CutAt tokens)

/-- The same, as long as it is known of the last token consumed. -/
structure AtCutsOrHere (tokens : List Token) (s : State) : Prop where
  trails : s.Trails tokens
  misses : s.Misses fun n => Token.CutAt tokens n ∨ s.lastEnd = some n

namespace AtCuts

theorem congr (h : s.AtCuts tokens) (heq : t.record = s.record) : t.AtCuts tokens := by
  cases s
  cases t
  obtain ⟨rfl, rfl, rfl, rfl, rfl, rfl, rfl⟩ := Record.mk.inj heq
  exact ⟨h.trails, h.misses⟩

/-- An error that is no missing `;` does not count. -/
theorem claim (h : s.AtCuts tokens) (ds : List Delimiter) {position : Nat} {r : Except Fault Diagnostic}
    (hr : Ensures r fun d => d.issue ≠ .expectedSemicolon) :
    Ensures ({ s with delimiters := ds }.claim position r) fun t => t.AtCuts tokens ∧ t.lastEnd = s.lastEnd := by
  intro t ht
  obtain ⟨rfl, -⟩ | ⟨d, hd, -, rfl⟩ := claim_eq_ok ht
  · exact ⟨⟨h.trails, h.misses⟩, rfl⟩
  · exact ⟨⟨h.trails, List.forall_mem_cons.mpr ⟨fun hissue => absurd hissue (hr d hd), h.misses⟩⟩, rfl⟩

theorem bump (h : s.AtCuts tokens) : Ensures s.bump fun t => t.AtCuts tokens ∧ t.lastEnd ≠ none := by
  intro t ht
  obtain ⟨htrails, hlast⟩ := h.trails.bump ht
  obtain ⟨token, ts, -, rfl⟩ := bump_eq_ok ht
  exact ⟨⟨htrails, h.misses⟩, hlast⟩

theorem claimGap (h : s.AtCuts tokens) (hlast : s.lastEnd ≠ none) {d : Diagnostic} (hd : s.ClaimsGap d) :
    Ensures (s.claim s.gap (.ok d)) fun t => t.AtCutsOrHere tokens ∧ t.lastEnd ≠ none := by
  have hmisses : s.Misses fun n => Token.CutAt tokens n ∨ s.lastEnd = some n :=
    fun d hd hissue => .inl (h.misses d hd hissue)
  have hgap : s.lastEnd = some s.gap := by
    obtain ⟨n, hn⟩ := Option.ne_none_iff_exists'.mp hlast
    rw [State.gap, hn]
    rfl
  intro t ht
  obtain ⟨rfl, -⟩ | ⟨d', hd', -, rfl⟩ := claim_eq_ok ht
  · exact ⟨⟨h.trails, hmisses⟩, hlast⟩
  · cases hd'
    refine ⟨⟨h.trails, List.forall_mem_cons.mpr ⟨fun _ => .inr ?_, hmisses⟩⟩, hlast⟩
    rw [hd.span]
    exact hgap

end AtCuts

theorem AtCutsOrHere.congr (h : s.AtCutsOrHere tokens) (heq : t.record = s.record) : t.AtCutsOrHere tokens := by
  cases s
  cases t
  obtain ⟨rfl, rfl, rfl, rfl, rfl, rfl, rfl⟩ := Record.mk.inj heq
  exact ⟨h.trails, h.misses⟩

theorem AtCutsOrHere.settle (h : s.AtCutsOrHere tokens) (hpaired : Paired s.rest) : s.AtCuts tokens :=
  ⟨h.trails, fun d hd hissue => (h.misses d hd hissue).elim id (h.trails.cutAt hpaired)⟩

end State

open State

theorem ne_expectedSemicolon_of_again {s : State} {d : Diagnostic}
    (h : d.issue.isStructural = true ∨ d.issue = .unexpectedToken ∧ d.span = s.currentSpan) :
    d.issue ≠ .expectedSemicolon := by
  rintro hissue
  rw [hissue] at h
  rcases h with h | ⟨h, -⟩ <;> cases h

theorem renewed_atCuts (tokens : List Token) :
    Renewed (AtCuts tokens) (fun s => s.AtCuts tokens ∧ s.lastEnd ≠ none)
      (fun s => s.AtCutsOrHere tokens ∧ s.lastEnd ≠ none) where
  congr := fun ⟨h, hlast⟩ heq => ⟨h.congr heq, fun hnone => hlast ((congrArg Record.lastEnd heq).symm.trans hnone)⟩
  congrEnded := fun ⟨h, hlast⟩ heq => ⟨h.congr heq, fun hnone => hlast ((congrArg Record.lastEnd heq).symm.trans hnone)⟩
  ended := fun ⟨h, hlast⟩ => ⟨⟨h.trails, fun d hd hissue => .inl (h.misses d hd hissue)⟩, hlast⟩
  flush := fun ⟨h, hlast⟩ => ⟨⟨h.trails.flush, h.misses⟩, hlast⟩
  bump h := h.1.bump
  remember := fun ⟨h, hlast⟩ _ => ⟨⟨h.trails, h.misses⟩, hlast⟩
  forget := fun ⟨h, hlast⟩ _ _ => ⟨⟨h.trails, h.misses⟩, hlast⟩
  claimNext := fun ⟨h, hlast⟩ ds _ _ hr =>
    (h.claim ds (hr.mono fun _ hd => Issue.ne_expectedSemicolon_of_isAtNext hd.issue)).mono
      fun _ ⟨ht, hsame⟩ => ⟨ht, hsame ▸ hlast⟩
  claimGap := fun ⟨h, hlast⟩ _ hd => h.claimGap hlast hd
  congrIdle h heq := h.congr heq
  flushIdle h := ⟨h.trails.flush, h.misses⟩
  withDelimiters h _ := ⟨h.trails, h.misses⟩
  claimAgain h _ hr := (h.claim _ (hr.mono fun _ => ne_expectedSemicolon_of_again)).mono fun _ ht => ht.1
  renew h := h.bump
  idle h := h.1

/-! ### Steps -/

variable {tokens : List Token} {origin s : State} {goals : List Goal}

/-- A token has been consumed, or the goals on the agenda are idle. -/
def ReportsCuts (tokens : List Token) (goals : List Goal) (s : State) : Prop :=
  s.AtCuts tokens ∧ (s.lastEnd ≠ none ∨ ∀ g ∈ goals, g.isIdle = true)

/-- Goals that end a statement and those that read one work outside of strings. -/
theorem paired_of_settled {g : Goal} (hsettled : Settled origin (g :: goals) s) (hskip : g ≠ .skip)
    (hstopped : g.isTolerant = true → s.isStopped = false) : Paired s.rest := by
  cases hsettled.steady with
  | inOrder hpaired => exact hpaired
  | skipping _ _ => exact absurd rfl hskip
  | stopped hstop htolerant => cases (hstopped (htolerant g List.mem_cons_self)).symm.trans hstop

theorem atCuts_importStatement {inBody : Bool} (h : s.AtCuts tokens)
    (hsettled : Settled origin (.statements inBody :: goals) s) (hstopped : s.isStopped = false)
    (hcurrent : s.current = .kwImport) :
    Ensures (importStatement s) fun t => t.AtCuts tokens ∧ t.lastEnd ≠ none := by
  have hpaired : Paired s.rest := paired_of_settled hsettled (by simp) fun _ => hstopped
  intro t ht
  have hfits := ((hsettled.fits.pair hpaired).importStatement hcurrent).of_eq_ok ht
  obtain ⟨hhere, hlast⟩ := (renewed_atCuts tokens).importStatement h t ht
  exact ⟨hhere.settle (hfits.paired trivial), hlast⟩

theorem atCuts_expectSemicolon {form : Form} (h : s.AtCuts tokens) (hlast : s.lastEnd ≠ none)
    (hsettled : Settled origin (.endStatement form :: goals) s) (detail : String) :
    Ensures (s.expectSemicolon detail) fun t => t.AtCuts tokens ∧ t.lastEnd ≠ none := by
  have hpaired : Paired s.rest := paired_of_settled hsettled (by simp) fun htolerant => nomatch htolerant
  by_cases hcurrent : s.current = .semicolon
  · rw [State.expectSemicolon, if_pos (looksAt_iff.mpr hcurrent)]
    exact h.bump
  · intro t ht
    obtain ⟨hhere, hlast'⟩ := (renewed_atCuts tokens).expectSemicolon ⟨h, hlast⟩ hcurrent detail t ht
    have hrest : t.rest = s.rest := by
      rw [State.expectSemicolon, if_neg (mt looksAt_iff.mp hcurrent)] at ht
      exact s.ensures_claim _ _ t ht
    exact ⟨hhere.settle (hrest ▸ hpaired), hlast'⟩

theorem ReportsCuts.act {g : Goal} (h : ReportsCuts tokens (g :: goals) s) (hsettled : Settled origin (g :: goals) s)
    (hentering : Entering (g :: goals) s) :
    Ensures (Parse.act g s) fun a => ReportsCuts tokens (a.1 ++ goals) a.2 := by
  obtain ⟨hcuts, hlast | hidle⟩ := h
  · have hwatched := (renewed_atCuts tokens).toWatched
    refine (hwatched.act ⟨hcuts, hlast⟩ hentering ?_ ?_).mono fun _ ⟨ha, hlast⟩ => ⟨ha, .inl hlast⟩
    · rintro inBody rfl
      exact atCuts_importStatement hcuts hsettled
    · rintro form rfl -
      exact atCuts_expectSemicolon hcuts hlast hsettled _
  · obtain ⟨hg, hgoals⟩ := List.forall_mem_cons.mp hidle
    refine ((renewed_atCuts tokens).act_idle hcuts hg ?_).mono fun a ha => ?_
    · rintro inBody rfl hstopped hcurrent
      exact (atCuts_importStatement hcuts hsettled hstopped hcurrent).mono fun _ => And.left
    · obtain ⟨ha, hlast⟩ | ⟨ha, hnew⟩ := ha
      · exact ⟨ha, .inl hlast⟩
      · refine ⟨ha, .inr (List.forall_mem_append.mpr ⟨fun g hg => ?_, hgoals⟩)⟩
        exact isIdle_of_isTolerant (hnew g hg)

/-- A run reports a missing `;` only at cuts between its tokens. -/
theorem ReportsCuts.run (h : ReportsCuts tokens goals s) (hsettled : Settled origin goals s)
    (hentering : Entering goals s) : Ensures (Parse.run goals s) (AtCuts tokens) := by
  fun_induction Parse.run goals s with
  | case1 s => exact .ok h.1
  | case2 g goals s fault hact => exact .error
  | case3 g goals s new t hact ih =>
      exact ih (h.act hsettled hentering (new, t) hact) (hsettled.act.of_eq_ok hact) (hentering.act (new, t) hact)

/-- A missing `;` is reported behind a token that is no trivia, and outside of strings. -/
theorem cutAt_of_parse {limits : Limits} {source : String} {p : Parsed} (hparse : parse limits source = .ok p)
    {d : Diagnostic} (hd : d ∈ p.diagnostics) (hissue : d.issue = .expectedSemicolon) :
    Token.CutAt (lex source) d.span.start := by
  obtain ⟨s, hrun, hds⟩ := run_of_parse hparse
  have hstart : ReportsCuts (lex source) [.statements false] (.start limits (lex source)) :=
    ⟨⟨trails_start limits _, fun _ hd => nomatch hd⟩, .inr (List.forall_mem_singleton.mpr rfl)⟩
  have hend := hstart.run (Settled.start limits (paired_lex source)) (entering_start _) s hrun
  rw [hds] at hd
  exact hend.misses d (List.mem_reverse.mp hd) hissue

end Parse

end Transducer
