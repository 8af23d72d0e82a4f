import Transducer.Command.Outcome
import Transducer.Proofs.Diagnostic.Counts
import Transducer.Proofs.Diagnostic.Drawing
import Transducer.Proofs.Diagnostic.Stability
import Transducer.Proofs.Program.Pointing

/-!
# What the commands have in common

The commands look at a compilation in different ways and decide on all of its diagnostics whether it succeeded, while
what they report is what is left of them. Exit codes agree because they ask the same question: whether the source
compiles without errors, or without anything to report for a strict check. A failure is never silent because something
is always left: if there are errors an error is, and if there are warnings only one of them is.

What is left is drawn, by whatever backend. A warning is about tokens, so its picture can always be drawn, and a source
that is valid is never refused because of it. An error may be about an empty place in front of a character of several
bytes, which is cut when the place is widened; then the program may break down instead.
-/

namespace Transducer

theorem Diagnostic.hasErrors_append (ds es : List Diagnostic) :
    hasErrors (ds ++ es) = (hasErrors ds || hasErrors es) := List.any_append

theorem Compilation.isValid_eq (c : Compilation) : c.isValid = !Diagnostic.hasErrors c.diagnostics := by
  rw [isValid, diagnostics, Diagnostic.hasErrors_append, Bool.not_or]

theorem Compilation.isValid_iff_errorCount (c : Compilation) :
    c.isValid = true ↔ Diagnostic.errorCount c.diagnostics = 0 := by
  have hpos : 0 < Diagnostic.errorCount c.diagnostics ↔ _ := Diagnostic.errorCount_pos_iff
  rw [isValid_eq, Bool.not_eq_true', ← Bool.not_eq_true, ← hpos]
  omega

/-- There is a program precisely if no error is counted, and a refusal never speaks of no errors. -/
theorem Compilation.toProgram_cases (c : Compilation) :
    (Diagnostic.errorCount c.diagnostics = 0 ∧ c.toProgram = .ok c.program) ∨
      (0 < Diagnostic.errorCount c.diagnostics ∧ c.toProgram = .error c.refusal) := by
  unfold toProgram
  split
  · rename_i hvalid
    exact .inl ⟨c.isValid_iff_errorCount.mp hvalid, rfl⟩
  · rename_i hvalid
    exact .inr ⟨Nat.pos_of_ne_zero fun hzero => hvalid (c.isValid_iff_errorCount.mpr hzero), rfl⟩

theorem compile_cases (options : Options) (source : String) :
    (∃ c, compile options source = .ok c) ∨ ∃ e, compile options source = .error (.limit e) := by
  obtain ⟨p, hparse⟩ | ⟨e, hparse, -⟩ := parse_returns options.limits source
  · obtain ⟨built, hbuilt, -⟩ := Builder.run_returns options.alphabet (Stmt.ofRoot p.root)
    exact .inl ⟨_, compile_eq hparse hbuilt⟩
  · refine .inr ⟨e, ?_⟩
    rw [compile, hparse]
    rfl

theorem source_of_compile {options : Options} {source : String} {c : Compilation}
    (h : compile options source = .ok c) : c.source = source := by
  obtain ⟨p, built, -, -, rfl⟩ := compile_eq_ok h
  rfl

/-- What is reported about a valid source is about tokens of it. -/
theorem fits_of_isValid {options : Options} {source : String} {c : Compilation} (h : compile options source = .ok c)
    (hvalid : c.isValid = true) (path : Option String) : ∀ d ∈ c.diagnostics, ∀ p ∈ d.panels source path, p.Fits := by
  have hnone : ∀ d ∈ c.diagnostics, d.isError = false := by
    rw [Compilation.isValid_eq, Bool.not_eq_true'] at hvalid
    exact fun d hd => Bool.eq_false_iff.mpr (List.any_eq_false.mp hvalid d hd)
  have hclean : c.parseDiagnostics = [] := by
    refine List.eq_nil_iff_forall_not_mem.mpr fun d hd => ?_
    have herror := hnone d (List.mem_append_left _ hd)
    obtain ⟨p, built, hparse, -, rfl⟩ := compile_eq_ok h
    have hsyntactic := (pointsInto_of_parse hparse d hd).2
    rw [Diagnostic.isError, Diagnostic.severity, Issue.severity_of_isSyntactic hsyntactic] at herror
    cases herror
  intro d hd
  have hsourced := sourced_of_compile h d hd
  obtain ⟨hwide, hrelated⟩ := hsourced.warns hclean (hnone d hd)
  exact Diagnostic.fits_panels_of_wide hsourced.points.span hwide hrelated path

/-! ### Reports -/

section Mapping

variable {α β : Type} {f : α → Option β} {xs : List α} {ys : List β}

theorem mem_of_mapM (h : xs.mapM f = some ys) {x : α} (hx : x ∈ xs) : ∃ y ∈ ys, f x = some y := by
  induction xs generalizing ys with
  | nil => cases hx
  | cons first xs ih =>
      simp only [List.mapM_cons, Option.bind_eq_bind, Option.bind_eq_some_iff, Option.pure_def, Option.some.injEq] at h
      obtain ⟨y, hy, zs, hzs, rfl⟩ := h
      obtain rfl | hx := List.mem_cons.mp hx
      · exact ⟨y, List.mem_cons_self, hy⟩
      · obtain ⟨z, hz, heq⟩ := ih hzs hx
        exact ⟨z, List.mem_cons_of_mem y hz, heq⟩

theorem mapM_returns (h : ∀ x ∈ xs, ∃ y, f x = some y) : ∃ ys, xs.mapM f = some ys := by
  induction xs with
  | nil => exact ⟨[], rfl⟩
  | cons x xs ih =>
      obtain ⟨⟨y, hy⟩, hxs⟩ := List.forall_mem_cons.mp h
      obtain ⟨ys, hys⟩ := ih hxs
      exact ⟨y :: ys, by rw [List.mapM_cons, hy, hys]; rfl⟩

end Mapping

namespace Diagnostic

variable {draw : Drawing} {source text : String} {path : Option String} {colored summary : Bool} {ds : List Diagnostic}

theorem shows_joined (style : ReportStyle) (ds : List Diagnostic) {entry : String} {entries : List String}
    (h : entry ∈ entries) : Shows (joined style ds entries) entry := by
  have hentries := Shows.intercalate h ⟨"", "", by rw [String.empty_append, String.append_empty]⟩ "\n"
  unfold joined
  dsimp only
  split
  · exact (hentries.append_right "\n").append_right _
  · exact hentries

theorem shownIn_report (hdraw : draw.Faithful) (h : report draw ⟨some source, path, colored, summary⟩ ds = some text) :
    ∀ d ∈ ds, d.ShownIn draw colored source path text := by
  intro d hd
  obtain ⟨entries, hentries, rfl⟩ := Option.map_eq_some_iff.mp h
  obtain ⟨picture, hmem, hpicture⟩ := mem_of_mapM hentries hd
  exact shownIn_of_draw hdraw hpicture (shows_joined _ ds hmem)

theorem report_returns (h : ∀ d ∈ ds, ∃ picture, draw colored (d.panels source path) = some picture) :
    ∃ text, report draw ⟨some source, path, colored, summary⟩ ds = some text := by
  obtain ⟨entries, hentries⟩ := mapM_returns h
  exact ⟨_, congrArg (Option.map _) hentries⟩

end Diagnostic

/-- What is relied on of a backend. -/
structure Backend.Faithful (b : Backend) : Prop where
  draws : b.draw.Faithful
  serializes : ∀ p, ∃ json, b.serialize p = .ok json

theorem Backend.faithful_standard : Backend.standard.Faithful :=
  ⟨Snippet.faithful_render, fun p => ⟨p.toJson.pretty, rfl⟩⟩

namespace Invocation

variable {b : Backend} {i : Invocation} {terminal : Bool} {text report : String} {limit : Nat} {c : Compilation}

theorem reportOn_of_nil (h : c.diagnostics = []) : i.reportOn b terminal c = some "" := by
  rw [reportOn, h, Diagnostic.filtered_nil]

theorem eq_empty_of_reportOn (h : i.reportOn b terminal c = some report) : report = "" ↔ c.diagnostics = [] := by
  unfold reportOn at h
  constructor
  · rintro rfl
    by_contra hne
    split at h
    · exact Diagnostic.filtered_ne_nil hne ‹_›
    · obtain ⟨drawn, -, hempty⟩ := Option.map_eq_some_iff.mp h
      exact absurd (String.append_eq_empty_iff.mp hempty).2 (by decide)
  · intro hnil
    rw [hnil, Diagnostic.filtered_nil] at h
    exact (Option.some.inj h).symm

theorem shownIn_reportOn (hb : b.Faithful) (h : i.reportOn b terminal c = some report) {d : Diagnostic}
    (hd : d ∈ Diagnostic.filtered c.diagnostics) :
    d.ShownIn b.draw (i.isColored terminal) c.source (some i.input.name) report := by
  unfold reportOn at h
  split at h
  · rename_i hnone
    rw [hnone] at hd
    cases hd
  · obtain ⟨drawn, hdrawn, rfl⟩ := Option.map_eq_some_iff.mp h
    obtain ⟨picture, hpicture, hpart⟩ := (Diagnostic.shownIn_report hb.draws hdrawn d hd).picture
    exact Diagnostic.shownIn_of_draw hb.draws hpicture (hpart.append_right "\n")

theorem reportOn_returns (hb : b.Faithful) (terminal : Bool)
    (h : ∀ d ∈ Diagnostic.filtered c.diagnostics, ∀ p ∈ d.panels c.source (some i.input.name), p.Fits) :
    ∃ report, i.reportOn b terminal c = some report := by
  unfold reportOn
  split
  · exact ⟨"", rfl⟩
  · have hpictures : ∀ d ∈ Diagnostic.filtered c.diagnostics, ∃ picture,
        b.draw (i.isColored terminal) (d.panels c.source (some i.input.name)) = some picture :=
      fun d hd => hb.draws.returns _ _ (h d hd)
    obtain ⟨drawn, hdrawn⟩ := Diagnostic.report_returns hpictures
    exact ⟨drawn ++ "\n", by rw [hdrawn, Option.map_some]⟩

theorem reportOn_of_isValid (hb : b.Faithful) (terminal : Bool) (hc : compile i.options text = .ok c)
    (hvalid : c.isValid = true) : ∃ report, i.reportOn b terminal c = some report := by
  refine reportOn_returns hb terminal fun d hd => ?_
  rw [source_of_compile hc]
  exact fits_of_isValid hc hvalid _ d ((Diagnostic.filtered_sublist _).subset hd)

/-! ### Answers -/

/-- What a command asks of a compilation. -/
def passes (i : Invocation) (c : Compilation) : Bool :=
  match i.command with
  | .compile => c.isValid
  | .check => i.accepts c
  | .dump => i.has .cst || c.isValid

theorem outcome_of_limit {e : LimitError} (h : compile i.options text = .error (.limit e)) :
    i.outcome b terminal (.ok text) = .failed e.message := by
  rw [outcome, outcomeOf, h]

theorem outcome_of_compile (h : compile i.options text = .ok c) :
    i.outcome b terminal (.ok text) = i.outcomeFor b terminal c := by
  rw [outcome, outcomeOf, h]

theorem outcomeFor_of_not_passes (hreport : i.reportOn b terminal c = some report) (hpasses : i.passes c = false) :
    i.outcomeFor b terminal c = ⟨1, "", report⟩ := by
  unfold passes at hpasses
  unfold outcomeFor
  cases hcommand : i.command with
  | compile =>
      simp only [hcommand] at hpasses ⊢
      rw [hreport, Option.map_some, Option.getD_some, compileOutcome, hpasses, if_neg Bool.false_ne_true]
  | check =>
      simp only [hcommand] at hpasses ⊢
      rw [hpasses, if_neg Bool.false_ne_true, hreport, Option.map_some, Option.getD_some]
  | dump =>
      simp only [hcommand, Bool.or_eq_false_iff] at hpasses ⊢
      rw [hreport, Option.map_some, Option.getD_some, dumpOutcome, hpasses.1, hpasses.2]
      rfl

/-- A command that passes answers with code 0 if it can report. -/
theorem code_of_passes (hb : b.Faithful) (hreport : i.reportOn b terminal c = some report)
    (hpasses : i.passes c = true) :
    (i.outcomeFor b terminal c).code = 0 := by
  unfold passes at hpasses
  unfold outcomeFor
  cases hcommand : i.command with
  | compile =>
      simp only [hcommand] at hpasses ⊢
      rw [hreport, Option.map_some, Option.getD_some, compileOutcome, if_pos hpasses]
  | check =>
      simp only [hcommand] at hpasses ⊢
      rw [if_pos hpasses]
  | dump =>
      simp only [hcommand] at hpasses ⊢
      rw [hreport, Option.map_some, Option.getD_some]
      unfold dumpOutcome
      cases htree : i.has .cst with
      | true => rfl
      | false =>
          rw [htree, Bool.false_or] at hpasses
          rw [hpasses, if_neg Bool.false_ne_true, Bool.not_true, if_neg Bool.false_ne_true]
          split
          · obtain ⟨json, hjson⟩ := hb.serializes c.program
            rw [hjson]
          · rfl

/-- Without a report there is no answer, but for a check that passes, which needs none. -/
theorem outcomeFor_of_none (hreport : i.reportOn b terminal c = none) :
    i.outcomeFor b terminal c = .crashed ∨ (i.outcomeFor b terminal c).code = 0 ∧ i.passes c = true := by
  unfold passes outcomeFor
  cases hcommand : i.command with
  | compile => exact .inl (by simp only [hreport, Option.map_none, Option.getD_none])
  | dump => exact .inl (by simp only [hreport, Option.map_none, Option.getD_none])
  | check =>
      cases haccepts : i.accepts c with
      | true => exact .inr ⟨by simp only [if_true], rfl⟩
      | false => exact .inl (by simp only [Bool.false_eq_true, if_false, hreport, Option.map_none, Option.getD_none])

/-- A command that asks for a valid compilation succeeds precisely if it gets what it asks for. -/
theorem code_eq_zero_iff (hb : b.Faithful)
    (hvalid : ∀ c, i.passes c = true → c.isValid = true) :
    (i.outcome b terminal (.ok text)).code = 0 ↔ ∃ c, compile i.options text = .ok c ∧ i.passes c = true := by
  obtain ⟨c, hc⟩ | ⟨e, he⟩ := compile_cases i.options text
  · rw [outcome_of_compile hc]
    cases hpasses : i.passes c with
    | true =>
        obtain ⟨report, hreport⟩ := reportOn_of_isValid hb terminal hc (hvalid c hpasses)
        exact iff_of_true (code_of_passes hb hreport hpasses) ⟨c, hc, hpasses⟩
    | false =>
        have hcode : (i.outcomeFor b terminal c).code ≠ 0 := by
          cases hreport : i.reportOn b terminal c with
          | some report => simp [outcomeFor_of_not_passes hreport hpasses]
          | none =>
              obtain hcrashed | ⟨-, hpassed⟩ := outcomeFor_of_none hreport
              · simp [hcrashed, Outcome.crashed]
              · exact absurd hpassed (Bool.eq_false_iff.mp hpasses)
        refine iff_of_false hcode ?_
        rintro ⟨c', hc', hpassed⟩
        rw [hc] at hc'
        cases hc'
        exact absurd hpassed (Bool.eq_false_iff.mp hpasses)
  · rw [outcome_of_limit he, he]
    simp [Outcome.failed]

theorem strict_of_not_passes (hpasses : i.passes c = false) (hvalid : c.isValid = true) :
    i.command = .check ∧ i.has .strict = true ∧ c.diagnostics ≠ [] := by
  unfold passes accepts at hpasses
  rw [hvalid, Bool.or_true] at hpasses
  split at hpasses
  · cases hpasses
  · rename_i hcommand
    split at hpasses
    · rename_i hstrict
      exact ⟨hcommand, hstrict, List.isEmpty_eq_false_iff.mp hpasses⟩
    · cases hpasses
  · cases hpasses

/-- How a report explains that a command failed on a text: it says that a limit was hit, it shows an error that is left
when consequences are removed, or there is none and it shows a warning, which a strict check does not allow. -/
inductive Explains (b : Backend) (i : Invocation) (terminal : Bool) (text stderr : String) : Prop where
  | limit {e : LimitError} (he : compile i.options text = .error (.limit e)) (h : stderr = s!"error: {e.message}\n")
  | error {c : Compilation} {d : Diagnostic} (hc : compile i.options text = .ok c)
      (hd : d ∈ Diagnostic.filtered c.diagnostics) (herror : d.isError = true)
      (hshown : d.ShownIn b.draw (i.isColored terminal) text (some i.input.name) stderr)
  | strict {c : Compilation} {d : Diagnostic} (hc : compile i.options text = .ok c) (hvalid : c.isValid = true)
      (hstrict : i.command = .check ∧ i.has .strict = true) (hd : d ∈ Diagnostic.filtered c.diagnostics)
      (hshown : d.ShownIn b.draw (i.isColored terminal) text (some i.input.name) stderr)

/-- The text has errors, and a diagnostic that is left needs a picture in which a character is cut. -/
structure Undrawable (i : Invocation) (text : String) : Prop where
  cuts : ∃ c, compile i.options text = .ok c ∧ c.isValid = false ∧
    ∃ d ∈ Diagnostic.filtered c.diagnostics, ∃ p ∈ d.panels text (some i.input.name), ¬p.Fits
  several : ∃ c ∈ text.toList, c.utf8Size ≠ 1

theorem undrawable_of_none (hb : b.Faithful) (hc : compile i.options text = .ok c)
    (hreport : i.reportOn b terminal c = none) : i.Undrawable text := by
  have hcuts : ∃ d ∈ Diagnostic.filtered c.diagnostics, ∃ p ∈ d.panels text (some i.input.name), ¬p.Fits := by
    by_contra hfits
    push Not at hfits
    rw [← source_of_compile hc] at hfits
    obtain ⟨report, hsome⟩ := reportOn_returns hb terminal hfits
    rw [hreport] at hsome
    cases hsome
  refine ⟨⟨c, hc, Bool.eq_false_iff.mpr fun hvalid => ?_, hcuts⟩, ?_⟩
  · obtain ⟨report, hsome⟩ := reportOn_of_isValid hb terminal hc hvalid
    rw [hreport] at hsome
    cases hsome
  · by_contra hsingle
    push Not at hsingle
    obtain ⟨d, hd, p, hp, hcut⟩ := hcuts
    have hpoints := (sourced_of_compile hc d ((Diagnostic.filtered_sublist _).subset hd)).points
    exact hcut (Diagnostic.fits_panels_of_single hsingle hpoints _ p hp)

theorem explains_of_report (hb : b.Faithful) (hc : compile i.options text = .ok c)
    (hreport : i.reportOn b terminal c = some report) (hpasses : i.passes c = false) :
    report ≠ "" ∧ Explains b i terminal text report := by
  have hshown {d : Diagnostic} (hd : d ∈ Diagnostic.filtered c.diagnostics) :
      d.ShownIn b.draw (i.isColored terminal) text (some i.input.name) report := by
    rw [← source_of_compile hc]
    exact shownIn_reportOn hb hreport hd
  cases hvalid : c.isValid with
  | true =>
      obtain ⟨hcommand, hstrict, hsome⟩ := strict_of_not_passes hpasses hvalid
      obtain ⟨d, hd⟩ := List.exists_mem_of_ne_nil _ (Diagnostic.filtered_ne_nil hsome)
      exact ⟨mt (eq_empty_of_reportOn hreport).mp hsome, .strict hc hvalid ⟨hcommand, hstrict⟩ hd (hshown hd)⟩
  | false =>
      have herrors : Diagnostic.hasErrors c.diagnostics = true := by
        rwa [Compilation.isValid_eq, Bool.not_eq_false'] at hvalid
      have hsome : c.diagnostics ≠ [] := by
        intro hnone
        rw [hnone] at herrors
        cases herrors
      obtain ⟨d, hd, herror⟩ := Diagnostic.exists_error_mem_filtered herrors
      exact ⟨mt (eq_empty_of_reportOn hreport).mp hsome, .error hc hd herror (hshown hd)⟩

theorem outcome_cases (hb : b.Faithful) :
    (i.outcome b terminal (.ok text)).code = 0 ∨
      ((i.outcome b terminal (.ok text)).code = 1 ∧ (i.outcome b terminal (.ok text)).stderr ≠ "" ∧
        Explains b i terminal text (i.outcome b terminal (.ok text)).stderr) ∨
      (i.outcome b terminal (.ok text)).code = 101 ∧ i.Undrawable text := by
  obtain ⟨c, hc⟩ | ⟨e, he⟩ := compile_cases i.options text
  · rw [outcome_of_compile hc]
    cases hreport : i.reportOn b terminal c with
    | none =>
        obtain hcrashed | ⟨hcode, -⟩ := outcomeFor_of_none hreport
        · exact .inr (.inr ⟨by rw [hcrashed, Outcome.crashed], undrawable_of_none hb hc hreport⟩)
        · exact .inl hcode
    | some report =>
        cases hpasses : i.passes c with
        | true => exact .inl (code_of_passes hb hreport hpasses)
        | false =>
            rw [outcomeFor_of_not_passes hreport hpasses]
            exact .inr (.inl ⟨rfl, explains_of_report hb hc hreport hpasses⟩)
  · rw [outcome_of_limit he]
    refine .inr (.inl ⟨rfl, ?_, .limit he rfl⟩)
    cases e <;> decide

/-! ### One text, several commands -/

/-- A command on a text that stands on the command line, with a bound for the number of tokens. -/
structure IsInline (i : Invocation) (command : Command) (text : String) (limit : Nat) : Prop where
  command_eq : i.command = command
  input_eq : i.input = .text text
  limit_eq : i.tokenLimit = limit

/-- The answer to an invocation whose text stands on the command line, given who reports to a terminal. -/
def answerOn (b : Backend) (text : String) (terminal : Invocation → Bool) (i : Invocation) : Outcome :=
  i.outcome b (terminal i) (.ok text)

variable {j : Invocation} {command command' : Command}

theorem IsInline.options_eq (hi : i.IsInline command text limit) (hj : j.IsInline command' text limit) :
    i.options = j.options := by
  rw [options, options, hi.limit_eq, hj.limit_eq]

/-- Commands that ask the same have the same answer. -/
theorem IsInline.code_iff (hb : b.Faithful)
    (hi : i.IsInline command text limit) (hj : j.IsInline command' text limit) (hpasses : i.passes = j.passes)
    (hvalid : ∀ c, j.passes c = true → c.isValid = true) (terminal : Invocation → Bool) :
    (answerOn b text terminal i).code = 0 ↔ (answerOn b text terminal j).code = 0 := by
  rw [answerOn, answerOn, code_eq_zero_iff hb hvalid,
    code_eq_zero_iff hb (hpasses.symm ▸ hvalid), hi.options_eq hj, hpasses]

theorem IsInline.passes_compile (hi : i.IsInline .compile text limit) : i.passes = Compilation.isValid := by
  funext c
  rw [passes, hi.command_eq]

theorem IsInline.passes_check (hi : i.IsInline .check text limit) : i.passes = i.accepts := by
  funext c
  rw [passes, hi.command_eq]

theorem IsInline.passes_dump (hi : i.IsInline .dump text limit) (htable : i.has .cst = false) :
    i.passes = Compilation.isValid := by
  funext c
  rw [passes, hi.command_eq]
  simp only [htable, Bool.false_or]

theorem isValid_of_diagnostics_eq_nil (h : c.diagnostics = []) : c.isValid = true := by
  rw [Compilation.isValid_eq, h]
  rfl

theorem accepts_of_strict (hstrict : i.has .strict = true) : i.accepts c = true ↔ c.diagnostics = [] := by
  rw [accepts, if_pos hstrict, List.isEmpty_iff]

/-- Compiling succeeds with nothing to report exactly for texts without diagnostics. -/
theorem IsInline.silent_iff (hb : b.Faithful)
    (hi : i.IsInline .compile text limit) (terminal : Invocation → Bool) :
    (answerOn b text terminal i).code = 0 ∧ (answerOn b text terminal i).stderr = "" ↔
      ∃ c, compile i.options text = .ok c ∧ c.diagnostics = [] := by
  have hvalid (c : Compilation) (hpasses : i.passes c = true) : c.isValid = true := by rwa [hi.passes_compile] at hpasses
  have hstderr {c : Compilation} {report : String} (hc : compile i.options text = .ok c)
      (hreport : i.reportOn b (terminal i) c = some report) : (answerOn b text terminal i).stderr = report := by
    rw [answerOn, outcome_of_compile hc]
    simp only [outcomeFor, hi.command_eq, hreport, Option.map_some, Option.getD_some]
    unfold compileOutcome
    split
    · rfl
    · rfl
  constructor
  · rintro ⟨hcode, hsilent⟩
    obtain ⟨c, hc, hpasses⟩ := (code_eq_zero_iff hb hvalid).mp hcode
    obtain ⟨report, hreport⟩ := reportOn_of_isValid hb (terminal i) hc (hvalid c hpasses)
    exact ⟨c, hc, (eq_empty_of_reportOn hreport).mp ((hstderr hc hreport).symm.trans hsilent)⟩
  · rintro ⟨c, hc, hnone⟩
    refine ⟨(code_eq_zero_iff hb hvalid).mpr ⟨c, hc, ?_⟩, hstderr hc (reportOn_of_nil hnone)⟩
    rw [hi.passes_compile]
    exact isValid_of_diagnostics_eq_nil hnone

end Invocation

open Invocation in
/-- The commands agree, and failures are never silent. On a text that stands on the command line, whatever the bound for
the number of tokens is, a check, a dump of the table and a compilation answer alike, and a strict check succeeds if
compiling succeeds with nothing to report. With code 1 a command reports why it failed. The only other code is that of a
text with errors and with characters of several bytes, one of which would be cut in a picture. Of diagnostics something
is always left, and an error if there is one. -/
theorem commands_agree {b : Backend} (hb : b.Faithful)
    {text : String} {limit : Nat} {compiler checker strictChecker dumper : Invocation}
    (hcompiler : compiler.IsInline .compile text limit)
    (hchecker : checker.IsInline .check text limit) (hlenient : checker.has .strict = false)
    (hstrictChecker : strictChecker.IsInline .check text limit) (hstrict : strictChecker.has .strict = true)
    (hdumper : dumper.IsInline .dump text limit) (htable : dumper.has .cst = false)
    (terminal : Invocation → Bool) :
    ((answerOn b text terminal checker).code = 0 ↔ (answerOn b text terminal compiler).code = 0) ∧
      ((answerOn b text terminal dumper).code = 0 ↔ (answerOn b text terminal compiler).code = 0) ∧
      ((answerOn b text terminal strictChecker).code = 0 ↔
        (answerOn b text terminal compiler).code = 0 ∧ (answerOn b text terminal compiler).stderr = "") ∧
      (∀ (i : Invocation) (command : Command), i.IsInline command text limit →
        (answerOn b text terminal i).code = 0 ∨
          ((answerOn b text terminal i).code = 1 ∧ (answerOn b text terminal i).stderr ≠ "" ∧
            Explains b i (terminal i) text (answerOn b text terminal i).stderr) ∨
          (answerOn b text terminal i).code = 101 ∧ i.Undrawable text) ∧
      ∀ ds, (ds ≠ [] → Diagnostic.filtered ds ≠ []) ∧
        (Diagnostic.hasErrors ds = true → Diagnostic.hasErrors (Diagnostic.filtered ds) = true) := by
  have hvalid (c : Compilation) (hpasses : compiler.passes c = true) : c.isValid = true := by
    rwa [hcompiler.passes_compile] at hpasses
  refine ⟨?_, ?_, ?_, fun i command _ => outcome_cases hb, fun ds => ⟨Diagnostic.filtered_ne_nil, ?_⟩⟩
  · refine hchecker.code_iff hb hcompiler ?_ hvalid terminal
    funext c
    rw [hchecker.passes_check, hcompiler.passes_compile, accepts, hlenient, if_neg Bool.false_ne_true]
  · exact hdumper.code_iff hb hcompiler
      ((hdumper.passes_dump htable).trans hcompiler.passes_compile.symm) hvalid terminal
  · have hnone (c : Compilation) : strictChecker.passes c = true ↔ c.diagnostics = [] := by
      rw [hstrictChecker.passes_check, accepts_of_strict hstrict]
    rw [hcompiler.silent_iff hb, answerOn, code_eq_zero_iff hb fun c hpasses =>
      isValid_of_diagnostics_eq_nil ((hnone c).mp hpasses), hstrictChecker.options_eq hcompiler]
    simp only [hnone]
  · exact fun herrors => List.any_eq_true.mpr (Diagnostic.exists_error_mem_filtered herrors)

open Invocation in
/-- A text with a warning passes all commands but a strict check, which says why. -/
theorem commands_agree_on_warning :
    ∃ compiler checker strictChecker dumper,
      ofArguments? ["compile", "-e", "x = y;"] = some compiler ∧ ofArguments? ["check", "-ex = y;"] = some checker ∧
      ofArguments? ["check", "--strict", "--expr", "x = y;"] = some strictChecker ∧
      ofArguments? ["dump", "--json", "-e", "x = y;"] = some dumper ∧
      (answerOn .standard "x = y;" (fun _ => false) compiler).code = 0 ∧
      (answerOn .standard "x = y;" (fun _ => false) checker).code = 0 ∧
      (answerOn .standard "x = y;" (fun _ => false) dumper).code = 0 ∧
      (answerOn .standard "x = y;" (fun _ => false) strictChecker).code = 1 ∧
      Explains .standard strictChecker false "x = y;"
        (answerOn .standard "x = y;" (fun _ => false) strictChecker).stderr := by
  have hcompiler : IsInline ⟨.compile, none, some "x = y;", none, none, []⟩ .compile "x = y;" 1000000 := ⟨rfl, rfl, rfl⟩
  have hchecker : IsInline ⟨.check, none, some "x = y;", none, none, []⟩ .check "x = y;" 1000000 := ⟨rfl, rfl, rfl⟩
  have hstrictChecker : IsInline ⟨.check, none, some "x = y;", none, none, [.strict]⟩ .check "x = y;" 1000000 :=
    ⟨rfl, rfl, rfl⟩
  have hdumper : IsInline ⟨.dump, none, some "x = y;", none, none, [.json]⟩ .dump "x = y;" 1000000 := ⟨rfl, rfl, rfl⟩
  obtain ⟨hchecked, hdumped, hstrict, hfailure, -⟩ :=
    commands_agree Backend.faithful_standard hcompiler hchecker rfl hstrictChecker rfl hdumper rfl fun _ => false
  have hcompiled : (answerOn .standard "x = y;" (fun _ => false)
      ⟨.compile, none, some "x = y;", none, none, []⟩).code = 0 := by
    decide +kernel
  have hreported : (answerOn .standard "x = y;" (fun _ => false)
      ⟨.compile, none, some "x = y;", none, none, []⟩).stderr ≠ "" := by
    decide +kernel
  have hsingle : ("x = y;".toList.all fun c => c.utf8Size == 1) = true := by decide +kernel
  obtain hpassed | ⟨hcode, -, hexplained⟩ | ⟨-, hundrawable⟩ := hfailure _ _ hstrictChecker
  · exact absurd (hstrict.mp hpassed).2 hreported
  · exact ⟨_, _, _, _, by decide +kernel, by decide +kernel, by decide +kernel, by decide +kernel, hcompiled,
      hchecked.mpr hcompiled, hdumped.mpr hcompiled, hcode, hexplained⟩
  · obtain ⟨c, hc, hne⟩ := hundrawable.several
    exact absurd (eq_of_beq (List.all_eq_true.mp hsingle c hc)) hne

end Transducer
