import Transducer.Proofs.Parse.Layout
import Transducer.Proofs.Program.Preservation

/-!
# A valid compilation drops nothing

There are two ways for an expression to have no value: something is missing in it, or a literal has a malformed escape.
The first one cannot happen if the parser reports nothing, and the parser reports nothing but errors; the second one is
an error that the builder reports. So in a compilation without errors every definition is bound, and since the builder
adds no other names than those it makes up, the table lists the definitions in the order in which they came first.
-/

namespace Transducer

open Diagnostic (hasErrors)

/-! ### The parser reports errors only -/

namespace Parse.State

/-- A diagnostic claims a position, and a claim is never taken back. -/
theorem Move.diagnostics_of_unclaimed {s t : State} (h : Move s t) (hs : s.claimed = none → s.diagnostics = []) :
    t.claimed = none → t.diagnostics = [] := by
  cases h with
  | claimed h =>
      obtain ⟨rfl, -⟩ | ⟨d, -, -, rfl⟩ := claim_eq_ok h
      · exact hs
      · exact fun hclaimed => nomatch hclaimed
  | closed h =>
      obtain ⟨frame, below, -, rfl⟩ := closeNode_eq_ok h
      exact hs
  | bumped h =>
      obtain ⟨token, ts, -, rfl⟩ := bump_eq_ok h
      exact hs
  | descended =>
      obtain ⟨depth, hdescend⟩ := s.descend_eq
      rw [hdescend]
      exact hs
  | flushed => exact hs
  | opened kind => exact hs
  | wrapped kind _ => exact hs
  | remembered kind => exact hs
  | forgotten h => exact hs
  | ascended => exact hs

end Parse.State

open Parse Parse.State in
theorem diagnostics_of_parse {limits : Limits} {source : String} {p : Parsed} (hparse : parse limits source = .ok p)
    (hvalid : hasErrors p.diagnostics = false) : p.diagnostics = [] := by
  obtain ⟨s, hrun, hreached, -, ⟨e, -, herror⟩ | ⟨-, -, hok⟩⟩ := ofTokens_eq limits (paired_lex source)
  · rw [parse, herror] at hparse
    cases hparse
  · rw [parse, hok] at hparse
    cases hparse
    have halike : s.Alike s := bisimulation_alike.run (alike_start limits rfl) (entering_start _) s s hrun hrun
    have hunclaimed : s.claimed = none := by
      rw [Diagnostic.hasErrors_reverse] at hvalid
      by_contra hclaimed
      rw [halike.left (Option.isSome_iff_ne_none.mpr hclaimed)] at hvalid
      cases hvalid
    have hempty := hreached.preserves (p := fun u => u.claimed = none → u.diagnostics = []) (fun _ => rfl)
      fun _ _ hmove hu => hmove.diagnostics_of_unclaimed hu
    exact List.reverse_eq_nil_iff.mpr (hempty hunclaimed)

namespace Builder

variable {a : Alphabet} {d : String} {ok : String → Prop} {b b' : Builder} {value : Option Re}

/-- No error has been reported. -/
def Valid (b : Builder) : Prop := hasErrors b.diagnostics = false

theorem Valid.of_suffix (hvalid : b'.Valid) (h : b.diagnostics <:+ b'.diagnostics) : b.Valid := by
  obtain ⟨later, hlater⟩ := h
  rw [Valid, ← hlater, hasErrors, List.any_append, Bool.or_eq_false_iff] at hvalid
  exact hvalid.2

/-! ### Whole expressions have a value -/

theorem copies_eq_some (unit : Re) {m n : Nat} (htried : ¬ (n = 0 ∨ n < m)) : ∃ re, copies unit m n = some re := by
  unfold copies
  cases hcopies : List.replicate m unit ++ List.replicate (n - m) (Re.kleene unit .zeroOrOne) with
  | nil =>
      have hlength := congrArg List.length hcopies
      simp only [List.length_append, List.length_replicate, List.length_nil] at hlength
      omega
  | cons re res => exact ⟨_, Folder.fold_cons re res⟩

theorem repeated_eq_some (hcurrent : b.current = some d) (re : Re) {m n : Nat} (htried : ¬ (n = 0 ∨ n < m)) :
    ∃ re', (repeated m n (some re) b).1 = some re' := by
  unfold repeated hoist
  rw [hcurrent]
  dsimp only
  split
  · exact copies_eq_some re htried
  · exact copies_eq_some _ htried

theorem foldChain_eq_some {op : ChainOp} {res : List Re} (hne : res ≠ []) (h : foldChain a op res = .ok value) :
    ∃ re, value = some re := by
  cases res with
  | nil => exact absurd rfl hne
  | cons re res =>
      rw [foldChain] at h
      cases hfold : res.foldlM (combine a op) re with
      | error fault =>
          rw [hfold] at h
          cases h
      | ok folded =>
          rw [hfold] at h
          exact ⟨folded, (Except.ok.inj h).symm⟩

theorem withOutput_eq_some (span : Span) (input output : Re) :
    ∃ re, (b.withOutput span (some input) (some output)).1 = some re := by
  unfold withOutput
  dsimp only
  split
  · exact ⟨_, rfl⟩
  · exact ⟨_, rfl⟩

theorem literal_eq_some {content : Option (String × Nat)} (h : b.literal content = .ok (value, b'))
    (hvalid : b'.Valid) : ∃ re, value = some re := by
  cases content with
  | none =>
      cases h
      exact ⟨_, rfl⟩
  | some content =>
      obtain ⟨raw, start⟩ := content
      simp only [literal] at h
      split at h
      · cases h
        exact ⟨_, rfl⟩
      · obtain ⟨span, -, heq⟩ := bind_eq_ok h
        cases heq
        cases hvalid

mutual

/-- A whole expression has a value if nothing is reported. -/
theorem build_eq_some (e : Expr) (b : Builder) {value : Option Re} {b' : Builder} (he : e.Whole ok)
    (hcurrent : b.current = some d) (hb : b.Sound a) (h : build a e b = .ok (value, b')) (hvalid : b'.Valid) :
    ∃ re, value = some re := by
  cases e with
  | missing => exact he.elim
  | chain span op operators operands =>
      obtain ⟨⟨values, b₁⟩, hall, hrest⟩ := bind_eq_ok h
      obtain ⟨value₁, hvalue, heq⟩ := bind_eq_ok hrest
      cases heq
      obtain ⟨res, rfl, hlength⟩ := buildAll_eq_some operands b he.2 hcurrent hb hall hvalid
      rw [he.1] at hlength
      rw [chainValue_eq a op hlength] at hvalue
      exact foldChain_eq_some (List.ne_nil_of_length_eq_add_one hlength) hvalue
  | concat span operands =>
      obtain ⟨⟨values, b₁⟩, hall, heq⟩ := bind_eq_ok h
      cases heq
      obtain ⟨res, rfl, hlength⟩ := buildAll_eq_some operands b he.2 hcurrent hb hall hvalid
      cases res with
      | nil => exact absurd (List.length_eq_zero_iff.mp hlength.symm) he.1
      | cons re res =>
          rw [allPresent_map_some]
          exact ⟨_, Folder.fold_cons re res⟩
  | output span lhs rhs =>
      obtain ⟨⟨input, b₁⟩, hlhs, hrest⟩ := bind_eq_ok h
      obtain ⟨⟨output, b₂⟩, hrhs, heq⟩ := bind_eq_ok hrest
      have hout : b₂.withOutput rhs.span input output = (value, b') := Except.ok.inj heq
      have hkept := kept_of_build hb hlhs
      have hkept' := kept_of_build hkept.sound hrhs
      have hreported := (hkept'.sound.withOutput rhs.span input output).reported
      rw [hout] at hreported
      have hvalid₂ : b₂.Valid := hvalid.of_suffix hreported
      obtain ⟨re, rfl⟩ := build_eq_some lhs b he.1 hcurrent hb hlhs (hvalid₂.of_suffix hkept'.reported)
      obtain ⟨re', rfl⟩ :=
        build_eq_some rhs b₁ he.2 (hkept.current_eq.trans hcurrent) hkept.sound hrhs hvalid₂
      have hsome := withOutput_eq_some (b := b₂) rhs.span re re'
      rw [hout] at hsome
      exact hsome
  | weight span operand weight =>
      cases h
      exact ⟨_, rfl⟩
  | repetition span operand isRange lower upper =>
      obtain ⟨⟨⟨m, n⟩, hbounds⟩, hoperand⟩ := he
      simp only [build, hbounds] at h
      split at h
      · cases h
        exact ⟨_, rfl⟩
      · rename_i htried
        obtain ⟨⟨value₁, b₁⟩, hbuild, heq⟩ := bind_eq_ok h
        have hrepeat : repeated m n value₁ b₁ = (value, b') := Except.ok.inj heq
        have hkept := kept_of_build hb hbuild
        have hreported := (hkept.sound.repeated m n hkept.value).reported
        rw [hrepeat] at hreported
        obtain ⟨re, rfl⟩ := build_eq_some operand b hoperand hcurrent hb hbuild (hvalid.of_suffix hreported)
        have hsome := repeated_eq_some (hkept.current_eq.trans hcurrent) re htried
        rw [hrepeat] at hsome
        exact hsome
  | closure span operand marker =>
      obtain ⟨⟨value₁, b₁⟩, hoperand, heq⟩ := bind_eq_ok h
      cases heq
      obtain ⟨q, hq⟩ := he.1
      obtain ⟨re, rfl⟩ := build_eq_some operand b he.2 hcurrent hb hoperand hvalid
      exact ⟨.kleene re q, by simp only [withQuantifier, hq, Option.map_some]⟩
  | reference span name =>
      obtain ⟨n, rfl, -⟩ := he
      cases h
      exact ⟨_, rfl⟩
  | literal span content => exact literal_eq_some h hvalid
  | group span inner => exact build_eq_some inner b he hcurrent hb h hvalid
  | call span name arguments =>
      cases h
      exact ⟨_, rfl⟩

theorem buildAll_eq_some (es : List Expr) (b : Builder) {values : List (Option Re)} {b' : Builder}
    (hes : Expr.WholeAll ok es) (hcurrent : b.current = some d) (hb : b.Sound a)
    (h : buildAll a es b = .ok (values, b')) (hvalid : b'.Valid) :
    ∃ res : List Re, values = res.map some ∧ res.length = es.length := by
  cases es with
  | nil =>
      cases h
      exact ⟨[], rfl, rfl⟩
  | cons e es =>
      obtain ⟨⟨value, b₁⟩, he, hrest⟩ := bind_eq_ok h
      obtain ⟨⟨values₁, b₂⟩, hes', heq⟩ := bind_eq_ok hrest
      cases heq
      have hkept := kept_of_build hb he
      obtain ⟨-, hreported, -⟩ := (buildAll_returns a es b₁ hkept.sound).of_eq_ok hes'
      obtain ⟨re, rfl⟩ := build_eq_some e b hes.1 hcurrent hb he (hvalid.of_suffix hreported)
      obtain ⟨res, rfl, hlength⟩ :=
        buildAll_eq_some es b₁ hes.2 (hkept.current_eq.trans hcurrent) hkept.sound hes' hvalid
      exact ⟨re :: res, rfl, congrArg (· + 1) hlength⟩

end

/-! ### Evaluating adds names made up only -/

/-- Of the names that are not made up the tables have the same ones, in the same order and with the same values. -/
structure AgreesOnPlain (t t' : Table Re) : Prop where
  names_eq : t'.names.filter (!isReserved ·) = t.names.filter (!isReserved ·)
  get?_eq : ∀ name, Plain name → t'.get? name = t.get? name

theorem stable_agreesOnPlain (t : Table Re) : Stable fun b => AgreesOnPlain t b.table where
  report h _ _ _ := h
  hoist {b} h re := by
    unfold Builder.hoist
    cases b.current with
    | none => exact h
    | some definition =>
        have hreserved := isReserved_syntheticName definition b.counter
        refine ⟨?_, fun name hplain => ?_⟩
        · rw [← h.names_eq]
          exact Table.filter_names_insert_of_neg b.table re (by rw [hreserved]; rfl)
        · rw [← h.get?_eq name hplain]
          refine Table.get?_insert_of_ne _ re ?_
          rintro rfl
          rw [Plain, hreserved] at hplain
          cases hplain

theorem agreesOnPlain_of_build {e : Expr} (h : build a e b = .ok (value, b')) : AgreesOnPlain b.table b'.table :=
  (stable_agreesOnPlain b.table).build a e b ⟨rfl, fun _ _ => rfl⟩ _ h

/-! ### Definitions -/

/-- The value of a definition that stands behind some statements. -/
def valueAfter (a : Alphabet) (before : List Stmt) (name : String) (body : Expr) : Except Fault (Option Re) := do
  let b ← run a before
  let b ← b.beginDefinition name
  return (← build a body b).1

/-- What holds between statements if there is no error: of the names that are not made up the table has those defined
so far, in the order in which they came first. -/
structure Complete (a : Alphabet) (defined : List String) (b : Builder) : Prop where
  idle : b.Idle a
  names_eq : b.table.names.filter (!isReserved ·) = (defined.filter (!isReserved ·)).eraseDups

theorem complete_start (a : Alphabet) : start.Complete a [] := ⟨idle_start a, rfl⟩

theorem eraseDups_append_singleton (names : List String) (name : String) :
    (names ++ [name]).eraseDups = if name ∈ names then names.eraseDups else names.eraseDups ++ [name] := by
  rw [List.eraseDups_append]
  by_cases hname : name ∈ names
  · simp [hname, List.removeAll]
  · simp [hname, List.removeAll, List.eraseDups_cons]

namespace Complete

variable {defined : List String}

/-- A definition is bound to a value. -/
theorem define (h : b.Complete a defined) {body : Expr} (hbody : body.Whole ok) (hdefine : define a d body b = .ok b')
    (hvalid : b'.Valid) :
    b'.Complete a (defined ++ [d]) ∧
      ∃ re b₁, build a body { b with current := some d, counter := 0 } = .ok (some re, b₁) ∧
        b'.table.get? d = some re := by
  have hidle := ((h.idle.define d body).of_eq_ok hdefine).1
  obtain ⟨value, b₁, hbuild, rfl⟩ := define_eq_ok h.idle hdefine
  obtain ⟨re, rfl⟩ := build_eq_some body { b with current := some d, counter := 0 } hbody rfl h.idle.2 hbuild hvalid
  refine ⟨⟨hidle, ?_⟩, re, b₁, hbuild, Table.get?_insert_self b₁.table d re⟩
  have hnames : b₁.table.names.filter (!isReserved ·) = (defined.filter (!isReserved ·)).eraseDups :=
    (agreesOnPlain_of_build hbuild).names_eq.trans h.names_eq
  change (b₁.table.insert d re).names.filter (!isReserved ·) = _
  rw [List.filter_append]
  cases hreserved : isReserved d with
  | true =>
      have hskip : (!isReserved d) = false := by rw [hreserved]; rfl
      have hsingle : [d].filter (!isReserved ·) = [] := List.filter_cons_of_neg (by rw [hskip]; decide)
      rw [Table.filter_names_insert_of_neg b₁.table re hskip, hnames, hsingle, List.append_nil]
  | false =>
      have hkeep : (!isReserved d) = true := by rw [hreserved]; rfl
      have hsingle : [d].filter (!isReserved ·) = [d] := List.filter_cons_of_pos hkeep
      rw [Table.filter_names_insert_of_pos b₁.table re hkeep, hnames, hsingle, eraseDups_append_singleton]
      simp only [List.mem_eraseDups]

theorem report (h : b.Complete a defined) (issue : Issue) (span : Span) (detail : String) :
    (b.report issue span detail).Complete a (defined ++ []) := by
  rw [List.append_nil]
  exact ⟨h.idle, h.names_eq⟩

theorem visit (h : b.Complete a defined) {stmt : Stmt} (hstmt : stmt.Whole ok) (hvisit : visit a b stmt = .ok b')
    (hvalid : b'.Valid) : b'.Complete a (defined ++ (Stmt.bindings [stmt]).map Prod.fst) := by
  cases stmt with
  | definition span exported name body =>
      obtain ⟨⟨n, rfl, -⟩, hbody⟩ := hstmt
      exact (h.define hbody hvisit hvalid).1
  | importing span path renamed =>
      cases hvisit
      exact h.report _ _ _
  | function span name params body =>
      cases hvisit
      exact h.report _ _ _
  | returning span body =>
      cases hvisit
      exact h.report _ _ _

theorem visitAll (h : b.Complete a defined) {stmts : List Stmt} (hstmts : ∀ stmt ∈ stmts, stmt.Whole ok)
    (hvisit : stmts.foldlM (Builder.visit a) b = .ok b') (hvalid : b'.Valid) :
    b'.Complete a (defined ++ (Stmt.bindings stmts).map Prod.fst) := by
  induction stmts generalizing defined b with
  | nil =>
      cases hvisit
      exact (List.append_nil defined).symm ▸ h
  | cons stmt stmts ih =>
      obtain ⟨b₁, hfirst, hrest⟩ := bind_eq_ok hvisit
      obtain ⟨hstmt, hstmts⟩ := List.forall_mem_cons.mp hstmts
      have hidle := ((h.idle.visit stmt).of_eq_ok hfirst).1
      have hvalid₁ : b₁.Valid := hvalid.of_suffix ((hidle.visitAll stmts).of_eq_ok hrest).2
      rw [Stmt.bindings_cons, List.map_append, ← List.append_assoc]
      exact ih (h.visit hstmt hfirst hvalid₁) hstmts hrest

end Complete

/-- A statement changes the value of no other name, but for those made up. -/
theorem get?_of_visit (h : b.Idle a) {stmt : Stmt} (hvisit : visit a b stmt = .ok b') {name : String}
    (hplain : Plain name) (hother : name ∉ (Stmt.bindings [stmt]).map Prod.fst) :
    b'.table.get? name = b.table.get? name := by
  cases stmt with
  | definition span exported defined body =>
      cases defined with
      | none =>
          cases hvisit
          rfl
      | some defined =>
          obtain ⟨value, b₁, hbuild, rfl⟩ := define_eq_ok h hvisit
          have hsame := (agreesOnPlain_of_build hbuild).get?_eq name hplain
          cases value with
          | none => exact hsame
          | some re =>
              have hne : defined ≠ name := fun heq => hother (List.mem_singleton.mpr heq.symm)
              exact (Table.get?_insert_of_ne b₁.table re hne).trans hsame
  | importing span path renamed =>
      cases hvisit
      rfl
  | function span name params body =>
      cases hvisit
      rfl
  | returning span body =>
      cases hvisit
      rfl

theorem get?_of_visitAll (h : b.Idle a) {stmts : List Stmt} (hvisit : stmts.foldlM (visit a) b = .ok b')
    {name : String} (hplain : Plain name) (hothers : name ∉ (Stmt.bindings stmts).map Prod.fst) :
    b'.table.get? name = b.table.get? name := by
  induction stmts generalizing b with
  | nil =>
      cases hvisit
      rfl
  | cons stmt stmts ih =>
      obtain ⟨b₁, hfirst, hrest⟩ := bind_eq_ok hvisit
      rw [Stmt.bindings_cons, List.map_append, List.mem_append, not_or] at hothers
      have hidle := ((h.visit stmt).of_eq_ok hfirst).1
      exact (ih hidle hrest hothers.2).trans (get?_of_visit h hfirst hplain hothers.1)

/-- A definition between other statements. -/
theorem run_split {before after : List Stmt} {span : Span} {exported : Bool} {body : Expr}
    (hbefore : ∀ stmt ∈ before, stmt.Whole ok) (hbody : body.Whole ok)
    (hrun : run a (before ++ .definition span exported (some d) body :: after) = .ok b) (hvalid : b.Valid) :
    ∃ re, valueAfter a before d body = .ok (some re) ∧
      (Plain d → d ∉ (Stmt.bindings after).map Prod.fst → b.table.get? d = some re) := by
  rw [run, List.foldlM_append] at hrun
  obtain ⟨b₀, hrun₀, hrest⟩ := bind_eq_ok hrun
  obtain ⟨b₁, hdefine, hafter⟩ := bind_eq_ok hrest
  have hidle₀ := ((idle_start a).visitAll before).of_eq_ok hrun₀
  have hidle₁ := (hidle₀.1.define d body).of_eq_ok hdefine
  have hvalid₁ : b₁.Valid := hvalid.of_suffix ((hidle₁.1.visitAll after).of_eq_ok hafter).2
  have hcomplete₀ := (complete_start a).visitAll hbefore hrun₀ (hvalid₁.of_suffix hidle₁.2)
  obtain ⟨-, re, b₂, hbuild, hget⟩ := hcomplete₀.define hbody hdefine hvalid₁
  refine ⟨re, ?_, fun hplain hlast => (get?_of_visitAll hidle₁.1 hafter hplain hlast).trans hget⟩
  have hbegin : b₀.beginDefinition d = .ok { b₀ with current := some d, counter := 0 } := by
    rw [beginDefinition, hidle₀.1.1]
  have hrun₀' : run a before = .ok b₀ := hrun₀
  simp only [valueAfter, hrun₀', hbegin, hbuild, bind, Except.bind, pure, Except.pure]

end Builder

/-- A valid compilation drops nothing. If a source compiles without errors, the names of the table that do not start
with two underscores are the names defined, in the order in which they came first. Every definition has a name and a
value, and a name that does not start with two underscores holds the value of its last definition. -/
theorem compile_drops_nothing {options : Options} {source : String} {c : Compilation}
    (hcompile : compile options source = .ok c) (hvalid : c.isValid = true) :
    c.program.names.filter (!isReserved ·) =
        (((Stmt.bindings (Stmt.ofRoot c.root)).map Prod.fst).filter (!isReserved ·)).eraseDups ∧
      ∀ before span exported name body after,
        Stmt.ofRoot c.root = before ++ .definition span exported name body :: after →
          ∃ n re, name = some n ∧ Builder.valueAfter options.alphabet before n body = .ok (some re) ∧
            (isReserved n = false → n ∉ (Stmt.bindings after).map Prod.fst → c.program.table.get? n = some re) := by
  obtain ⟨p, built, hparse, hbuilt, rfl⟩ := compile_eq_ok hcompile
  rw [Compilation.isValid, Bool.and_eq_true, Bool.not_eq_true', Bool.not_eq_true'] at hvalid
  have hbuiltValid : built.Valid := (Diagnostic.hasErrors_reverse _).symm.trans hvalid.2
  have hwhole : ∀ stmt ∈ Stmt.ofRoot p.root, stmt.Whole fun _ => True :=
    whole_of_parse hparse (diagnostics_of_parse hparse hvalid.1) fun _ _ _ => trivial
  refine ⟨((Builder.complete_start options.alphabet).visitAll hwhole hbuilt hbuiltValid).names_eq, ?_⟩
  intro before span exported name body after hsplit
  dsimp only at hsplit
  rw [hsplit] at hwhole hbuilt
  obtain ⟨hbefore, hafter⟩ := List.forall_mem_append.mp hwhole
  obtain ⟨⟨n, rfl, -⟩, hbody⟩ := (List.forall_mem_cons.mp hafter).1
  obtain ⟨re, hvalue, hlast⟩ := Builder.run_split hbefore hbody hbuilt hbuiltValid
  exact ⟨n, re, rfl, hvalue, hlast⟩

/-- A name that is defined twice, and one that is made up for a repetition between the two definitions. -/
theorem compile_drops_nothing_of_redefinition :
    ∃ c, compile .standard "a = 'x'; b = (a* 'y'){2}; a = b | 'z';" = .ok c ∧
      c.program.names = ["a", "__b__0", "b"] ∧
      c.program.names.filter (!isReserved ·) =
        (((Stmt.bindings (Stmt.ofRoot c.root)).map Prod.fst).filter (!isReserved ·)).eraseDups ∧
      ∀ before span exported name body after,
        Stmt.ofRoot c.root = before ++ .definition span exported name body :: after →
          ∃ n re, name = some n ∧ Builder.valueAfter .unicode before n body = .ok (some re) ∧
            (isReserved n = false → n ∉ (Stmt.bindings after).map Prod.fst → c.program.table.get? n = some re) := by
  have hcompiles : ((compile .standard "a = 'x'; b = (a* 'y'){2}; a = b | 'z';").toOption.map fun c =>
      (c.isValid, c.program.names)) = some (true, ["a", "__b__0", "b"]) := by
    decide +kernel
  cases hcompile : compile .standard "a = 'x'; b = (a* 'y'){2}; a = b | 'z';" with
  | error e =>
      rw [hcompile] at hcompiles
      cases hcompiles
  | ok c =>
      rw [hcompile] at hcompiles
      obtain ⟨hvalid, hnames⟩ := Prod.mk.inj (Option.some.inj hcompiles)
      exact ⟨c, rfl, hnames, compile_drops_nothing hcompile hvalid⟩

end Transducer
