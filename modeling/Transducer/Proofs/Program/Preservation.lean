import Transducer.Proofs.Ast.Reading
import Transducer.Proofs.Program.Hoisting

/-!
# The builder preserves meaning

While a definition is evaluated the table grows by names made up for it and by nothing else. If nothing is reported,
every expression gets a value, and the value denotes what the expression means in every environment that solves the
table. A definition refers to definitions before it only, so all environments agree on what its name denotes.
-/

namespace Transducer

namespace Builder

variable {a : Alphabet} {d : String} {ok : String → Prop} {b b' : Builder} {re : Re} {f : Env → Transduction}

/-- The definition is being evaluated, and no name that is still to be made up for it is taken. -/
structure Ready (a : Alphabet) (d : String) (b : Builder) : Prop where
  current_eq : b.current = some d
  sound : b.Sound a
  consistent : b.table.Consistent a
  fresh : ∀ k, b.counter ≤ k → b.table.get? (syntheticName d k) = none

/-- The table has grown by names made up for the definition. -/
structure Extends (d : String) (t t' : Table Re) : Prop where
  grows : t.Grows t'
  made : ∀ name, t'.Binds name → t.Binds name ∨ ∃ k, name = syntheticName d k

theorem Extends.refl (d : String) (t : Table Re) : Extends d t t := ⟨.refl t, fun _ h => .inl h⟩

theorem Extends.trans {t t' t'' : Table Re} (h : Extends d t t') (h' : Extends d t' t'') : Extends d t t'' where
  grows := h.grows.trans h'.grows
  made name hname := (h'.made name hname).elim (h.made name) .inr

/-- What an expression leads to if nothing is reported. -/
structure Evaluated (a : Alphabet) (d : String) (b : Builder) (value : Option Re) (f : Env → Transduction)
    (b' : Builder) : Prop where
  ready : b'.Ready a d
  extended : Extends d b.table b'.table
  denotes : ∃ re, value = some re ∧ b'.table.Denotes a re f

theorem Ready.evaluated (h : b.Ready a d) (hre : b.table.Denotes a re f) : Evaluated a d b (some re) f b :=
  ⟨h, .refl d b.table, re, rfl, hre⟩

/-- The name made up is new, and it denotes what the value does. -/
theorem Ready.hoist (h : b.Ready a d) (hre : b.table.Denotes a re f) :
    Evaluated a d b (b.hoist re).1 f (b.hoist re).2 := by
  have hnew : b.table.get? (syntheticName d b.counter) = none := h.fresh b.counter le_rfl
  have hgrows := Table.grows_insert hnew re
  have hself := Table.get?_insert_self b.table (syntheticName d b.counter) re
  unfold Builder.hoist
  rw [h.current_eq]
  refine ⟨⟨rfl, h.sound.insert _ hre.wellFormed, h.consistent.insert hnew hre.bound, fun k hk => ?_⟩,
    ⟨hgrows, fun name hname => ?_⟩, _, rfl, (hre.mono hgrows).named hself⟩
  · have hne : syntheticName d b.counter ≠ syntheticName d k := by
      intro heq
      exact absurd (syntheticName_inj heq).2 (Nat.ne_of_lt hk)
    rw [Table.get?_insert_of_ne _ _ hne]
    exact h.fresh k (Nat.le_of_succ_le hk)
  · obtain rfl | hname := Table.binds_insert hname
    · exact .inr ⟨b.counter, rfl⟩
    · exact .inl hname

/-- A literal is copied as it is, anything else by its name. -/
theorem Ready.repeated (h : b.Ready a d) (hre : b.table.Denotes a re f) {m n : Nat} (htried : ¬ (n = 0 ∨ n < m)) :
    Evaluated a d b (repeated m n (some re) b).1 (fun env => (f env).repeated m n) (repeated m n (some re) b).2 := by
  simp only [Builder.repeated]
  split
  · obtain ⟨re', hcopies, hre'⟩ := hre.copies htried
    rw [hcopies]
    exact h.evaluated hre'
  · have hhoist := h.hoist hre
    obtain ⟨unit, hunit, hdenotes⟩ := hhoist.denotes
    obtain ⟨re', hcopies, hre'⟩ := hdenotes.copies htried
    split
    · rename_i unit' b' heq
      rw [heq] at hhoist hunit hre'
      cases hunit
      exact ⟨hhoist.ready, hhoist.extended, re', hcopies, hre'⟩
    · rename_i b' heq
      rw [heq] at hunit
      cases hunit

/-- A name that is bound denotes its value, whether the value is copied or not. -/
theorem Ready.reference (h : b.Ready a d) {span : Span} {name : String}
    (hclean : (b.reference span name).2.diagnostics = []) :
    (b.reference span name).2 = b ∧ b.table.Binds name ∧
      b.table.Denotes a (b.reference span name).1 fun env => env name := by
  unfold Builder.reference at hclean ⊢
  split
  · rename_i re hget
    split
    · rename_i hlike
      have hreferences : re.references = [] := by
        obtain hset | hstr := Bool.or_eq_true_iff.mp hlike
        · exact Re.references_of_isSetLike hset
        · exact Re.references_of_isStrLike hstr
      refine ⟨rfl, ⟨re, hget⟩, h.sound name re hget, fun other hother => ?_, fun env henv => ?_⟩
      · rw [hreferences] at hother
        cases hother
      · exact (henv name re hget).symm
    · exact ⟨rfl, ⟨re, hget⟩, .var ⟨re, hget⟩⟩
  · rename_i hnone
    simp only [hnone] at hclean
    cases hclean

/-- An output that is no literal would be reported. -/
theorem Evaluated.withOutput {b₁ b₂ : Builder} {input output value : Option Re} {g : Env → Transduction} {span : Span}
    (hinput : Evaluated a d b input f b₁) (houtput : Evaluated a d b₁ output g b₂)
    (h : b₂.withOutput span input output = (value, b')) (hclean : b'.diagnostics = []) :
    b' = b₂ ∧ Evaluated a d b value (fun env => (f env).output (g env)) b₂ := by
  obtain ⟨re, rfl, hre⟩ := hinput.denotes
  obtain ⟨re', rfl, hre'⟩ := houtput.denotes
  simp only [Builder.withOutput] at h
  split at h
  · rename_i cs hcs
    obtain ⟨rfl, rfl⟩ := Prod.mk.inj h
    refine ⟨rfl, houtput.ready, hinput.extended.trans houtput.extended, _, rfl, ?_⟩
    have hdenotes := (hre.mono houtput.extended.grows).output cs
    refine ⟨hdenotes.wellFormed, hdenotes.bound, fun env henv => ?_⟩
    rw [hdenotes.meaning_eq env henv, hre'.literal_eq hcs henv]
  · cases h
    cases hclean

theorem clean_of_suffix (h : b.diagnostics <:+ b'.diagnostics) (hclean : b'.diagnostics = []) : b.diagnostics = [] := by
  rw [hclean] at h
  exact List.suffix_nil.mp h

theorem kept_of_build {e : Expr} {value : Option Re} (hb : b.Sound a) (h : build a e b = .ok (value, b')) :
    Kept a b value b' :=
  (build_returns a e b hb).of_eq_ok h

theorem allPresent_map_some (res : List Re) : allPresent (res.map some) = some res := by
  induction res with
  | nil => rfl
  | cons re res ih =>
      rw [allPresent, List.map_cons, List.mapM_cons, ← allPresent, ih]
      rfl

theorem chainValue_eq (a : Alphabet) (op : ChainOp) {operators : Nat} {res : List Re}
    (hlength : res.length = operators + 1) : chainValue a op operators (res.map some) = foldChain a op res := by
  have hmore : ¬ Expr.isShort operators (res.map some).length = true := by
    rw [Expr.isShort, decide_eq_true_eq, List.length_map, hlength]
    exact Nat.not_succ_le_self operators
  rw [chainValue, if_neg hmore, allPresent_map_some]

/-- What some expressions lead to if nothing is reported. -/
structure EvaluatedAll (a : Alphabet) (d : String) (b : Builder) (values : List (Option Re))
    (fs : List (Env → Transduction)) (b' : Builder) : Prop where
  ready : b'.Ready a d
  extended : Extends d b.table b'.table
  denotes : ∃ res, values = res.map some ∧ b'.table.DenotesAll a res fs

namespace EvaluatedAll

variable {values : List (Option Re)} {value : Option Re} {operands : List Expr}

theorem chain {op : ChainOp} {operators : Nat}
    (h : EvaluatedAll a d b values (operands.map fun e env => e.meaning env) b')
    (hlength : operands.length = operators + 1) (hvalue : chainValue a op operators values = .ok value) (span : Span) :
    Evaluated a d b value (fun env => (Expr.chain span op operators operands).meaning env) b' := by
  obtain ⟨hready, hextended, res, rfl, hres⟩ := h
  have hlength' : res.length = operators + 1 := by
    rw [hres.length_eq, List.length_map, hlength]
  rw [chainValue_eq a op hlength'] at hvalue
  have hne : res ≠ [] := List.ne_nil_of_length_eq_add_one hlength'
  obtain ⟨re, rfl, hre⟩ := (hres.foldChain op hne).of_eq_ok hvalue
  refine ⟨hready, hextended, re, rfl, hre.congr fun env => ?_⟩
  rw [Expr.meaning, Expr.meanings_eq_map]

theorem concat (h : EvaluatedAll a d b values (operands.map fun e env => e.meaning env) b') (hne : operands ≠ [])
    (span : Span) :
    Evaluated a d b ((allPresent values).bind Folder.fold) (fun env => (Expr.concat span operands).meaning env) b' := by
  obtain ⟨hready, hextended, res, rfl, hres⟩ := h
  have hne' : res ≠ [] := by
    rintro rfl
    exact hne (List.map_eq_nil_iff.mp (List.forall₂_nil_left_iff.mp hres))
  obtain ⟨re, hfold, hre⟩ := hres.fold hne'
  refine ⟨hready, hextended, re, ?_, hre.congr fun env => ?_⟩
  · rw [allPresent_map_some]
    exact hfold
  · rw [Expr.meaning, Expr.meanings_eq_map]

end EvaluatedAll

namespace Evaluated

variable {b₁ : Builder} {value value' : Option Re}

theorem repeated (h : Evaluated a d b value f b₁) {m n : Nat} (htried : ¬ (n = 0 ∨ n < m))
    (hrepeated : repeated m n value b₁ = (value', b')) :
    Evaluated a d b value' (fun env => (f env).repeated m n) b' ∧ b₁.table.Grows b'.table := by
  obtain ⟨hready, hextended, re, rfl, hre⟩ := h
  have hcopied := hready.repeated hre htried
  rw [hrepeated] at hcopied
  exact ⟨⟨hcopied.ready, hextended.trans hcopied.extended, hcopied.denotes⟩, hcopied.extended.grows⟩

theorem withQuantifier (h : Evaluated a d b value f b₁) {marker : Option String} {q : Quantifier}
    (hq : marker.bind Quantifier.ofMarker? = some q) :
    Evaluated a d b (withQuantifier marker value) (fun env => (f env).closure q) b₁ := by
  obtain ⟨hready, hextended, re, rfl, hre⟩ := h
  refine ⟨hready, hextended, .kleene re q, ?_, hre.kleene q⟩
  simp only [Builder.withQuantifier, hq, Option.map_some]

end Evaluated

/-- An escape that has no code point would be reported. -/
theorem Ready.literal (h : b.Ready a d) {content : Option (String × Nat)} {value : Option Re}
    (hliteral : b.literal content = .ok (value, b')) (hclean : b'.diagnostics = []) (span : Span) :
    Evaluated a d b value (fun env => (Expr.literal span content).meaning env) b' := by
  cases content with
  | none =>
      cases hliteral
      exact h.evaluated (.of_asStr? rfl)
  | some content =>
      obtain ⟨raw, start⟩ := content
      simp only [Builder.literal] at hliteral
      split at hliteral
      · rename_i cs hcs
        cases hliteral
        refine h.evaluated ((Table.Denotes.of_asStr? (Re.asStr?_literal cs)).congr fun env => ?_)
        simp only [Expr.meaning, hcs]
      · obtain ⟨at', -, heq⟩ := bind_eq_ok hliteral
        cases heq
        cases hclean

/-- The names are all bound, and none of them is forbidden. -/
def Known (ok : String → Prop) (names : List String) (t : Table Re) : Prop := ∀ n ∈ names, ok n ∧ t.Binds n

theorem Known.mono {names : List String} {t t' : Table Re} (h : Known ok names t) (hgrows : t.Grows t') :
    Known ok names t' := by
  intro n hn
  exact ⟨(h n hn).1, hgrows.binds (h n hn).2⟩

theorem Known.append {names names' : List String} {t : Table Re} (h : Known ok names t) (h' : Known ok names' t) :
    Known ok (names ++ names') t :=
  List.forall_mem_append.mpr ⟨h, h'⟩

mutual

/-- The names of the expression are bound already, since nothing is reported. -/
theorem build_evaluated (e : Expr) (b : Builder) {value : Option Re} {b' : Builder} (he : e.Whole ok)
    (hb : b.Ready a d) (h : build a e b = .ok (value, b')) (hclean : b'.diagnostics = []) :
    Evaluated a d b value (fun env => e.meaning env) b' ∧ Known ok e.references b'.table := by
  cases e with
  | missing => exact he.elim
  | chain span op operators operands =>
      obtain ⟨⟨values, b₁⟩, hall, hrest⟩ := bind_eq_ok h
      obtain ⟨value₁, hvalue, heq⟩ := bind_eq_ok hrest
      cases heq
      obtain ⟨hoperands, hnames⟩ := buildAll_evaluated operands b he.2 hb hall hclean
      exact ⟨hoperands.chain he.1 hvalue span, hnames⟩
  | concat span operands =>
      obtain ⟨⟨values, b₁⟩, hall, heq⟩ := bind_eq_ok h
      cases heq
      obtain ⟨hoperands, hnames⟩ := buildAll_evaluated operands b he.2 hb hall hclean
      exact ⟨hoperands.concat he.1 span, hnames⟩
  | output span lhs rhs =>
      obtain ⟨⟨input, b₁⟩, hlhs, hrest⟩ := bind_eq_ok h
      obtain ⟨⟨output, b₂⟩, hrhs, heq⟩ := bind_eq_ok hrest
      have hout : b₂.withOutput rhs.span input output = (value, b') := Except.ok.inj heq
      have hkept := kept_of_build hb.sound hlhs
      have hkept' := kept_of_build hkept.sound hrhs
      have hreported := (hkept'.sound.withOutput rhs.span input output).reported
      rw [hout] at hreported
      have hclean₂ := clean_of_suffix hreported hclean
      obtain ⟨hinput, hnames⟩ := build_evaluated lhs b he.1 hb hlhs (clean_of_suffix hkept'.reported hclean₂)
      obtain ⟨houtput, hnames'⟩ := build_evaluated rhs b₁ he.2 hinput.ready hrhs hclean₂
      obtain ⟨hsame, hevaluated⟩ := hinput.withOutput houtput hout hclean
      rw [hsame]
      exact ⟨hevaluated, (hnames.mono houtput.extended.grows).append hnames'⟩
  | weight span operand weight =>
      cases h
      cases hclean
  | repetition span operand isRange lower upper =>
      obtain ⟨⟨⟨m, n⟩, hbounds⟩, hoperand⟩ := he
      simp only [build, hbounds, Expr.meaning, Expr.references] at h ⊢
      split at h
      · rename_i hnever
        cases h
        rw [if_pos hnever]
        refine ⟨hb.evaluated ((Table.Denotes.of_asStr? rfl).congr fun env => ?_), fun name hname => nomatch hname⟩
        rw [Transduction.repeated, if_pos hnever, Transduction.literal_nil]
      · rename_i htried
        obtain ⟨⟨value₁, b₁⟩, hbuild, heq⟩ := bind_eq_ok h
        have hrepeat : repeated m n value₁ b₁ = (value, b') := Except.ok.inj heq
        have hkept := kept_of_build hb.sound hbuild
        have hreported := (hkept.sound.repeated m n hkept.value).reported
        rw [hrepeat] at hreported
        obtain ⟨hvalue₁, hnames⟩ := build_evaluated operand b hoperand hb hbuild (clean_of_suffix hreported hclean)
        obtain ⟨hvalue, hgrows⟩ := hvalue₁.repeated htried hrepeat
        rw [if_neg htried]
        exact ⟨hvalue, hnames.mono hgrows⟩
  | closure span operand marker =>
      obtain ⟨⟨value₁, b₁⟩, hoperand, heq⟩ := bind_eq_ok h
      cases heq
      obtain ⟨q, hq⟩ := he.1
      obtain ⟨hvalue₁, hnames⟩ := build_evaluated operand b he.2 hb hoperand hclean
      simp only [Expr.meaning, hq]
      exact ⟨hvalue₁.withQuantifier hq, hnames⟩
  | reference span name =>
      obtain ⟨n, rfl, hn⟩ := he
      have heq : (some (b.reference span n).1, (b.reference span n).2) = (value, b') := Except.ok.inj h
      obtain ⟨rfl, rfl⟩ := Prod.mk.inj heq
      obtain ⟨hsame, hbinds, hdenotes⟩ := hb.reference hclean
      rw [hsame]
      refine ⟨hb.evaluated hdenotes, fun other hother => ?_⟩
      rw [List.mem_singleton.mp hother]
      exact ⟨hn, hbinds⟩
  | literal span content => exact ⟨hb.literal h hclean span, fun n hn => nomatch hn⟩
  | group span inner => exact build_evaluated inner b he hb h hclean
  | call span name arguments =>
      cases h
      cases hclean

theorem buildAll_evaluated (es : List Expr) (b : Builder) {values : List (Option Re)} {b' : Builder}
    (hes : Expr.WholeAll ok es) (hb : b.Ready a d) (h : buildAll a es b = .ok (values, b'))
    (hclean : b'.diagnostics = []) :
    EvaluatedAll a d b values (es.map fun e env => e.meaning env) b' ∧ Known ok (Expr.referencesOf es) b'.table := by
  cases es with
  | nil =>
      cases h
      exact ⟨⟨hb, .refl d b.table, [], rfl, .nil⟩, fun n hn => nomatch hn⟩
  | cons e es =>
      obtain ⟨⟨value, b₁⟩, he, hrest⟩ := bind_eq_ok h
      obtain ⟨⟨values₁, b₂⟩, hes', heq⟩ := bind_eq_ok hrest
      cases heq
      have hkept := kept_of_build hb.sound he
      obtain ⟨-, hreported, -⟩ := (buildAll_returns a es b₁ hkept.sound).of_eq_ok hes'
      have hclean₁ := clean_of_suffix (b := b₁) hreported hclean
      obtain ⟨⟨hready, hextended, re, rfl, hre⟩, hnames⟩ := build_evaluated e b hes.1 hb he hclean₁
      obtain ⟨⟨hready', hextended', res, rfl, hres⟩, hnames'⟩ := buildAll_evaluated es b₁ hes.2 hready hes' hclean
      refine ⟨⟨hready', hextended.trans hextended', re :: res, rfl, .cons (hre.mono hextended'.grows) hres⟩, ?_⟩
      exact (hnames.mono hextended'.grows).append hnames'

end

/-! ### Definitions -/

theorem define_eq_ok {body : Expr} (h : b.Idle a) (hdefine : define a d body b = .ok b') :
    ∃ value b₁, build a body { b with current := some d, counter := 0 } = .ok (value, b₁) ∧
      b' = { b₁ with
        current := none
        table := match value with
          | some re => b₁.table.insert d re
          | none => b₁.table } := by
  have hbegin : b.beginDefinition d = .ok { b with current := some d, counter := 0 } := by
    rw [beginDefinition, h.1]
  unfold define at hdefine
  rw [hbegin] at hdefine
  obtain ⟨⟨value, b₁⟩, hbuild, hend⟩ :=
    bind_eq_ok (r := build a body { b with current := some d, counter := 0 }) hdefine
  have hcurrent : b₁.current = some d :=
    (kept_of_build (b := { b with current := some d, counter := 0 }) h.2 hbuild).current_eq
  have hend' : b₁.endDefinition d value = .ok _ := if_pos hcurrent
  exact ⟨value, b₁, hbuild, Except.ok.inj (hend.symm.trans hend')⟩

/-- The names of a source that keep off the names made up. -/
abbrev Plain (name : String) : Prop := isReserved name = false

/-- What holds between statements if nothing was reported: the names of the table are those defined so far and those
made up for them, and each definition means what its name is bound to, in whatever way names get their meaning. -/
structure Faithful (a : Alphabet) (definitions : List (String × Expr)) (b : Builder) : Prop where
  idle : b.Idle a
  consistent : b.table.Consistent a
  plain : ∀ d ∈ definitions, Plain d.1
  named : ∀ name, b.table.Binds name → ∃ d ∈ definitions, name = d.1 ∨ ∃ k, name = syntheticName d.1 k
  denotes : ∀ d ∈ definitions, ∃ re, b.table.get? d.1 = some re ∧ b.table.Denotes a re fun env => d.2.meaning env
  agree : ∀ source table, Models definitions source → b.table.Solves a table → ∀ d ∈ definitions, source d.1 = table d.1

theorem faithful_start (a : Alphabet) : start.Faithful a [] where
  idle := idle_start a
  consistent := Table.consistent_empty a
  plain _ h := nomatch h
  named _ h := nomatch h.choose_spec
  denotes _ h := nomatch h
  agree _ _ _ _ _ h := nomatch h

namespace Faithful

variable {definitions : List (String × Expr)}

theorem defined (h : b.Faithful a definitions) {name : String} (hplain : Plain name) (hname : b.table.Binds name) :
    ∃ d ∈ definitions, name = d.1 := by
  obtain ⟨e, he, heq | ⟨k, rfl⟩⟩ := h.named name hname
  · exact ⟨e, he, heq⟩
  · rw [Plain, isReserved_syntheticName] at hplain
    cases hplain

theorem ready (h : b.Faithful a definitions) (hnew : ∀ e ∈ definitions, e.1 ≠ d) :
    Ready a d { b with current := some d, counter := 0 } where
  current_eq := rfl
  sound := h.idle.2
  consistent := h.consistent
  fresh k _ := by
    cases hget : b.table.get? (syntheticName d k) with
    | none => rfl
    | some re =>
        exfalso
        obtain ⟨e, he, heq | ⟨l, heq⟩⟩ := h.named _ ⟨re, hget⟩
        · have hplain := h.plain e he
          rw [Plain, ← heq, isReserved_syntheticName] at hplain
          cases hplain
        · exact hnew e he (syntheticName_inj heq).1.symm

/-- A definition adds its own name to the table, and those made up for it. -/
theorem define (h : b.Faithful a definitions) {body : Expr} (hplain : Plain d) (hnew : ∀ e ∈ definitions, e.1 ≠ d)
    (hbody : body.Whole Plain) (hdefine : define a d body b = .ok b') (hclean : b'.diagnostics = []) :
    b'.Faithful a (definitions ++ [(d, body)]) := by
  have hidle := ((h.idle.define d body).of_eq_ok hdefine).1
  obtain ⟨value, b₁, hbuild, rfl⟩ := define_eq_ok h.idle hdefine
  obtain ⟨⟨hready, ⟨hgrows, hmade⟩, re, rfl, hre⟩, hnames⟩ := build_evaluated body _ hbody (h.ready hnew) hbuild hclean
  -- Of the plain names, the table still has those that were defined before.
  have hold {name : String} (hname : Plain name) (hbinds : b₁.table.Binds name) : ∃ e ∈ definitions, name = e.1 := by
    obtain hbinds | ⟨k, rfl⟩ := hmade name hbinds
    · exact h.defined hname hbinds
    · rw [Plain, isReserved_syntheticName] at hname
      cases hname
  have hfresh : b₁.table.get? d = none := by
    by_contra hget
    obtain ⟨e, he, heq⟩ := hold hplain (Option.ne_none_iff_exists'.mp hget)
    exact hnew e he heq.symm
  have hgrows' := Table.grows_insert hfresh re
  have hself := Table.get?_insert_self b₁.table d re
  refine ⟨hidle, hready.consistent.insert hfresh hre.bound, ?_, fun name hname => ?_, ?_, ?_⟩
  · exact List.forall_mem_append.mpr ⟨h.plain, List.forall_mem_singleton.mpr hplain⟩
  · obtain rfl | hname := Table.binds_insert hname
    · exact ⟨(d, body), List.mem_append_right _ List.mem_cons_self, .inl rfl⟩
    · obtain hname | ⟨k, rfl⟩ := hmade name hname
      · obtain ⟨e, he, heq⟩ := h.named name hname
        exact ⟨e, List.mem_append_left _ he, heq⟩
      · exact ⟨(d, body), List.mem_append_right _ List.mem_cons_self, .inr ⟨k, rfl⟩⟩
  · refine List.forall_mem_append.mpr ⟨fun e he => ?_, List.forall_mem_singleton.mpr ⟨re, hself, hre.mono hgrows'⟩⟩
    obtain ⟨re', hget, hre'⟩ := h.denotes e he
    exact ⟨re', hgrows' _ _ (hgrows _ _ hget), hre'.mono (hgrows.trans hgrows')⟩
  · intro source table hsource htable
    obtain ⟨hmodels, hlast⟩ := List.forall_mem_append.mp hsource
    have hold' := h.agree source table hmodels (hgrows.solves (hgrows'.solves htable))
    refine List.forall_mem_append.mpr ⟨hold', List.forall_mem_singleton.mpr ?_⟩
    calc source d
        _ = body.meaning source := hlast (d, body) List.mem_cons_self
        _ = body.meaning table := by
          refine body.meaning_congr fun name hname => ?_
          obtain ⟨hname', hbinds⟩ := hnames name hname
          obtain ⟨e, he, rfl⟩ := hold hname' hbinds
          exact hold' e he
        _ = re.meaning a table := (hre.meaning_eq table (hgrows'.solves htable)).symm
        _ = table d := (htable d re hself).symm

/-- Only definitions are not reported. -/
theorem visit (h : b.Faithful a definitions) {stmt : Stmt} (hstmt : stmt.Whole Plain)
    (hnew : ∀ x ∈ stmt.binding?, ∀ e ∈ definitions, e.1 ≠ x.1) (hvisit : visit a b stmt = .ok b')
    (hclean : b'.diagnostics = []) : ∃ x, stmt.binding? = some x ∧ b'.Faithful a (definitions ++ [x]) := by
  cases stmt with
  | definition span exported name body =>
      obtain ⟨⟨n, rfl, hplain⟩, hbody⟩ := hstmt
      exact ⟨(n, body), rfl, h.define hplain (hnew (n, body) rfl) hbody hvisit hclean⟩
  | importing span path renamed =>
      cases hvisit
      cases hclean
  | function span name params body =>
      cases hvisit
      cases hclean
  | returning span body =>
      cases hvisit
      cases hclean

theorem visitAll (h : b.Faithful a definitions) {stmts : List Stmt} (hstmts : ∀ stmt ∈ stmts, stmt.Whole Plain)
    (hnodup : ((definitions ++ Stmt.bindings stmts).map Prod.fst).Nodup)
    (hvisit : stmts.foldlM (Builder.visit a) b = .ok b') (hclean : b'.diagnostics = []) :
    b'.Faithful a (definitions ++ Stmt.bindings stmts) ∧ ∀ stmt ∈ stmts, ∃ x, stmt.binding? = some x := by
  induction stmts generalizing definitions b with
  | nil =>
      cases hvisit
      rw [Stmt.bindings, List.filterMap_nil, List.append_nil]
      exact ⟨h, fun _ hstmt => nomatch hstmt⟩
  | cons stmt stmts ih =>
      obtain ⟨b₁, hfirst, hrest⟩ := bind_eq_ok hvisit
      obtain ⟨hstmt, hstmts⟩ := List.forall_mem_cons.mp hstmts
      have hidle := ((h.idle.visit stmt).of_eq_ok hfirst).1
      have hclean₁ := clean_of_suffix ((hidle.visitAll stmts).of_eq_ok hrest).2 hclean
      have hnew : ∀ x ∈ stmt.binding?, ∀ e ∈ definitions, e.1 ≠ x.1 := by
        intro x hx e he
        rw [List.map_append, List.nodup_append] at hnodup
        refine hnodup.2.2 e.1 (List.mem_map_of_mem he) x.1 (List.mem_map_of_mem ?_)
        exact List.mem_filterMap.mpr ⟨stmt, List.mem_cons_self, hx⟩
      obtain ⟨x, hx, hfaithful⟩ := h.visit hstmt hnew hfirst hclean₁
      have hbindings : definitions ++ Stmt.bindings (stmt :: stmts) = definitions ++ [x] ++ Stmt.bindings stmts := by
        rw [Stmt.bindings, List.filterMap_cons_some hx, List.append_assoc]
        rfl
      rw [hbindings] at hnodup ⊢
      obtain ⟨hall, hothers⟩ := ih hfaithful hstmts hnodup hrest
      exact ⟨hall, List.forall_mem_cons.mpr ⟨⟨x, hx⟩, hothers⟩⟩

end Faithful

/-- The builder preserves meaning: whatever environments give the names of a source and of its table their meaning,
the value of a definition denotes the relation of its body. -/
theorem run_faithful {stmts : List Stmt} (hstmts : ∀ stmt ∈ stmts, stmt.Whole Plain)
    (hnodup : ((Stmt.bindings stmts).map Prod.fst).Nodup) (hrun : run a stmts = .ok b) (hclean : b.diagnostics = []) :
    b.Faithful a (Stmt.bindings stmts) ∧ ∀ stmt ∈ stmts, ∃ x, stmt.binding? = some x :=
  (faithful_start a).visitAll hstmts hnodup hrun hclean

namespace Faithful

variable {definitions : List (String × Expr)}

/-- A solution of the table gives every name the meaning of its definition. -/
theorem models (h : b.Faithful a definitions) {env : Env} (henv : b.table.Solves a env) : Models definitions env := by
  intro e he
  obtain ⟨re, hget, hre⟩ := h.denotes e he
  rw [henv e.1 re hget, hre.meaning_eq env henv]

theorem meaning_eq (h : b.Faithful a definitions) {source table : Env} (hsource : Models definitions source)
    (htable : b.table.Solves a table) {e : String × Expr} (he : e ∈ definitions) {re : Re}
    (hre : b.table.get? e.1 = some re) : re.meaning a table = e.2.meaning source := by
  calc re.meaning a table
      _ = table e.1 := (htable e.1 re hre).symm
      _ = source e.1 := (h.agree source table hsource htable e he).symm
      _ = e.2.meaning source := hsource e he

end Faithful

end Builder

/-- Compiling preserves meaning. If a source compiles without any diagnostic, its definitions have different names and no
name starts with two underscores, then there are environments that give the names of the source and those of the table
their meaning, every statement is a definition whose name is bound, and in all such environments the value that the name
is bound to denotes the relation of the definition's body. -/
theorem compile_preserves_meaning {options : Options} {source : String} {c : Compilation}
    (hcompile : compile options source = .ok c) (hclean : c.diagnostics = [])
    (hnames : ((Stmt.bindings (Stmt.ofRoot c.root)).map Prod.fst).Nodup)
    (hplain : ∀ t ∈ lex source, t.kind = .id → isReserved t.text = false) :
    (∃ env, Models (Stmt.bindings (Stmt.ofRoot c.root)) env) ∧
      (∃ env, c.program.table.Solves options.alphabet env) ∧
      ∀ stmt ∈ Stmt.ofRoot c.root, ∃ name body re, stmt.binding? = some (name, body) ∧
        c.program.table.get? name = some re ∧
        ∀ sourceEnv tableEnv, Models (Stmt.bindings (Stmt.ofRoot c.root)) sourceEnv →
          c.program.table.Solves options.alphabet tableEnv →
          re.meaning options.alphabet tableEnv = body.meaning sourceEnv := by
  obtain ⟨p, hparse⟩ | ⟨e, hparse, -⟩ := parse_returns options.limits source
  · obtain ⟨built, hbuilt, -⟩ := Builder.run_returns options.alphabet (Stmt.ofRoot p.root)
    rw [compile_eq hparse hbuilt] at hcompile
    cases hcompile
    obtain ⟨hparsed, hbuiltClean⟩ := List.append_eq_nil_iff.mp hclean
    have hwhole : ∀ stmt ∈ Stmt.ofRoot p.root, stmt.Whole Builder.Plain := whole_of_parse hparse hparsed hplain
    obtain ⟨hfaithful, hbindings⟩ :=
      Builder.run_faithful hwhole hnames hbuilt (List.reverse_eq_nil_iff.mp hbuiltClean)
    obtain ⟨env, henv⟩ := hfaithful.consistent.solvable
    refine ⟨⟨env, hfaithful.models henv⟩, ⟨env, henv⟩, fun stmt hstmt => ?_⟩
    obtain ⟨⟨name, body⟩, hbinding⟩ := hbindings stmt hstmt
    have hmem : (name, body) ∈ Stmt.bindings (Stmt.ofRoot p.root) := List.mem_filterMap.mpr ⟨stmt, hstmt, hbinding⟩
    obtain ⟨re, hget, -⟩ := hfaithful.denotes (name, body) hmem
    refine ⟨name, body, re, hbinding, hget, fun sourceEnv tableEnv hsource htable => ?_⟩
    exact hfaithful.meaning_eq hsource htable hmem hget
  · rw [compile, hparse] at hcompile
    cases hcompile

/-- A class that is folded, copied into another definition and hoisted there. -/
theorem compile_preserves_meaning_of_repetition :
    ∃ c, compile ⟨.none, .unicode⟩ "a = \"x\" | \"y\"; b = a{2};" = .ok c ∧
      (∃ env, c.program.table.Solves .unicode env) ∧
      ∀ stmt ∈ Stmt.ofRoot c.root, ∃ name body re, stmt.binding? = some (name, body) ∧
        c.program.table.get? name = some re ∧
        ∀ sourceEnv tableEnv, Models (Stmt.bindings (Stmt.ofRoot c.root)) sourceEnv →
          c.program.table.Solves .unicode tableEnv → re.meaning .unicode tableEnv = body.meaning sourceEnv := by
  have hcompiles : ((compile ⟨.none, .unicode⟩ "a = \"x\" | \"y\"; b = a{2};").toOption.map fun c =>
      (c.diagnostics.isEmpty, (Stmt.bindings (Stmt.ofRoot c.root)).map Prod.fst)) = some (true, ["a", "b"]) := by
    decide +kernel
  have hplain : ((lex "a = \"x\" | \"y\"; b = a{2};").all fun t => t.kind != .id || !isReserved t.text) = true := by
    decide +kernel
  cases hcompile : compile ⟨.none, .unicode⟩ "a = \"x\" | \"y\"; b = a{2};" with
  | error e =>
      rw [hcompile] at hcompiles
      cases hcompiles
  | ok c =>
      rw [hcompile] at hcompiles
      obtain ⟨hclean, hnames⟩ := Prod.mk.inj (Option.some.inj hcompiles)
      refine ⟨c, rfl, (compile_preserves_meaning hcompile (List.isEmpty_iff.mp hclean) ?_ fun t ht hk => ?_).2⟩
      · rw [hnames]
        decide
      · have hall := List.all_eq_true.mp hplain t ht
        simpa [hk] using hall

end Transducer
