import Transducer.Program.Compilation
import Transducer.Proofs.CharClass.Algebra
import Transducer.Proofs.Parse.Totality
import Transducer.Proofs.Program.Folder
import Transducer.Proofs.Table

/-!
# Compiling never faults

The builder can fail in two ways: when a definition is begun or ended out of turn, and when classes do not lie in the
alphabet. Evaluating an expression leaves the open definition alone, and every class that it makes or copies is
well-formed for the alphabet, whatever the bounds of the alphabet are. So the builder always returns, and a source
compiles unless the parse hits a limit.
-/

namespace Transducer

/-- An expression that is a class is a well-formed one. -/
def Re.WellFormed (a : Alphabet) (re : Re) : Prop := ∀ k, re = .set k → CharClass.WellFormed a k

namespace Re

variable {a : Alphabet} {re : Re}

theorem wellFormed_of_not_isSetLike (h : re.isSetLike = false) : re.WellFormed a := by
  rintro k rfl
  cases h

theorem wellFormed_some (h : re.WellFormed a) : ∀ r ∈ some re, r.WellFormed a := by
  intro r hr
  cases hr
  exact h

theorem wellFormed_none : ∀ r ∈ (none : Option Re), r.WellFormed a := by
  intro r hr
  cases hr

theorem wellFormed_literal (a : Alphabet) (cs : List CodePoint) : (literal cs).WellFormed a := by
  intro k hk
  unfold literal at hk
  split at hk
  · cases hk
  · cases hk

end Re

/-! ### Escapes -/

namespace Literal

/-- The escape that is being read starts at or before the offset. -/
def Place.StartsBefore (offset : Nat) : Place → Prop
  | .plain => True
  | .escape start => start ≤ offset
  | .bracket start _ => start ≤ offset

theorem start_le_stop_of_unescapeFrom {place : Place} {offset : Nat} {cs : List Char} {e : EscapeError}
    (hplace : place.StartsBefore offset) (h : unescapeFrom place offset cs = .error e) : e.start ≤ e.stop := by
  have hmap {f : List CodePoint → List CodePoint} {r : Except EscapeError (List CodePoint)}
      (hr : r.map f = .error e) : r = .error e := by
    cases r with
    | error e' => exact hr
    | ok cs => cases hr
  fun_induction unescapeFrom place offset cs with
  | case1 => cases h
  | case2 start offset =>
      cases h
      exact hplace
  | case3 start digits offset =>
      cases h
      exact hplace
  | case4 offset cs ih => exact ih (Nat.le_succ offset) h
  | case5 offset cs _ ih => exact ih (Nat.le_succ offset) h
  | case6 offset c cs _ _ ih => exact ih trivial (hmap h)
  | case7 start offset c cs ih => exact ih trivial (hmap h)
  | case8 start digits offset cs value _ ih => exact ih trivial (hmap h)
  | case9 start digits offset cs fault _ =>
      cases h
      exact Nat.le_succ_of_le hplace
  | case10 start digits offset c cs _ ih => exact ih (Nat.le_add_right_of_le hplace) h

end Literal

namespace Builder

open CharClass (WellFormed)

variable {a : Alphabet} {b : Builder}

/-- Every class in the table is well-formed. -/
def Sound (a : Alphabet) (b : Builder) : Prop := ∀ name re, b.table.get? name = some re → re.WellFormed a

/-- What evaluating an expression in the state `b` leads to: the same open definition, sound values, and no report
less than before. -/
structure Kept (a : Alphabet) (b : Builder) (value : Option Re) (b' : Builder) : Prop where
  current_eq : b'.current = b.current
  reported : b.diagnostics <:+ b'.diagnostics
  sound : b'.Sound a
  value : ∀ re ∈ value, re.WellFormed a

theorem Sound.insert (h : b.Sound a) (name : String) {re : Re} (hre : re.WellFormed a) :
    ∀ other re', (b.table.insert name re).get? other = some re' → re'.WellFormed a := by
  intro other re' hget
  rw [Table.get?_insert] at hget
  split at hget
  · cases hget
    exact hre
  · exact h other re' hget

/-! ### Classes -/

theorem setOf_returns {re : Re} (h : re.WellFormed a) :
    Returns (setOf a re) fun value => ∀ k ∈ value, WellFormed a k := by
  cases re with
  | set k =>
      refine .ok fun k' hk => ?_
      cases hk
      exact h k rfl
  | char c =>
      simp only [setOf, Re.asSet]
      split
      · rename_i hc
        obtain ⟨k, hk, hwell, -⟩ := CharClass.singleton_spec hc
        rw [hk]
        refine .ok fun k' hk' => ?_
        cases hk'
        exact hwell
      · exact .ok fun _ hk => nomatch hk
  | _ => exact .ok fun _ hk => nomatch hk

theorem setPair_returns {l r : Re} (hl : l.WellFormed a) (hr : r.WellFormed a) :
    Returns (setPair a l r) fun pair => ∀ k ∈ pair, WellFormed a k.1 ∧ WellFormed a k.2 := by
  refine (setOf_returns hl).bind fun left hleft => ?_
  cases left with
  | none => exact .ok fun _ hk => nomatch hk
  | some k =>
      refine (setOf_returns hr).bind fun right hright => .ok fun pair hpair => ?_
      obtain ⟨m, hm, rfl⟩ := Option.map_eq_some_iff.mp hpair
      exact ⟨hleft k rfl, hright m hm⟩

/-- Classes that are well-formed can be combined, and the result is well-formed again. -/
theorem foldSets_returns (f : Bool → Bool → Bool) (node : Re → Re → Re) (hnode : ∀ l r, (node l r).WellFormed a)
    {l r : Re} (hl : l.WellFormed a) (hr : r.WellFormed a) :
    Returns (foldSets a (CharClass.combine a f) node l r) (Re.WellFormed a) := by
  refine (setPair_returns hl hr).bind fun pair hpair => ?_
  cases pair with
  | none => exact .ok (hnode l r)
  | some pair =>
      obtain ⟨hk, hm⟩ := hpair pair rfl
      obtain ⟨folded, hfolded, hwell, -⟩ := WellFormed.combine f hk hm
      simp only [hfolded]
      refine .ok fun k' hk' => ?_
      cases hk'
      exact hwell

theorem combine_returns (op : ChainOp) {l r : Re} (hl : l.WellFormed a) (hr : r.WellFormed a) :
    Returns (combine a op l r) (Re.WellFormed a) := by
  cases op with
  | union => exact foldSets_returns _ .union (fun _ _ => Re.wellFormed_of_not_isSetLike rfl) hl hr
  | diff => exact foldSets_returns _ .diff (fun _ _ => Re.wellFormed_of_not_isSetLike rfl) hl hr
  | compose => exact .ok (Re.wellFormed_of_not_isSetLike rfl)

theorem foldlM_combine_returns (op : ChainOp) {res : List Re} {re : Re} (hres : ∀ r ∈ res, r.WellFormed a)
    (hre : re.WellFormed a) : Returns (res.foldlM (combine a op) re) (Re.WellFormed a) := by
  induction res generalizing re with
  | nil => exact .ok hre
  | cons r res ih =>
      obtain ⟨hr, hres⟩ := List.forall_mem_cons.mp hres
      exact (combine_returns op hre hr).bind fun folded hfolded => ih hres hfolded

theorem foldChain_returns (op : ChainOp) {res : List Re} (hres : ∀ r ∈ res, r.WellFormed a) :
    Returns (foldChain a op res) fun value => ∀ re ∈ value, re.WellFormed a := by
  cases res with
  | nil => exact .ok Re.wellFormed_none
  | cons re res =>
      obtain ⟨hre, hres⟩ := List.forall_mem_cons.mp hres
      exact (foldlM_combine_returns op hres hre).map fun _ hfolded => Re.wellFormed_some hfolded

/-- If all values are there, they are the expressions in their order. -/
theorem eq_map_some_of_allPresent {values : List (Option Re)} {res : List Re} (h : allPresent values = some res) :
    values = res.map some := by
  induction values generalizing res with
  | nil =>
      cases h
      rfl
  | cons value values ih =>
      simp only [allPresent, List.mapM_cons, Option.bind_eq_bind, Option.bind_eq_some_iff, Option.pure_def,
        Option.some.injEq] at h
      obtain ⟨re, rfl, res', hres', rfl⟩ := h
      rw [List.map_cons, ih hres']

theorem wellFormed_of_allPresent {values : List (Option Re)} {res : List Re}
    (hvalues : ∀ value ∈ values, ∀ re ∈ value, re.WellFormed a) (h : allPresent values = some res) :
    ∀ re ∈ res, re.WellFormed a := by
  intro re hre
  refine hvalues (some re) ?_ re rfl
  rw [eq_map_some_of_allPresent h]
  exact List.mem_map_of_mem hre

theorem chainValue_returns (op : ChainOp) (operators : Nat) {values : List (Option Re)}
    (hvalues : ∀ value ∈ values, ∀ re ∈ value, re.WellFormed a) :
    Returns (chainValue a op operators values) fun value => ∀ re ∈ value, re.WellFormed a := by
  unfold chainValue
  split
  · exact .ok Re.wellFormed_none
  · split
    · exact .ok Re.wellFormed_none
    · rename_i res hres
      exact foldChain_returns op (wellFormed_of_allPresent hvalues hres)

/-! ### Juxtapositions -/

theorem wellFormed_join (l r : Re) : (l.join r).WellFormed a := by
  unfold Re.join
  split
  · exact Re.wellFormed_literal a _
  · exact Re.wellFormed_of_not_isSetLike rfl

theorem wellFormed_fold {res : List Re} (hres : ∀ r ∈ res, r.WellFormed a) :
    ∀ re ∈ Folder.fold res, re.WellFormed a := by
  cases res with
  | nil => exact Re.wellFormed_none
  | cons re res =>
      have hfold (re : Re) (hre : re.WellFormed a) : (res.foldl Re.join re).WellFormed a := by
        clear hres
        induction res generalizing re with
        | nil => exact hre
        | cons r res ih => exact ih _ (wellFormed_join re r)
      intro re' hre'
      rw [Folder.fold_cons] at hre'
      cases hre'
      exact hfold re (hres re List.mem_cons_self)

theorem wellFormed_copies {unit : Re} (h : unit.WellFormed a) (lower upper : Nat) :
    ∀ re ∈ copies unit lower upper, re.WellFormed a := by
  refine wellFormed_fold fun re hre => ?_
  obtain hre | hre := List.mem_append.mp hre
  · rw [List.eq_of_mem_replicate hre]
    exact h
  · rw [List.eq_of_mem_replicate hre]
    exact Re.wellFormed_of_not_isSetLike rfl

/-! ### Evaluating -/

namespace Sound

theorem repeated (h : b.Sound a) (lower upper : Nat) {value : Option Re} (hvalue : ∀ re ∈ value, re.WellFormed a) :
    Kept a b (Builder.repeated lower upper value b).1 (Builder.repeated lower upper value b).2 := by
  unfold Builder.repeated
  split
  · exact ⟨rfl, List.suffix_rfl, h, Re.wellFormed_none⟩
  · rename_i re
    split
    · exact ⟨rfl, List.suffix_rfl, h, wellFormed_copies (hvalue re rfl) lower upper⟩
    · unfold hoist
      cases hcurrent : b.current with
      | none => exact ⟨rfl, List.suffix_rfl, h, Re.wellFormed_none⟩
      | some definition =>
          refine ⟨hcurrent.symm, List.suffix_rfl, h.insert _ (hvalue re rfl), ?_⟩
          exact wellFormed_copies (Re.wellFormed_of_not_isSetLike rfl) lower upper

theorem reference (h : b.Sound a) (span : Span) (name : String) :
    Kept a b (some (b.reference span name).1) (b.reference span name).2 := by
  unfold Builder.reference
  split
  · rename_i re hget
    split
    · exact ⟨rfl, List.suffix_rfl, h, Re.wellFormed_some (h name re hget)⟩
    · exact ⟨rfl, List.suffix_rfl, h, Re.wellFormed_some (Re.wellFormed_of_not_isSetLike rfl)⟩
  · exact ⟨rfl, List.suffix_cons _ _, h, Re.wellFormed_some (Re.wellFormed_of_not_isSetLike rfl)⟩

theorem literal (h : b.Sound a) (content : Option (String × Nat)) :
    Returns (b.literal content) fun r => Kept a b r.1 r.2 := by
  unfold Builder.literal
  split
  · exact .ok ⟨rfl, List.suffix_rfl, h, Re.wellFormed_some (Re.wellFormed_of_not_isSetLike rfl)⟩
  · split
    · exact .ok ⟨rfl, List.suffix_rfl, h, Re.wellFormed_some (Re.wellFormed_literal a _)⟩
    · rename_i raw start _ e herror
      have hplain : Literal.Place.StartsBefore 0 .plain := trivial
      have hle := Literal.start_le_stop_of_unescapeFrom hplain herror
      rw [Span.checked_of_le (Nat.add_le_add_left hle start)]
      exact .ok ⟨rfl, List.suffix_cons _ _, h, Re.wellFormed_none⟩

theorem withOutput (h : b.Sound a) (span : Span) (input output : Option Re) :
    Kept a b (b.withOutput span input output).1 (b.withOutput span input output).2 := by
  unfold Builder.withOutput
  split
  · split
    · exact ⟨rfl, List.suffix_rfl, h, Re.wellFormed_some (Re.wellFormed_of_not_isSetLike rfl)⟩
    · exact ⟨rfl, List.suffix_cons _ _, h, Re.wellFormed_some (Re.wellFormed_of_not_isSetLike rfl)⟩
  · exact ⟨rfl, List.suffix_rfl, h, Re.wellFormed_none⟩

end Sound

theorem Kept.trans {b₁ b₂ : Builder} {value₁ value₂ : Option Re} (h₁ : Kept a b value₁ b₁) (h₂ : Kept a b₁ value₂ b₂) :
    Kept a b value₂ b₂ :=
  ⟨h₂.current_eq.trans h₁.current_eq, h₁.reported.trans h₂.reported, h₂.sound, h₂.value⟩

theorem wellFormed_withQuantifier (marker : Option String) {value : Option Re}
    (hvalue : ∀ re ∈ value, re.WellFormed a) : ∀ re ∈ withQuantifier marker value, re.WellFormed a := by
  unfold withQuantifier
  split
  · intro re hre
    obtain ⟨operand, -, rfl⟩ := Option.map_eq_some_iff.mp hre
    exact Re.wellFormed_of_not_isSetLike rfl
  · exact hvalue

mutual

/-- An expression can always be evaluated, and soundness is kept. -/
theorem build_returns (a : Alphabet) (e : Expr) (b : Builder) (h : b.Sound a) :
    Returns (build a e b) fun r => Kept a b r.1 r.2 := by
  cases e with
  | missing => exact .ok ⟨rfl, List.suffix_rfl, h, Re.wellFormed_none⟩
  | chain span op operators operands =>
      refine (buildAll_returns a operands b h).bind fun r hr => ?_
      obtain ⟨hcurrent, hreported, hsound, hvalues⟩ := hr
      exact (chainValue_returns op operators hvalues).bind fun value hvalue =>
        .ok ⟨hcurrent, hreported, hsound, hvalue⟩
  | concat span operands =>
      refine (buildAll_returns a operands b h).bind fun r hr => ?_
      obtain ⟨hcurrent, hreported, hsound, hvalues⟩ := hr
      refine .ok ⟨hcurrent, hreported, hsound, fun re hre => ?_⟩
      obtain ⟨res, hres, hfold⟩ := Option.bind_eq_some_iff.mp hre
      exact wellFormed_fold (wellFormed_of_allPresent hvalues hres) re hfold
  | output span lhs rhs =>
      refine (build_returns a lhs b h).bind fun r hr => ?_
      refine (build_returns a rhs r.2 hr.sound).bind fun r' hr' => ?_
      exact .ok ((hr.trans hr').trans (hr'.sound.withOutput rhs.span r.1 r'.1))
  | weight span operand value =>
      exact .ok ⟨rfl, List.suffix_cons _ _, h, Re.wellFormed_some (Re.wellFormed_of_not_isSetLike rfl)⟩
  | repetition span operand isRange lower upper =>
      simp only [build]
      split
      · exact .ok ⟨rfl, List.suffix_rfl, h, Re.wellFormed_none⟩
      · split
        · exact .ok ⟨rfl, List.suffix_rfl, h, Re.wellFormed_some (Re.wellFormed_of_not_isSetLike rfl)⟩
        · refine (build_returns a operand b h).bind fun r hr => ?_
          exact .ok (hr.trans (hr.sound.repeated _ _ hr.value))
  | closure span operand marker =>
      refine (build_returns a operand b h).bind fun r hr => ?_
      exact .ok ⟨hr.current_eq, hr.reported, hr.sound, wellFormed_withQuantifier marker hr.value⟩
  | reference span name =>
      cases name with
      | none => exact .ok ⟨rfl, List.suffix_rfl, h, Re.wellFormed_none⟩
      | some name => exact .ok (h.reference span name)
  | literal span content => exact h.literal content
  | group span inner => exact build_returns a inner b h
  | call span name arguments =>
      exact .ok ⟨rfl, List.suffix_cons _ _, h, Re.wellFormed_some (Re.wellFormed_of_not_isSetLike rfl)⟩

theorem buildAll_returns (a : Alphabet) (es : List Expr) (b : Builder) (h : b.Sound a) :
    Returns (buildAll a es b) fun r =>
      r.2.current = b.current ∧ b.diagnostics <:+ r.2.diagnostics ∧ r.2.Sound a ∧
        ∀ value ∈ r.1, ∀ re ∈ value, re.WellFormed a := by
  cases es with
  | nil => exact .ok ⟨rfl, List.suffix_rfl, h, fun _ hvalue => nomatch hvalue⟩
  | cons e es =>
      refine (build_returns a e b h).bind fun r hr => ?_
      refine (buildAll_returns a es r.2 hr.sound).bind fun r' hr' => ?_
      obtain ⟨hcurrent, hreported, hsound, hvalues⟩ := hr'
      exact .ok ⟨hcurrent.trans hr.current_eq, hr.reported.trans hreported, hsound,
        List.forall_mem_cons.mpr ⟨hr.value, hvalues⟩⟩

end

/-! ### Statements -/

/-- Between statements no definition is open. -/
def Idle (a : Alphabet) (b : Builder) : Prop := b.current = none ∧ b.Sound a

theorem Idle.define (h : b.Idle a) (name : String) (body : Expr) :
    Returns (define a name body b) fun b' => b'.Idle a ∧ b.diagnostics <:+ b'.diagnostics := by
  have hbegin : b.beginDefinition name = .ok { b with current := some name, counter := 0 } := by
    rw [beginDefinition, h.1]
  unfold Builder.define
  rw [hbegin]
  refine (build_returns a body { b with current := some name, counter := 0 } h.2).bind fun r hr => ?_
  obtain ⟨value, b'⟩ := r
  have hend : b'.endDefinition name value = .ok _ := if_pos hr.current_eq
  simp only [hend]
  refine .ok ⟨⟨rfl, ?_⟩, hr.reported⟩
  cases value with
  | none => exact hr.sound
  | some re => exact hr.sound.insert name (hr.value re rfl)

theorem Idle.visit (h : b.Idle a) (stmt : Stmt) :
    Returns (visit a b stmt) fun b' => b'.Idle a ∧ b.diagnostics <:+ b'.diagnostics := by
  cases stmt with
  | definition span exported name body =>
      cases name with
      | none => exact .ok ⟨h, List.suffix_rfl⟩
      | some name => exact h.define name body
  | importing span path renamed => exact .ok ⟨h, List.suffix_cons _ _⟩
  | function span name params body => exact .ok ⟨h, List.suffix_cons _ _⟩
  | returning span body => exact .ok ⟨h, List.suffix_cons _ _⟩

theorem Idle.visitAll (h : b.Idle a) (stmts : List Stmt) :
    Returns (stmts.foldlM (Builder.visit a) b) fun b' => b'.Idle a ∧ b.diagnostics <:+ b'.diagnostics := by
  induction stmts generalizing b with
  | nil => exact .ok ⟨h, List.suffix_rfl⟩
  | cons stmt stmts ih =>
      refine (h.visit stmt).bind fun b' hb' => (ih hb'.1).mono fun b'' hb'' => ?_
      exact ⟨hb''.1, hb'.2.trans hb''.2⟩

theorem idle_start (a : Alphabet) : start.Idle a := ⟨rfl, fun _ _ hget => nomatch hget⟩

theorem run_returns (a : Alphabet) (stmts : List Stmt) : Returns (run a stmts) (Idle a) :=
  ((idle_start a).visitAll stmts).mono fun _ h => h.1

end Builder

/-- The compilation of a source that is parsed into `p` and built into `built`. -/
theorem compile_eq {options : Options} {source : String} {p : Parse.Parsed} {built : Builder}
    (hparse : parse options.limits source = .ok p)
    (hbuilt : Builder.run options.alphabet (Stmt.ofRoot p.root) = .ok built) :
    compile options source = .ok ⟨source, p.root, ⟨built.table, options.alphabet⟩, p.consumed, p.diagnostics,
      built.diagnostics.reverse⟩ := by
  unfold compile
  rw [hparse]
  change (Builder.run options.alphabet (Stmt.ofRoot p.root)).mapError Parse.Failure.fault >>= _ = _
  rw [hbuilt]
  rfl

/-- A source that compiles was parsed and built. -/
theorem compile_eq_ok {options : Options} {source : String} {c : Compilation} (h : compile options source = .ok c) :
    ∃ p built, parse options.limits source = .ok p ∧
      Builder.run options.alphabet (Stmt.ofRoot p.root) = .ok built ∧
      c = ⟨source, p.root, ⟨built.table, options.alphabet⟩, p.consumed, p.diagnostics, built.diagnostics.reverse⟩ := by
  obtain ⟨p, hparse⟩ | ⟨e, hparse, -⟩ := parse_returns options.limits source
  · obtain ⟨built, hbuilt, -⟩ := Builder.run_returns options.alphabet (Stmt.ofRoot p.root)
    rw [compile_eq hparse hbuilt] at h
    exact ⟨p, built, hparse, hbuilt, (Except.ok.inj h).symm⟩
  · rw [compile, hparse] at h
    cases h

/-- Every source compiles unless a limit is hit, whatever the limits and the bounds of the alphabet are: no internal
condition ever fails, not even behind the token at which a limit was hit. -/
theorem compile_never_faults (options : Options) (source : String) :
    (∃ c, compile options source = .ok c) ∨
      ∃ e, compile options source = .error (.limit e) ∧ options.limits ≠ .none := by
  obtain ⟨p, hparse⟩ | ⟨e, hparse, hlimits⟩ := parse_returns options.limits source
  · obtain ⟨built, hbuilt, -⟩ := Builder.run_returns options.alphabet (Stmt.ofRoot p.root)
    exact .inl ⟨_, compile_eq hparse hbuilt⟩
  · refine .inr ⟨e, ?_, hlimits⟩
    rw [compile, hparse]
    rfl

end Transducer
