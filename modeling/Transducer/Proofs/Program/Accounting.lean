import Transducer.Proofs.Ast.Places
import Transducer.Proofs.Program.Hoisting

/-!
# Dangling references are accounted for

A value may refer to a name that nothing defines: to one that stands in for something not supported, or to one that the
source uses without a definition before it. Both are reported when the reference is made. Values are copied into others,
bound to names made up and replaced by later ones, but a report is never taken back and a name once bound stays bound.
So the reason why a reference is there stays with the builder for as long as the reference does.
-/

namespace Transducer

/-- A name stands in for something not supported, which is reported as the issue. -/
inductive StandsIn : String → Issue → Prop where
  | weight : StandsIn weightNotSupported .weightNotSupported
  | call : StandsIn functionNotSupported .functionNotSupported
  | output : StandsIn nondeterminismError .outputNotLiteral

/-- Why values may refer to a name: it is bound, it stands in for something that was reported, or it was reported as
undefined at a place where the source has it. -/
inductive Accounted (source : String) (names : List String) (ds : List Diagnostic) (name : String) : Prop where
  | bound (h : name ∈ names)
  | standsIn {d : Diagnostic} (hd : d ∈ ds) (h : StandsIn name d.issue)
  | undefined {d : Diagnostic} (hd : d ∈ ds) (hissue : d.issue = .undefinedReference)
      (hcovers : Covers source d.span name)

theorem Accounted.mono {source name : String} {names names' : List String} {ds ds' : List Diagnostic}
    (h : Accounted source names ds name) (hnames : names ⊆ names') (hds : ds ⊆ ds') :
    Accounted source names' ds' name := by
  cases h with
  | bound h => exact .bound (hnames h)
  | standsIn hd h => exact .standsIn (hds hd) h
  | undefined hd hissue hcovers => exact .undefined (hds hd) hissue hcovers

/-! ### What values refer to -/

/-- The value refers to names that satisfy a condition only. -/
def Re.Within (p : String → Prop) (re : Re) : Prop := ∀ name ∈ re.references, p name

namespace Re

variable {p : String → Prop} {l r re : Re}

theorem within_of_isStrLike (h : re.isStrLike = true) : re.Within p := by
  intro name hname
  rw [references_of_isStrLike h] at hname
  cases hname

theorem within_literal (cs : List CodePoint) : (literal cs).Within p :=
  within_of_isStrLike (by rw [isStrLike_eq, asStr?_literal]; rfl)

theorem within_var {name : String} (h : p name) : (var name).Within p := List.forall_mem_singleton.mpr h

theorem Within.join (hl : l.Within p) (hr : r.Within p) : (l.join r).Within p := by
  unfold Re.join
  split
  · exact within_literal _
  · rw [Within, references_concat]
    exact List.forall_mem_append.mpr ⟨hl, hr⟩

theorem within_fold {res : List Re} (h : ∀ re ∈ res, re.Within p) : ∀ re ∈ Folder.fold res, re.Within p := by
  cases res with
  | nil => exact fun _ hre => nomatch hre
  | cons first res =>
      obtain ⟨hfirst, hres⟩ := List.forall_mem_cons.mp h
      rw [Folder.fold_cons]
      rintro re ⟨⟩
      clear h
      induction res generalizing first with
      | nil => exact hfirst
      | cons next res ih =>
          obtain ⟨hnext, hres⟩ := List.forall_mem_cons.mp hres
          exact ih (first.join next) (hfirst.join hnext) hres

theorem Within.copies (h : re.Within p) (m n : Nat) : ∀ re' ∈ Builder.copies re m n, re'.Within p := by
  refine within_fold fun re' hre' => ?_
  obtain hre' | hre' := List.mem_append.mp hre'
  · rw [List.eq_of_mem_replicate hre']
    exact h
  · rw [List.eq_of_mem_replicate hre']
    exact h

/-- Classes refer to nothing, and a node to what its operands refer to. -/
theorem within_foldSets {a : Alphabet} {fold : CharClass → CharClass → Except CharClass.Error CharClass}
    {node : Re → Re → Re} (h : (node l r).Within p) : Ensures (Builder.foldSets a fold node l r) (Within p) := by
  refine .after fun pair => ?_
  cases pair with
  | none => exact .ok h
  | some pair => exact .after fun k => .ok fun _ hname => nomatch hname

theorem Within.combine (hl : l.Within p) (hr : r.Within p) (a : Alphabet) (op : ChainOp) :
    Ensures (Builder.combine a op l r) (Within p) := by
  have hboth : ∀ name ∈ l.references ++ r.references, p name := List.forall_mem_append.mpr ⟨hl, hr⟩
  cases op with
  | union => exact within_foldSets (by rwa [Within, references_union])
  | diff => exact within_foldSets (by rwa [Within, references_diff])
  | compose => exact .ok (by rwa [Within, references_compose])

theorem within_foldChain {res : List Re} (h : ∀ re ∈ res, re.Within p) (a : Alphabet) (op : ChainOp) :
    Ensures (Builder.foldChain a op res) fun value => ∀ re ∈ value, re.Within p := by
  cases res with
  | nil => exact .ok fun _ hre => nomatch hre
  | cons first res =>
      obtain ⟨hfirst, hres⟩ := List.forall_mem_cons.mp h
      have hfold : Ensures (res.foldlM (Builder.combine a op) first) (Within p) := by
        clear h
        induction res generalizing first with
        | nil => exact .ok hfirst
        | cons next res ih =>
            obtain ⟨hnext, hres⟩ := List.forall_mem_cons.mp hres
            exact (hfirst.combine hnext a op).bind fun re hre => ih re hre hres
      refine hfold.map fun re hre => ?_
      rintro re' ⟨⟩
      exact hre

theorem within_of_allPresent {values : List (Option Re)} {res : List Re}
    (hvalues : ∀ value ∈ values, ∀ re ∈ value, re.Within p) (h : Builder.allPresent values = some res) :
    ∀ re ∈ res, re.Within p := by
  intro re hre
  refine hvalues (some re) ?_ re rfl
  rw [Builder.eq_map_some_of_allPresent h]
  exact List.mem_map_of_mem hre

theorem within_chainValue {values : List (Option Re)} (hvalues : ∀ value ∈ values, ∀ re ∈ value, re.Within p)
    (a : Alphabet) (op : ChainOp) (operators : Nat) :
    Ensures (Builder.chainValue a op operators values) fun value => ∀ re ∈ value, re.Within p := by
  unfold Builder.chainValue
  split
  · exact .ok fun _ hre => nomatch hre
  · split
    · exact .ok fun _ hre => nomatch hre
    · rename_i res hres
      exact within_foldChain (within_of_allPresent hvalues hres) a op

theorem within_withQuantifier (marker : Option String) {value : Option Re} (h : ∀ re ∈ value, re.Within p) :
    ∀ re ∈ Builder.withQuantifier marker value, re.Within p := by
  unfold Builder.withQuantifier
  split
  · intro re hre
    obtain ⟨operand, hoperand, rfl⟩ := Option.map_eq_some_iff.mp hre
    exact h operand hoperand
  · exact h

end Re

namespace Builder

variable {a : Alphabet} {b b' : Builder} {source : String} {value : Option Re}

/-! ### Reasons stay -/

abbrev Accounts (source : String) (b : Builder) (name : String) : Prop :=
  Accounted source b.table.names b.diagnostics name

/-- Every reference in the table is accounted for. -/
def Settled (source : String) (b : Builder) : Prop := ∀ e ∈ b.table.entries, e.2.Within (b.Accounts source)

/-- What evaluating an expression leads to: the references in its value are accounted for as well. -/
structure Settles (source : String) (value : Option Re) (b : Builder) : Prop where
  settled : b.Settled source
  value : ∀ re ∈ value, re.Within (b.Accounts source)

/-- A builder that has all the names and reports of another one, and perhaps more. -/
structure Onward (b b' : Builder) : Prop where
  names : b.table.names ⊆ b'.table.names
  diagnostics : b.diagnostics ⊆ b'.diagnostics

theorem Onward.refl (b : Builder) : Onward b b := ⟨fun _ h => h, fun _ h => h⟩

theorem Onward.within (h : Onward b b') {re : Re} (hre : re.Within (b.Accounts source)) :
    re.Within (b'.Accounts source) :=
  fun name hname => (hre name hname).mono h.names h.diagnostics

theorem onward_insert (b : Builder) (name : String) (re : Re) : Onward b { b with table := b.table.insert name re } :=
  ⟨Table.names_subset_insert b.table name re, fun _ h => h⟩

theorem onward_report (b : Builder) (issue : Issue) (span : Span) (detail : String) :
    Onward b (b.report issue span detail) :=
  ⟨fun _ h => h, List.subset_cons_self _ _⟩

theorem stable_onward (b : Builder) : Stable (Onward b) where
  report h issue span detail := ⟨h.names, List.Subset.trans h.diagnostics (List.subset_cons_self _ _)⟩
  hoist {c} h re := by
    unfold Builder.hoist
    cases c.current with
    | none => exact h
    | some definition => exact ⟨List.Subset.trans h.names (Table.names_subset_insert c.table _ re), h.diagnostics⟩

namespace Settled

theorem insert (h : b.Settled source) (name : String) {re : Re} (hre : re.Within (b.Accounts source)) :
    Settled source { b with table := b.table.insert name re } := by
  have honward := onward_insert b name re
  intro e he
  obtain rfl | he := Table.mem_entries_insert he
  · exact honward.within hre
  · exact honward.within (h e he)

theorem report (h : b.Settled source) (issue : Issue) (span : Span) (detail : String) :
    (b.report issue span detail).Settled source :=
  fun e he => (onward_report b issue span detail).within (h e he)

theorem settles_none (h : b.Settled source) : Settles source none b := ⟨h, fun _ hre => nomatch hre⟩

theorem settles {re : Re} (h : b.Settled source) (hre : re.Within (b.Accounts source)) : Settles source (some re) b :=
  ⟨h, fun _ hmem => Option.mem_some.mp hmem ▸ hre⟩

/-- Something not supported is reported together with the name that stands in for it. -/
theorem standIn (h : b.Settled source) {name : String} {issue : Issue} (hname : StandsIn name issue) (span : Span)
    (detail : String) : Settles source (some (.var name)) (b.report issue span detail) :=
  (h.report issue span detail).settles (Re.within_var (.standsIn List.mem_cons_self hname))

theorem reference (h : b.Settled source) {span : Span} {name : String} (hcovers : Covers source span name) :
    Settles source (some (b.reference span name).1) (b.reference span name).2 := by
  unfold Builder.reference
  split
  · rename_i re hget
    have hentry := Table.mem_entries_of_get? hget
    split
    · exact h.settles (h _ hentry)
    · exact h.settles (Re.within_var (.bound (List.mem_map_of_mem hentry)))
  · refine (h.report _ _ _).settles (Re.within_var ?_)
    exact .undefined List.mem_cons_self rfl hcovers

theorem literal (h : b.Settled source) (content : Option (String × Nat)) :
    Ensures (b.literal content) fun r => Settles source r.1 r.2 := by
  unfold Builder.literal
  split
  · exact .ok (h.settles (Re.within_of_isStrLike rfl))
  · split
    · exact .ok (h.settles (Re.within_literal _))
    · exact .after fun _ => .ok (h.report _ _ _).settles_none

theorem withOutput (h : b.Settled source) (span : Span) {input : Option Re} (output : Option Re)
    (hinput : ∀ re ∈ input, re.Within (b.Accounts source)) :
    Settles source (b.withOutput span input output).1 (b.withOutput span input output).2 := by
  unfold Builder.withOutput
  split
  · rename_i input output
    split
    · exact h.settles (hinput input rfl)
    · exact h.standIn .output _ _
  · exact h.settles_none

end Settled

/-- What is repeated is bound to a name made up, which the value refers to instead. -/
theorem Settles.repeated (h : Settles source value b) (m n : Nat) :
    Settles source (repeated m n value b).1 (repeated m n value b).2 := by
  unfold Builder.repeated
  cases value with
  | none => exact h
  | some re =>
      have hre := h.value re rfl
      dsimp only
      split
      · exact ⟨h.settled, hre.copies m n⟩
      · unfold hoist
        cases hcurrent : b.current with
        | none => exact h.settled.settles_none
        | some definition =>
            refine ⟨h.settled.insert _ hre, Re.Within.copies (Re.within_var (.bound ?_)) m n⟩
            exact Table.mem_names_insert_self b.table _ re

/-! ### Evaluating -/

mutual

/-- What was evaluated before is still accounted for when the rest is evaluated. -/
theorem build_settles (a : Alphabet) (e : Expr) (b : Builder) (he : e.Refers (Covers source))
    (hb : b.Settled source) : Ensures (build a e b) fun r => Settles source r.1 r.2 := by
  cases e with
  | missing => exact .ok hb.settles_none
  | chain span op operators operands =>
      refine (buildAll_settles a operands b he hb).bind fun r hr => ?_
      exact (Re.within_chainValue hr.2 a op operators).bind fun value hvalue => .ok ⟨hr.1, hvalue⟩
  | concat span operands =>
      refine (buildAll_settles a operands b he hb).bind fun r hr => .ok ⟨hr.1, fun re hre => ?_⟩
      obtain ⟨res, hres, hfold⟩ := Option.bind_eq_some_iff.mp hre
      exact Re.within_fold (Re.within_of_allPresent hr.2 hres) re hfold
  | output span lhs rhs =>
      refine (build_settles a lhs b he.1 hb).bind fun r hr => ?_
      refine ((build_settles a rhs r.2 he.2 hr.settled).and
        ((stable_onward r.2).build a rhs r.2 (.refl r.2))).bind fun r' hr' => .ok ?_
      exact hr'.1.settled.withOutput rhs.span r'.1 fun re hre => hr'.2.within (hr.value re hre)
  | weight span operand value => exact .ok (hb.standIn .weight _ _)
  | repetition span operand isRange lower upper =>
      simp only [build]
      split
      · exact .ok hb.settles_none
      · split
        · exact .ok (hb.settles (Re.within_of_isStrLike rfl))
        · exact (build_settles a operand b he hb).bind fun r hr => .ok (hr.repeated _ _)
  | closure span operand marker =>
      refine (build_settles a operand b he hb).bind fun r hr => .ok ⟨hr.settled, ?_⟩
      exact Re.within_withQuantifier marker hr.value
  | reference span name =>
      cases name with
      | none => exact .ok hb.settles_none
      | some name => exact .ok (hb.reference (he name rfl))
  | literal span content => exact hb.literal content
  | group span inner => exact build_settles a inner b he hb
  | call span name arguments => exact .ok (hb.standIn .call _ _)

theorem buildAll_settles (a : Alphabet) (es : List Expr) (b : Builder)
    (hes : Expr.RefersAll (Covers source) es) (hb : b.Settled source) :
    Ensures (buildAll a es b) fun r =>
      r.2.Settled source ∧ ∀ value ∈ r.1, ∀ re ∈ value, re.Within (r.2.Accounts source) := by
  cases es with
  | nil => exact .ok ⟨hb, fun _ hvalue => nomatch hvalue⟩
  | cons e es =>
      refine (build_settles a e b hes.1 hb).bind fun r hr => ?_
      refine ((buildAll_settles a es r.2 hes.2 hr.settled).and
        ((stable_onward r.2).buildAll a es r.2 (.refl r.2))).bind fun r' hr' => .ok ⟨hr'.1.1, ?_⟩
      exact List.forall_mem_cons.mpr ⟨fun re hre => hr'.2.within (hr.value re hre), hr'.1.2⟩

end

/-! ### Statements -/

/-- A definition without a value leaves the names made up for it behind, and these are accounted for already. -/
theorem Settles.endDefinition (h : Settles source value b) (name : String) :
    Ensures (b.endDefinition name value) (Settled source) := by
  unfold Builder.endDefinition
  split
  · cases value with
    | none => exact .ok h.settled
    | some re => exact .ok (h.settled.insert name (h.value re rfl))
  · exact .error

theorem Settled.define (h : b.Settled source) (a : Alphabet) (name : String) {body : Expr}
    (hbody : body.Refers (Covers source)) :
    Ensures (define a name body b) (Settled source) := by
  have hbegin : Ensures (b.beginDefinition name) (Settled source) := by
    unfold beginDefinition
    split
    · exact .error
    · exact .ok h
  exact hbegin.bind fun b₁ h₁ => (build_settles a body b₁ hbody h₁).bind fun r hr => hr.endDefinition name

theorem Settled.visit (h : b.Settled source) (a : Alphabet) {stmt : Stmt}
    (hstmt : stmt.Refers (Covers source)) : Ensures (visit a b stmt) (Settled source) := by
  cases stmt with
  | definition span exported name body =>
      cases name with
      | none => exact .ok h
      | some name => exact h.define a name hstmt
  | importing span path renamed => exact .ok (h.report _ _ _)
  | function span name params body => exact .ok (h.report _ _ _)
  | returning span body => exact .ok (h.report _ _ _)

theorem Settled.visitAll (h : b.Settled source) (a : Alphabet) {stmts : List Stmt}
    (hstmts : ∀ stmt ∈ stmts, stmt.Refers (Covers source)) :
    Ensures (stmts.foldlM (Builder.visit a) b) (Settled source) := by
  induction stmts generalizing b with
  | nil => exact .ok h
  | cons stmt stmts ih =>
      obtain ⟨hstmt, hstmts⟩ := List.forall_mem_cons.mp hstmts
      exact (h.visit a hstmt).bind fun b' h' => ih h' hstmts

theorem settled_start (source : String) : start.Settled source := fun _ he => nomatch he

end Builder

/-- Every dangling reference is accounted for, in every source that compiles, also in one with errors: each name that
a value of the table refers to is a name of the table, or stands in for something not supported that was reported, or
was reported as undefined at a place where the source has it. Without diagnostics the program is closed. -/
theorem compile_accounts_for_references {options : Options} {source : String} {c : Compilation}
    (hcompile : compile options source = .ok c) :
    (∀ e ∈ c.program.table.entries, ∀ name ∈ e.2.references, Accounted source c.program.names c.diagnostics name) ∧
      (c.diagnostics = [] → ∀ e ∈ c.program.table.entries, ∀ name ∈ e.2.references, name ∈ c.program.names) := by
  obtain ⟨p, built, hparse, hbuilt, rfl⟩ := compile_eq_ok hcompile
  have hsettled : built.Settled source :=
    (Builder.settled_start source).visitAll options.alphabet (refers_of_parse hparse) built hbuilt
  have haccounted : ∀ e ∈ built.table.entries, ∀ name ∈ e.2.references,
      Accounted source built.table.names (p.diagnostics ++ built.diagnostics.reverse) name := by
    intro e he name hname
    refine (hsettled e he name hname).mono (fun _ h => h) fun d hd => ?_
    exact List.mem_append_right _ (List.mem_reverse.mpr hd)
  refine ⟨haccounted, fun hnone e he name hname => ?_⟩
  have hnone' : p.diagnostics ++ built.diagnostics.reverse = [] := hnone
  have hname' := haccounted e he name hname
  rw [hnone'] at hname'
  cases hname' with
  | bound h => exact h
  | standsIn hd _ => cases hd
  | undefined hd _ _ => cases hd

/-- A source with an undefined name of each kind and one that is bound. -/
theorem compile_accounts_for_references_of_each_kind :
    ∃ c, compile .standard "x = 'a'* : b; y = x<1> d; z = f[x] x;" = .ok c ∧
      (c.program.table.entries.flatMap fun e => e.2.references) =
        [nondeterminismError, weightNotSupported, "d", functionNotSupported, "x"] ∧
      ∀ e ∈ c.program.table.entries, ∀ name ∈ e.2.references,
        Accounted "x = 'a'* : b; y = x<1> d; z = f[x] x;" c.program.names c.diagnostics name := by
  have hcompiles : ((compile .standard "x = 'a'* : b; y = x<1> d; z = f[x] x;").toOption.map fun c =>
      c.program.table.entries.flatMap fun e => e.2.references) =
        some [nondeterminismError, weightNotSupported, "d", functionNotSupported, "x"] := by
    decide +kernel
  cases hcompile : compile .standard "x = 'a'* : b; y = x<1> d; z = f[x] x;" with
  | error e =>
      rw [hcompile] at hcompiles
      cases hcompiles
  | ok c =>
      rw [hcompile] at hcompiles
      exact ⟨c, rfl, Option.some.inj hcompiles, (compile_accounts_for_references hcompile).1⟩

end Transducer
