import Transducer.Proofs.Program.Accounting
import Transducer.Proofs.Program.Preservation

/-!
# What a build writes

Two things write into the table: a definition binds its value, and a repetition binds its operand to a name made up.
The journal lists these writes in the order in which they happen. It is read off the statements in the way in which the
builder goes through them; that it is complete is shown by replaying it, which gives the table that was built.

Between two writes the builder only reports. So one induction over expressions says what evaluating one does, namely
to report and to hoist, and what is known about the journal follows from that: the names made up for a definition are
numbered one after the other, and as long as nothing is reported no value refers to a name before it is written.
-/

namespace Transducer

/-- Where nothing was reported, values refer to names that are bound. -/
theorem Accounted.mem_of_clean {source name : String} {names : List String} {ds : List Diagnostic}
    (h : Accounted source names ds name) (hclean : ds = []) : name ∈ names := by
  subst hclean
  cases h with
  | bound h => exact h
  | standsIn hd _ => cases hd
  | undefined hd _ _ => cases hd

namespace Builder

theorem ne_syntheticName {name : String} (hplain : Plain name) (d : String) (k : Nat) : name ≠ syntheticName d k := by
  rintro rfl
  rw [Plain, isReserved_syntheticName] at hplain
  cases hplain

/-- What a write is made for: the value of a definition, or an operand in it, with its number. -/
inductive Origin where
  | bound (definition : String)
  | hoisted (definition : String) (k : Nat)
  deriving DecidableEq, Repr

namespace Origin

/-- The name written. -/
def name : Origin → String
  | bound definition => definition
  | hoisted definition k => syntheticName definition k

/-- The definition that is evaluated. -/
def owner : Origin → String
  | bound definition | hoisted definition _ => definition

/-- As long as definitions keep off the names made up, a name tells what it was written for. -/
theorem name_inj {o o' : Origin} (howner : Plain o.owner) (howner' : Plain o'.owner) (h : o.name = o'.name) :
    o = o' := by
  cases o with
  | bound d =>
      cases o' with
      | bound d' => exact congrArg bound h
      | hoisted d' k' => exact absurd h (ne_syntheticName howner d' k')
  | hoisted d k =>
      cases o' with
      | bound d' => exact absurd h.symm (ne_syntheticName howner' d k)
      | hoisted d' k' =>
          obtain ⟨rfl, rfl⟩ := syntheticName_inj h
          rfl

end Origin

structure Write where
  origin : Origin
  value : Re
  deriving DecidableEq, Repr

/-- The name written. -/
def Write.name (w : Write) : String := w.origin.name

/-- The table after some writes. -/
def replay (t : Table Re) (ws : List Write) : Table Re := ws.foldl (fun t w => t.insert w.name w.value) t

/-- What is written behind a computation, if it has a result. -/
def following {α : Type} (r : Except Fault α) (next : α → List Write) : List Write :=
  match r with
  | .ok result => next result
  | .error _ => []

/-! ### The journal -/

/-- Repeating a value writes it, unless it is a literal. -/
def repeatedWrites (value : Option Re) (b : Builder) : List Write :=
  match value, b.current with
  | some re, some definition => if re.isStrLike then [] else [⟨.hoisted definition b.counter, re⟩]
  | _, _ => []

mutual

/-- The writes of an expression, those of its parts first. A repetition that is never tried does not look at its
operand. -/
def writes (a : Alphabet) : Expr → Builder → List Write
  | .chain _ _ _ operands, b => writesAll a operands b
  | .concat _ operands, b => writesAll a operands b
  | .output _ lhs rhs, b => writes a lhs b ++ following (build a lhs b) fun r => writes a rhs r.2
  | .repetition _ operand isRange lower upper, b =>
      match repetitionBounds isRange lower upper with
      | none => []
      | some (low, high) =>
          if high = 0 ∨ high < low then []
          else writes a operand b ++ following (build a operand b) fun r => repeatedWrites r.1 r.2
  | .closure _ operand _, b => writes a operand b
  | .group _ inner, b => writes a inner b
  | .missing, _ | .weight _ _ _, _ | .reference _ _, _ | .literal _ _, _ | .call _ _ _, _ => []

def writesAll (a : Alphabet) : List Expr → Builder → List Write
  | [], _ => []
  | e :: es, b => writes a e b ++ following (build a e b) fun r => writesAll a es r.2

end

/-- The writes of a statement: those of the body of a definition, and then that of its value. -/
def writesOf (a : Alphabet) (b : Builder) : Stmt → List Write
  | .definition _ _ (some name) body =>
      let opened := { b with current := some name, counter := 0 }
      writes a body opened ++ following (build a body opened) fun r => r.1.toList.map (⟨.bound name, ·⟩)
  | _ => []

def journalFrom (a : Alphabet) : List Stmt → Builder → List Write
  | [], _ => []
  | stmt :: stmts, b => writesOf a b stmt ++ following (visit a b stmt) (journalFrom a stmts)

/-- All writes of a source, in order. -/
def journal (a : Alphabet) (stmts : List Stmt) : List Write := journalFrom a stmts start

/-! ### Replaying -/

variable {a : Alphabet} {source d name : String} {t : Table Re} {b b' b₁ b₂ : Builder} {ws ws' : List Write} {re : Re}

theorem replay_cons (t : Table Re) (w : Write) (ws : List Write) :
    replay t (w :: ws) = replay (t.insert w.name w.value) ws := rfl

theorem replay_append (t : Table Re) (ws ws' : List Write) : replay t (ws ++ ws') = replay (replay t ws) ws' :=
  List.foldl_append

theorem replay_concat (t : Table Re) (ws : List Write) (w : Write) :
    replay t (ws ++ [w]) = (replay t ws).insert w.name w.value := replay_append t ws [w]

theorem last_of_get?_replay (h : (replay .empty ws).get? name = some re) :
    ∃ before w after, ws = before ++ w :: after ∧ w.name = name ∧ w.value = re ∧ name ∉ after.map Write.name := by
  induction ws using List.reverseRecOn with
  | nil => cases h
  | append_singleton ws last ih =>
      rw [replay_concat, Table.get?_insert] at h
      split at h
      · rename_i hlast
        exact ⟨ws, last, [], rfl, hlast, Option.some.inj h, List.not_mem_nil⟩
      · rename_i hlast
        obtain ⟨before, w, after, rfl, hname, hvalue, hafter⟩ := ih h
        refine ⟨before, w, after ++ [last], by rw [List.append_assoc, List.cons_append], hname, hvalue, ?_⟩
        rw [List.map_append, List.map_singleton, List.mem_append, List.mem_singleton]
        rintro (hmem | hmem)
        · exact hafter hmem
        · exact hlast hmem.symm

theorem mem_of_mem_names_replay (h : name ∈ (replay .empty ws).names) : name ∈ ws.map Write.name := by
  induction ws using List.reverseRecOn with
  | nil => cases h
  | append_singleton ws last ih =>
      rw [List.map_append, List.map_singleton]
      rw [replay_concat, Table.mem_names_insert] at h
      rcases h with h | rfl
      · exact List.mem_append_left _ (ih h)
      · exact List.mem_append_right _ List.mem_cons_self

/-- Every value refers to names that are in the table or written before it. -/
def Grounded : Table Re → List Write → Prop
  | _, [] => True
  | t, w :: ws => w.value.Within (· ∈ t.names) ∧ Grounded (t.insert w.name w.value) ws

theorem grounded_append : Grounded t (ws ++ ws') ↔ Grounded t ws ∧ Grounded (replay t ws) ws' := by
  induction ws generalizing t with
  | nil => exact (and_iff_right trivial).symm
  | cons w ws ih => rw [List.cons_append, Grounded, Grounded, ih, replay_cons, and_assoc]

/-! ### Evaluating -/

/-- Evaluating leads from one builder to another by reporting and by hoisting values whose references are accounted
for. -/
inductive Steps (source : String) (b : Builder) : List Write → Builder → Prop where
  | refl : Steps source b [] b
  | report {ws : List Write} {b' : Builder} (h : Steps source b ws b') (issue : Issue) (span : Span)
      (detail : String) : Steps source b ws (b'.report issue span detail)
  | hoist {ws : List Write} {b' : Builder} {d : String} {re : Re} (h : Steps source b ws b')
      (hcurrent : b'.current = some d) (hre : re.Within (b'.Accounts source)) :
      Steps source b (ws ++ [⟨.hoisted d b'.counter, re⟩]) (b'.hoist re).2

theorem hoist_eq (hcurrent : b.current = some d) (re : Re) :
    b.hoist re = (some (.var (syntheticName d b.counter)),
      { b with table := b.table.insert (syntheticName d b.counter) re, counter := b.counter + 1 }) := by
  rw [hoist, hcurrent]

namespace Steps

theorem trans (h : Steps source b ws b₁) (h' : Steps source b₁ ws' b₂) : Steps source b (ws ++ ws') b₂ := by
  induction h' with
  | refl => rwa [List.append_nil]
  | report _ issue span detail ih => exact ih.report issue span detail
  | hoist _ hcurrent hre ih =>
      rw [← List.append_assoc]
      exact ih.hoist hcurrent hre

theorem current_eq (h : Steps source b ws b') : b'.current = b.current := by
  induction h with
  | refl => rfl
  | report _ _ _ _ ih => exact ih
  | hoist _ hcurrent _ ih =>
      rw [hoist_eq hcurrent]
      exact ih

theorem table_eq (h : Steps source b ws b') : b'.table = replay b.table ws := by
  induction h with
  | refl => rfl
  | report _ _ _ _ ih => exact ih
  | hoist _ hcurrent _ ih =>
      rw [replay_append, ← ih, hoist_eq hcurrent]
      rfl

theorem reported (h : Steps source b ws b') : b.diagnostics <:+ b'.diagnostics := by
  induction h with
  | refl => exact List.suffix_rfl
  | report _ _ _ _ ih => exact ih.trans (List.suffix_cons _ _)
  | hoist _ hcurrent _ ih =>
      rw [hoist_eq hcurrent]
      exact ih

/-- The names made up are numbered one after the other. -/
theorem origins_eq (h : Steps source b ws b') (hd : b.current = some d) :
    ws.map Write.origin = (List.range' b.counter ws.length).map (Origin.hoisted d) ∧
      b'.counter = b.counter + ws.length := by
  induction h with
  | refl => exact ⟨rfl, rfl⟩
  | report _ _ _ _ ih => exact ih
  | @hoist ws b' d' re h hcurrent _ ih =>
      obtain ⟨horigins, hcounter⟩ := ih
      obtain rfl : d' = d := Option.some.inj (hcurrent.symm.trans (h.current_eq.trans hd))
      constructor
      · rw [List.map_append, horigins, List.length_append, List.length_singleton, List.range'_1_concat, List.map_append,
          hcounter]
        rfl
      · rw [hoist_eq hcurrent, List.length_append, ← Nat.add_assoc, ← hcounter]
        rfl

theorem exists_eq_hoisted (h : Steps source b ws b') (hd : b.current = some d) {o : Origin}
    (ho : o ∈ ws.map Write.origin) : ∃ k, o = .hoisted d k := by
  rw [(h.origins_eq hd).1] at ho
  obtain ⟨k, -, hk⟩ := List.mem_map.mp ho
  exact ⟨k, hk.symm⟩

theorem nodup_origins (h : Steps source b ws b') (hd : b.current = some d) : (ws.map Write.origin).Nodup := by
  rw [(h.origins_eq hd).1]
  exact List.Nodup.map (fun k l hkl => (Origin.hoisted.inj hkl).2) List.nodup_range'

/-- A builder without reports accounts for names of its table only. -/
theorem grounded (h : Steps source b ws b') (hclean : b'.diagnostics = []) : Grounded b.table ws := by
  induction h with
  | refl => trivial
  | report _ _ _ _ _ => cases hclean
  | @hoist ws b' d re h hcurrent hre ih =>
      have hclean' : b'.diagnostics = [] := by rwa [hoist_eq hcurrent] at hclean
      refine grounded_append.mpr ⟨ih hclean', ?_, trivial⟩
      rw [← h.table_eq]
      exact fun name hname => (hre name hname).mem_of_clean hclean'

end Steps

/-! ### Expressions -/

theorem reference_steps (source : String) (b : Builder) (span : Span) (name : String) :
    Steps source b [] (b.reference span name).2 := by
  unfold reference
  split
  · split
    · exact .refl
    · exact .refl
  · exact .report .refl _ _ _

theorem literal_steps (source : String) (b : Builder) (content : Option (String × Nat)) :
    Ensures (b.literal content) fun r => Steps source b [] r.2 := by
  unfold literal
  split
  · exact .ok .refl
  · split
    · exact .ok .refl
    · exact .after fun _ => .ok (.report .refl _ _ _)

theorem withOutput_steps (source : String) (b : Builder) (span : Span) (input output : Option Re) :
    Steps source b [] (b.withOutput span input output).2 := by
  unfold withOutput
  split
  · split
    · exact .refl
    · exact .report .refl _ _ _
  · exact .refl

theorem Settles.repeated_steps {value : Option Re} (h : Settles source value b) (m n : Nat) :
    Steps source b (repeatedWrites value b) (Builder.repeated m n value b).2 := by
  unfold Builder.repeated repeatedWrites
  cases value with
  | none => exact .refl
  | some re =>
      cases hcurrent : b.current with
      | none =>
          dsimp only
          split
          · exact .refl
          · rw [hoist, hcurrent]
            exact .refl
      | some d =>
          have hhoist := Steps.hoist .refl hcurrent (h.value re rfl)
          dsimp only
          split
          · exact .refl
          · rw [hoist_eq hcurrent] at hhoist ⊢
            exact hhoist

mutual

theorem build_steps (e : Expr) (b : Builder) {value : Option Re} {b' : Builder} (he : e.Refers (Covers source))
    (hb : b.Settled source) (h : build a e b = .ok (value, b')) : Steps source b (writes a e b) b' := by
  cases e with
  | missing =>
      cases h
      exact .refl
  | chain span op operators operands =>
      obtain ⟨⟨values, b₁⟩, hall, hrest⟩ := bind_eq_ok h
      obtain ⟨value₁, -, heq⟩ := bind_eq_ok hrest
      cases heq
      exact buildAll_steps operands b he hb hall
  | concat span operands =>
      obtain ⟨⟨values, b₁⟩, hall, heq⟩ := bind_eq_ok h
      cases heq
      exact buildAll_steps operands b he hb hall
  | output span lhs rhs =>
      obtain ⟨⟨input, b₁⟩, hlhs, hrest⟩ := bind_eq_ok h
      obtain ⟨⟨output, b₂⟩, hrhs, heq⟩ := bind_eq_ok hrest
      have hsettles := build_settles a lhs b he.1 hb _ hlhs
      have hout := withOutput_steps source b₂ rhs.span input output
      rw [show b₂.withOutput rhs.span input output = (value, b') from Except.ok.inj heq] at hout
      rw [writes, hlhs]
      have hboth := (build_steps lhs b he.1 hb hlhs).trans (build_steps rhs b₁ he.2 hsettles.settled hrhs)
      rw [← List.append_nil (writes a lhs b ++ _)]
      exact hboth.trans hout
  | weight span operand weight =>
      cases h
      exact .report .refl _ _ _
  | repetition span operand isRange lower upper =>
      cases hbounds : repetitionBounds isRange lower upper with
      | none =>
          simp only [build, writes, hbounds] at h ⊢
          cases h
          exact .refl
      | some bounds =>
          obtain ⟨low, high⟩ := bounds
          simp only [build, writes, hbounds] at h ⊢
          by_cases huntried : high = 0 ∨ high < low
          · rw [if_pos huntried] at h ⊢
            cases h
            exact .refl
          · rw [if_neg huntried] at h ⊢
            obtain ⟨⟨value₁, b₁⟩, hoperand, heq⟩ := bind_eq_ok h
            have hrepeated := (build_settles a operand b he hb _ hoperand).repeated_steps low high
            rw [show repeated low high value₁ b₁ = (value, b') from Except.ok.inj heq] at hrepeated
            rw [hoperand]
            exact (build_steps operand b he hb hoperand).trans hrepeated
  | closure span operand marker =>
      obtain ⟨⟨value₁, b₁⟩, hoperand, heq⟩ := bind_eq_ok h
      cases heq
      exact build_steps operand b he hb hoperand
  | reference span name =>
      cases name with
      | none =>
          cases h
          exact .refl
      | some name =>
          cases h
          exact reference_steps source b span name
  | literal span content => exact literal_steps source b content _ h
  | group span inner => exact build_steps inner b he hb h
  | call span name arguments =>
      cases h
      exact .report .refl _ _ _

theorem buildAll_steps (es : List Expr) (b : Builder) {values : List (Option Re)} {b' : Builder}
    (hes : Expr.RefersAll (Covers source) es) (hb : b.Settled source) (h : buildAll a es b = .ok (values, b')) :
    Steps source b (writesAll a es b) b' := by
  cases es with
  | nil =>
      cases h
      exact .refl
  | cons e es =>
      obtain ⟨⟨value, b₁⟩, he, hrest⟩ := bind_eq_ok h
      obtain ⟨⟨values₁, b₂⟩, hes', heq⟩ := bind_eq_ok hrest
      cases heq
      have hsettles := build_settles a e b hes.1 hb _ he
      rw [writesAll, he]
      exact (build_steps e b hes.1 hb he).trans (buildAll_steps es b₁ hes.2 hsettles.settled hes')

end

/-! ### Statements -/

/-- What the writes of some definitions lead to. For each definition there is one write of its value at most, and one of
each number. -/
structure Recorded (names : List String) (b : Builder) (ws : List Write) (b' : Builder) : Prop where
  table_eq : b'.table = replay b.table ws
  reported : b.diagnostics <:+ b'.diagnostics
  grounded : b'.diagnostics = [] → Grounded b.table ws
  count_le : ∀ o, (ws.map Write.origin).count o ≤ names.count o.owner

namespace Recorded

variable {names names' : List String}

theorem refl (b : Builder) : Recorded [] b [] b := ⟨rfl, List.suffix_rfl, fun _ => trivial, fun _ => Nat.le_refl 0⟩

theorem report (b : Builder) (issue : Issue) (span : Span) (detail : String) :
    Recorded [] b [] (b.report issue span detail) :=
  ⟨rfl, List.suffix_cons _ _, fun _ => trivial, fun _ => Nat.le_refl 0⟩

theorem trans (h : Recorded names b ws b₁) (h' : Recorded names' b₁ ws' b₂) :
    Recorded (names ++ names') b (ws ++ ws') b₂ where
  table_eq := by rw [h'.table_eq, h.table_eq, replay_append]
  reported := h.reported.trans h'.reported
  grounded hclean := by
    rw [grounded_append, ← h.table_eq]
    exact ⟨h.grounded (clean_of_suffix h'.reported hclean), h'.grounded hclean⟩
  count_le o := by
    rw [List.map_append, List.count_append, List.count_append]
    exact Nat.add_le_add (h.count_le o) (h'.count_le o)

theorem owner_mem (h : Recorded names b ws b') {w : Write} (hw : w ∈ ws) : w.origin.owner ∈ names := by
  have hcount : 0 < (ws.map Write.origin).count w.origin := List.count_pos_iff.mpr (List.mem_map_of_mem hw)
  exact List.count_pos_iff.mp (Nat.lt_of_lt_of_le hcount (h.count_le w.origin))

end Recorded

/-- Writes for one definition, each of them for something else. -/
theorem count_le_of_nodup {os : List Origin} (hnodup : os.Nodup) (howner : ∀ o ∈ os, o.owner = d) (o : Origin) :
    os.count o ≤ [d].count o.owner := by
  by_cases ho : o ∈ os
  · rw [List.count_eq_one_of_mem hnodup ho, howner o ho, List.count_singleton_self]
  · rw [List.count_eq_zero_of_not_mem ho]
    exact Nat.zero_le _

/-- A definition without a value leaves the operands that it has written. -/
theorem Steps.recorded (h : Steps source { b with current := some d, counter := 0 } ws b₁) :
    Recorded [d] b ws { b₁ with current := none } where
  table_eq := h.table_eq
  reported := h.reported
  grounded := h.grounded
  count_le := by
    apply count_le_of_nodup (h.nodup_origins rfl)
    intro o ho
    obtain ⟨k, rfl⟩ := h.exists_eq_hoisted rfl ho
    rfl

/-- The value of a definition is written behind its operands. -/
theorem Steps.recorded_bound (h : Steps source { b with current := some d, counter := 0 } ws b₁)
    (hre : re.Within (b₁.Accounts source)) :
    Recorded [d] b (ws ++ [⟨.bound d, re⟩]) { b₁ with current := none, table := b₁.table.insert d re } where
  table_eq := by
    rw [replay_concat]
    exact congrArg (·.insert d re) h.table_eq
  reported := h.reported
  grounded hclean := by
    refine grounded_append.mpr ⟨h.grounded hclean, ?_, trivial⟩
    rw [← h.recorded.table_eq]
    intro name hname
    exact (hre name hname).mem_of_clean hclean
  count_le := by
    rw [List.map_append, List.map_singleton]
    apply count_le_of_nodup
    · refine List.nodup_append.mpr ⟨h.nodup_origins rfl, List.nodup_singleton _, fun o ho o' ho' heq => ?_⟩
      obtain ⟨k, rfl⟩ := h.exists_eq_hoisted rfl ho
      rw [List.mem_singleton.mp ho'] at heq
      cases heq
    · intro o ho
      rcases List.mem_append.mp ho with ho | ho
      · obtain ⟨k, rfl⟩ := h.exists_eq_hoisted rfl ho
        rfl
      · rw [List.mem_singleton.mp ho]
        rfl

theorem Settled.recorded_visit (h : b.Settled source) (hidle : b.Idle a) {stmt : Stmt}
    (hstmt : stmt.Refers (Covers source)) (hvisit : Builder.visit a b stmt = .ok b') :
    Recorded ((Stmt.bindings [stmt]).map Prod.fst) b (writesOf a b stmt) b' := by
  cases stmt with
  | definition span exported name body =>
      cases name with
      | none =>
          cases hvisit
          exact .refl b
      | some name =>
          obtain ⟨value, b₁, hbuild, rfl⟩ := define_eq_ok hidle hvisit
          have hopened : Settled source { b with current := some name, counter := 0 } := h
          have hsteps := build_steps body _ hstmt hopened hbuild
          have hsettles := build_settles a body _ hstmt hopened _ hbuild
          rw [writesOf, hbuild]
          cases value with
          | none =>
              have hrecorded := hsteps.recorded
              rwa [← List.append_nil (writes a body _)] at hrecorded
          | some re => exact hsteps.recorded_bound (hsettles.value re rfl)
  | importing span path renamed =>
      cases hvisit
      exact .report b _ _ _
  | function span name params body =>
      cases hvisit
      exact .report b _ _ _
  | returning span body =>
      cases hvisit
      exact .report b _ _ _

theorem Settled.recorded_visitAll (h : b.Settled source) (hidle : b.Idle a) {stmts : List Stmt}
    (hstmts : ∀ stmt ∈ stmts, stmt.Refers (Covers source)) (hvisit : stmts.foldlM (Builder.visit a) b = .ok b') :
    Recorded ((Stmt.bindings stmts).map Prod.fst) b (journalFrom a stmts b) b' := by
  induction stmts generalizing b with
  | nil =>
      cases hvisit
      exact .refl _
  | cons stmt stmts ih =>
      obtain ⟨b₁, hfirst, hrest⟩ := bind_eq_ok hvisit
      obtain ⟨hstmt, hstmts⟩ := List.forall_mem_cons.mp hstmts
      have hidle₁ := ((hidle.visit stmt).of_eq_ok hfirst).1
      rw [Stmt.bindings_cons, List.map_append, journalFrom, hfirst]
      exact (h.recorded_visit hidle hstmt hfirst).trans (ih (h.visit a hstmt b₁ hfirst) hidle₁ hstmts hrest)

end Builder

/-- The names that a source defines, once for each definition, also where the definition has no value. -/
def definedNames (root : Tree) : List String := (Stmt.bindings (Stmt.ofRoot root)).map Prod.fst

/-- The writes of a compilation, in order. -/
def Compilation.journal (c : Compilation) : List Builder.Write :=
  Builder.journal c.program.alphabet (Stmt.ofRoot c.root)

open Builder in
/-- The journal of a compilation is what happened. -/
theorem recorded_of_compile {options : Options} {source : String} {c : Compilation}
    (hcompile : compile options source = .ok c) :
    ∃ built, c.program.table = built.table ∧ c.buildDiagnostics = built.diagnostics.reverse ∧
      Recorded (definedNames c.root) start c.journal built := by
  obtain ⟨p, built, hparse, hbuilt, rfl⟩ := compile_eq_ok hcompile
  refine ⟨built, rfl, rfl, ?_⟩
  exact (settled_start source).recorded_visitAll (idle_start options.alphabet) (refers_of_parse hparse) hbuilt

end Transducer
