import Transducer.Proofs.Program.Completeness
import Transducer.Proofs.Program.Freshness

/-!
# Definitions without a value

Every operand of a definition is evaluated, also where another one is missing and the definition will have no value. So
a definition that is not bound may leave something behind, namely the operands that it repeats, each under a name made
up for it. It leaves nothing else: these are the only writes that evaluating makes, there are no more of them than
repetitions in the body, and their names are numbered from zero. All other names keep their values, no name leaves its
place, and a body without repetitions leaves the table as it is.
-/

namespace Transducer

mutual

/-- The number of repetitions that evaluating an expression can meet. What is weighted and what is passed to a call is
not evaluated. -/
def Expr.repetitions : Expr → Nat
  | .chain _ _ _ operands | .concat _ operands => repetitionsIn operands
  | .output _ lhs rhs => lhs.repetitions + rhs.repetitions
  | .repetition _ operand _ _ _ => operand.repetitions + 1
  | .closure _ operand _ => operand.repetitions
  | .group _ inner => inner.repetitions
  | .missing | .weight _ _ _ | .reference _ _ | .literal _ _ | .call _ _ _ => 0

def Expr.repetitionsIn : List Expr → Nat
  | [] => 0
  | e :: es => e.repetitions + repetitionsIn es

end

namespace Builder

variable {a : Alphabet} {b b' : Builder} {d source : String} {ws : List Write}

/-! ### Chains that break off -/

theorem length_buildAll (es : List Expr) (b : Builder) : Ensures (buildAll a es b) fun r => r.1.length = es.length := by
  induction es generalizing b with
  | nil => exact .ok rfl
  | cons e es ih =>
      exact .after fun r => (ih r.2).bind fun r' hr' => .ok (congrArg (· + 1) hr')

/-- A chain that lacks an operand has no value, whatever its operands are. -/
theorem build_of_lacksOperand {e : Expr} (h : e.lacksOperand = true) (b : Builder) :
    Ensures (build a e b) fun r => r.1 = none := by
  unfold Expr.lacksOperand at h
  split at h
  · rename_i span op operators operands
    refine (length_buildAll operands b).bind fun r hr => ?_
    dsimp only
    rw [chainValue, hr, if_pos h]
    exact .ok rfl
  · cases h

/-! ### How much is written -/

theorem length_following_le {α : Type} {r : Except Fault α} {next : α → List Write} {n : Nat}
    (h : ∀ result, (next result).length ≤ n) : (following r next).length ≤ n := by
  cases r with
  | error e => exact Nat.zero_le n
  | ok result => exact h result

theorem length_repeatedWrites_le (value : Option Re) (b : Builder) : (repeatedWrites value b).length ≤ 1 := by
  unfold repeatedWrites
  split
  · split
    · exact Nat.zero_le 1
    · exact Nat.le_refl 1
  · exact Nat.zero_le 1

mutual

theorem length_writes_le (a : Alphabet) (e : Expr) (b : Builder) : (writes a e b).length ≤ e.repetitions := by
  cases e with
  | missing | weight | reference | literal | call => exact Nat.le_refl 0
  | chain span op operators operands => exact length_writesAll_le a operands b
  | concat span operands => exact length_writesAll_le a operands b
  | output span lhs rhs =>
      rw [writes, List.length_append, Expr.repetitions]
      exact Nat.add_le_add (length_writes_le a lhs b) (length_following_le fun r => length_writes_le a rhs r.2)
  | repetition span operand isRange lower upper =>
      rw [writes]
      split
      · exact Nat.zero_le _
      · split
        · exact Nat.zero_le _
        · rw [List.length_append, Expr.repetitions]
          refine Nat.add_le_add (length_writes_le a operand b) ?_
          exact length_following_le fun r => length_repeatedWrites_le r.1 r.2
  | closure span operand marker => exact length_writes_le a operand b
  | group span inner => exact length_writes_le a inner b

theorem length_writesAll_le (a : Alphabet) (es : List Expr) (b : Builder) :
    (writesAll a es b).length ≤ Expr.repetitionsIn es := by
  cases es with
  | nil => exact Nat.le_refl 0
  | cons e es =>
      rw [writesAll, List.length_append, Expr.repetitionsIn]
      exact Nat.add_le_add (length_writes_le a e b) (length_following_le fun r => length_writesAll_le a es r.2)

end

/-! ### What the writes leave -/

theorem get?_replay_of_notMem {name : String} (t : Table Re) (h : name ∉ ws.map Write.name) :
    (replay t ws).get? name = t.get? name := by
  have hnone : (replay t (ws.filter fun _ => false)).get? name = (replay t ws).get? name :=
    get?_replay_filter t ws _ fun w hw _ hname => h (List.mem_map.mpr ⟨w, hw, hname⟩)
  rw [List.filter_false] at hnone
  exact hnone.symm

theorem names_replay (t : Table Re) (hnodup : (ws.map Write.name).Nodup) :
    (replay t ws).names = t.names ++ (ws.map Write.name).filter (· ∉ t.names) := by
  induction ws using List.reverseRecOn with
  | nil => exact (List.append_nil t.names).symm
  | append_singleton ws last ih =>
      rw [List.map_append, List.map_singleton] at hnodup ⊢
      obtain ⟨hnodup, -, hdisjoint⟩ := List.nodup_append.mp hnodup
      have hlast : last.name ∉ ws.map Write.name := fun hmem => hdisjoint _ hmem _ List.mem_cons_self rfl
      rw [replay_concat, Table.names_insert, ih hnodup, List.filter_append]
      by_cases hold : last.name ∈ t.names
      · simp [hold]
      · have hnew : last.name ∉ t.names ++ (ws.map Write.name).filter (· ∉ t.names) := by
          rw [List.mem_append, List.mem_filter]
          rintro (hmem | ⟨hmem, -⟩)
          · exact hold hmem
          · exact hlast hmem
        rw [if_neg hnew, List.append_assoc]
        simp [hold]

theorem ne_syntheticName_self (d : String) (k : Nat) : d ≠ syntheticName d k := by
  intro h
  have hlength := congrArg (fun name => name.toList.length) h
  simp only [toList_syntheticName, List.length_cons, List.length_append] at hlength
  omega

theorem Steps.names_eq (h : Steps source b ws b') (hd : b.current = some d) :
    ws.map Write.name = (List.range' b.counter ws.length).map (syntheticName d) := by
  calc ws.map Write.name = (ws.map Write.origin).map Origin.name := by rw [List.map_map]; rfl
    _ = (List.range' b.counter ws.length).map (syntheticName d) := by rw [(h.origins_eq hd).1, List.map_map]; rfl

theorem nodup_syntheticNames (d : String) (ns : List Nat) (h : ns.Nodup) : (ns.map (syntheticName d)).Nodup :=
  h.map fun _ _ heq => (syntheticName_inj heq).2

/-- What a definition may leave behind: names made up for it, with the numbers below `n`. -/
structure LeavesOperands (d : String) (n : Nat) (t t' : Table Re) : Prop where
  names_eq : t'.names = t.names ++ ((List.range n).map (syntheticName d)).filter (· ∉ t.names)
  get?_eq : ∀ name, (∀ k < n, name ≠ syntheticName d k) → t'.get? name = t.get? name

theorem Steps.leavesOperands (h : Steps source { b with current := some d, counter := 0 } ws b') :
    LeavesOperands d ws.length b.table b'.table := by
  have hnames : ws.map Write.name = (List.range ws.length).map (syntheticName d) := by
    rw [h.names_eq rfl, List.range_eq_range']
  rw [h.table_eq]
  constructor
  · rw [← hnames]
    refine names_replay b.table ?_
    rw [hnames]
    exact nodup_syntheticNames d _ List.nodup_range
  · intro name hother
    refine get?_replay_of_notMem b.table ?_
    rw [hnames]
    intro hmem
    obtain ⟨k, hk, rfl⟩ := List.mem_map.mp hmem
    exact hother k (List.mem_range.mp hk) rfl

theorem leavesOperands_of_build {body : Expr} (hb : b.Settled source) (hbody : body.Refers (Covers source))
    {b₁ : Builder} (hbuild : build a body { b with current := some d, counter := 0 } = .ok (none, b₁)) :
    ∃ n ≤ body.repetitions, (n = 0 → b₁.table = b.table) ∧ LeavesOperands d n b.table b₁.table := by
  have hopened : Settled source { b with current := some d, counter := 0 } := hb
  have hsteps := build_steps body _ hbody hopened hbuild
  refine ⟨_, length_writes_le a body _, fun hnone => ?_, hsteps.leavesOperands⟩
  rw [hsteps.table_eq, List.length_eq_zero_iff.mp hnone]
  rfl

/-- The value of a definition is the one that it is closed with. -/
theorem build_of_valueAfter {before : List Stmt} {body : Expr} {value : Option Re} (hrun : run a before = .ok b)
    (hidle : b.Idle a) (h : valueAfter a before d body = .ok value) :
    ∃ b₁, build a body { b with current := some d, counter := 0 } = .ok (value, b₁) := by
  have hbegin : b.beginDefinition d = .ok { b with current := some d, counter := 0 } := by
    rw [beginDefinition, hidle.1]
  obtain ⟨b₀, hrun', hrest⟩ := bind_eq_ok h
  obtain ⟨opened, hopened, hrest⟩ := bind_eq_ok hrest
  obtain ⟨⟨value', b₁⟩, hbuild, heq⟩ := bind_eq_ok hrest
  cases hrun.symm.trans hrun'
  cases hbegin.symm.trans hopened
  cases heq
  exact ⟨b₁, hbuild⟩

end Builder

/-- A definition in its place among the statements. -/
theorem Stmt.eq_append_of_binding? {α : Type} {stmts : List Stmt} {i : Nat} {f : String × Expr → α} {x : α}
    (h : (stmts[i]?.bind binding?).map f = some x) :
    ∃ span exported d body,
      stmts = stmts.take i ++ .definition span exported (some d) body :: stmts.drop (i + 1) ∧ f (d, body) = x := by
  obtain ⟨⟨d, body⟩, hbinding, hx⟩ := Option.map_eq_some_iff.mp h
  obtain ⟨stmt, hstmt, hbinding⟩ := Option.bind_eq_some_iff.mp hbinding
  obtain ⟨hlt, hget⟩ := List.getElem?_eq_some_iff.mp hstmt
  unfold binding? at hbinding
  split at hbinding
  · rename_i span exported name body'
    cases hbinding
    refine ⟨span, exported, d, body, ?_, hx⟩
    rw [← hget, ← List.drop_eq_getElem_cons hlt, List.take_append_drop]
  · cases hbinding

open Builder

/-- A definition without a value leaves operands that it repeats and nothing else. Wherever it stands in a source, it is
visited without a fault, and the table behind it has the names of the one before it, in their places, and names made up
for the definition, of which there are no more than repetitions in the body. All other names keep their values, so that
of the definition does. If it has no name at all or no repetition, the table is the same. -/
theorem incomplete_definition_leaves_operands_only {limits : Limits} {source : String} {p : Parse.Parsed}
    (hparse : parse limits source = .ok p) (a : Alphabet) {before after : List Stmt} {span : Span} {exported : Bool}
    {name : Option String} {body : Expr}
    (hsplit : Stmt.ofRoot p.root = before ++ .definition span exported name body :: after)
    (hvalue : ∀ d ∈ name, valueAfter a before d body = .ok none) :
    ∃ b b', run a before = .ok b ∧ visit a b (.definition span exported name body) = .ok b' ∧
      (name = none ∨ body.repetitions = 0 → b'.table = b.table) ∧
      ∀ d ∈ name, ∃ n ≤ body.repetitions,
        b'.table.names = b.table.names ++ ((List.range n).map (syntheticName d)).filter (· ∉ b.table.names) ∧
          b'.table.get? d = b.table.get? d ∧
          ∀ other, (∀ k < n, other ≠ syntheticName d k) → b'.table.get? other = b.table.get? other := by
  have hrefers := refers_of_parse hparse
  rw [hsplit] at hrefers
  obtain ⟨hbefore, hrest⟩ := List.forall_mem_append.mp hrefers
  have hbody := (List.forall_mem_cons.mp hrest).1
  obtain ⟨b, hrun, hidle⟩ := run_returns a before
  have hsettled : b.Settled source := (settled_start source).visitAll a hbefore b hrun
  obtain ⟨b', hvisit, -⟩ := hidle.visit (.definition span exported name body)
  refine ⟨b, b', hrun, hvisit, ?_⟩
  cases name with
  | none =>
      cases hvisit
      exact ⟨fun _ => rfl, fun _ hd => nomatch hd⟩
  | some d =>
      obtain ⟨b₁, hbuild⟩ := build_of_valueAfter hrun hidle (hvalue d rfl)
      obtain ⟨value, b₂, hbuild', rfl⟩ := define_eq_ok hidle hvisit
      cases hbuild.symm.trans hbuild'
      obtain ⟨n, hn, hsame, hleaves⟩ := leavesOperands_of_build hsettled hbody hbuild
      refine ⟨fun hnone => hsame (Nat.le_zero.mp ?_), ?_⟩
      · rcases hnone with hnone | hnone
        · cases hnone
        · rwa [hnone] at hn
      · rintro _ ⟨⟩
        exact ⟨n, hn, hleaves.names_eq, hleaves.get?_eq d fun k _ => ne_syntheticName_self d k, hleaves.get?_eq⟩

/-- A definition between two others whose second operand has no value: the first one is left behind, and the value that
the definition before it has is kept. -/
theorem incomplete_definition_leaves_operands_only_of_chain :
    ∃ p before after span exported body b b',
      parse .none "y = 'c'*; x = (y 'a'){2} 'b[]'; z = x;" = .ok p ∧
      Stmt.ofRoot p.root = before ++ .definition span exported (some "x") body :: after ∧
      valueAfter .unicode before "x" body = .ok none ∧ body.repetitions = 1 ∧
      run .unicode before = .ok b ∧ visit .unicode b (.definition span exported (some "x") body) = .ok b' ∧
      b.table.names = ["y"] ∧ b'.table.get? "y" = b.table.get? "y" ∧ b'.table.get? "x" = b.table.get? "x" := by
  have hparses : ((parse .none "y = 'c'*; x = (y 'a'){2} 'b[]'; z = x;").toOption.map fun p =>
      let before := (Stmt.ofRoot p.root).take 1
      (((Stmt.ofRoot p.root)[1]?.bind Stmt.binding?).map fun x =>
        (x.1, x.2.repetitions, (valueAfter .unicode before x.1 x.2).toOption.map Option.isNone),
          (run .unicode before).toOption.map (·.table.names))) =
      some (some ("x", 1, some true), some ["y"]) := by
    decide +kernel
  obtain ⟨p, hparse, hseen⟩ := eq_ok_of_toOption hparses
  obtain ⟨hsecond, hnames⟩ := Prod.mk.inj hseen
  obtain ⟨span, exported, d, body, hsplit, hbody⟩ := Stmt.eq_append_of_binding? hsecond
  simp only [Prod.mk.injEq] at hbody
  obtain ⟨rfl, hrepetitions, hvalue⟩ := hbody
  obtain ⟨value, hvalue, hnone⟩ := eq_ok_of_toOption hvalue
  rw [Option.isNone_iff_eq_none.mp hnone] at hvalue
  obtain ⟨b, b', hrun, hvisit, -, hleaves⟩ :=
    incomplete_definition_leaves_operands_only hparse .unicode hsplit (by rintro _ ⟨⟩; exact hvalue)
  obtain ⟨n, hn, -, hown, hothers⟩ := hleaves "x" rfl
  rw [hrun] at hnames
  refine ⟨p, _, _, span, exported, body, b, b', hparse, hsplit, hvalue, hrepetitions, hrun, hvisit,
    Option.some.inj hnames, hothers "y" fun k _ => ?_, hown⟩
  exact ne_syntheticName (by decide) "x" k

/-- The table is not always as it was: here the definition is not bound, and a name is. -/
theorem incomplete_definition_adds_a_name :
    ∃ p span exported body b b', parse .none "x = ('a'*){2} 'b[]';" = .ok p ∧
      Stmt.ofRoot p.root = [.definition span exported (some "x") body] ∧
      valueAfter .unicode [] "x" body = .ok none ∧
      run .unicode [] = .ok b ∧ visit .unicode b (.definition span exported (some "x") body) = .ok b' ∧
      b.table.names = [] ∧ b'.table.names = ["__x__0"] := by
  have hparses : ((parse .none "x = ('a'*){2} 'b[]';").toOption.map fun p =>
      (((Stmt.ofRoot p.root)[0]?.bind Stmt.binding?).map fun x =>
        (x.1, (valueAfter .unicode [] x.1 x.2).toOption.map Option.isNone),
          (run .unicode (Stmt.ofRoot p.root)).toOption.map (·.table.names), (Stmt.ofRoot p.root).length)) =
      some (some ("x", some true), some ["__x__0"], 1) := by
    decide +kernel
  obtain ⟨p, hparse, hseen⟩ := eq_ok_of_toOption hparses
  simp only [Prod.mk.injEq] at hseen
  obtain ⟨hfirst, hnames, hlength⟩ := hseen
  obtain ⟨span, exported, d, body, hsplit, hbody⟩ := Stmt.eq_append_of_binding? hfirst
  rw [List.drop_eq_nil_of_le (Nat.le_of_eq hlength)] at hsplit
  obtain ⟨rfl, hvalue⟩ := Prod.mk.inj hbody
  obtain ⟨value, hvalue, hnone⟩ := eq_ok_of_toOption hvalue
  rw [Option.isNone_iff_eq_none.mp hnone] at hvalue
  obtain ⟨b', hrun, hnames⟩ := eq_ok_of_toOption hnames
  rw [hsplit] at hrun
  obtain ⟨b, hvisit, heq⟩ := bind_eq_ok hrun
  cases heq
  exact ⟨p, span, exported, body, start, b', hparse, hsplit, hvalue, rfl, hvisit, rfl, hnames⟩

end Transducer
