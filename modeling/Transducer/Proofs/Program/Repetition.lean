import Transducer.Proofs.Ast.Reading
import Transducer.Proofs.Program.Journal

/-!
# What a repetition becomes

A repetition with bounds `m` and `n` becomes a row of `n` units, of which all but the first `m` are optional. The unit
is the value of the operand if that is a literal. Anything else is bound to a name first, and the unit is a reference
to it, so the operand is evaluated once however often it is repeated. Units that are literals fold, and references never
do. If the upper bound is zero or below the lower one, the operand is not even looked at.
-/

namespace Transducer

/-- Combines expressions from the left. -/
def Re.foldLeft (op : Re → Re → Re) : List Re → Option Re
  | [] => none
  | re :: res => some (res.foldl op re)

namespace Builder

/-- `m` copies of an expression and then optional ones up to `n` of them. -/
def units (unit : Re) (m n : Nat) : List Re :=
  List.replicate m unit ++ List.replicate (n - m) (.kleene unit .zeroOrOne)

/-- A bound as it is written: decimal digits that make up a number of 32 bits. -/
def IsBound (text : String) (n : Nat) : Prop :=
  text ≠ "" ∧ (∀ c ∈ text.toList, c.isDigit = true) ∧ Nat.ofDigitChars 10 text.toList 0 = n ∧ n < 2 ^ 32

/-- The bounds of a repetition as they are written: one number, or two with a comma between them. -/
inductive Bounded : Bool → Option String → Option String → Nat → Nat → Prop where
  | single {text : String} {upper : Option String} {n : Nat} (h : IsBound text n) :
      Bounded false (some text) upper n n
  | range {low high : String} {m n : Nat} (hm : IsBound low m) (hn : IsBound high n) :
      Bounded true (some low) (some high) m n

/-! ### Bounds -/

theorem readNumeral?_of_isBound {text : String} {n : Nat} (h : IsBound text n) : readNumeral? text = some n := by
  obtain ⟨hne, hdigits, rfl, hlt⟩ := h
  have hempty : text.toList.isEmpty = false := by
    rw [List.isEmpty_eq_false_iff]
    exact mt String.toList_eq_nil_iff.mp hne
  have hall : text.toList.all Char.isDigit = true := List.all_eq_true.mpr hdigits
  have hle : Nat.ofDigitChars 10 text.toList 0 ≤ CodePoint.ceiling := Nat.le_of_lt_succ hlt
  simp only [readNumeral?, hempty, hall]
  exact if_pos hle

theorem isBound_of_readNumeral? {text : String} {n : Nat} (h : readNumeral? text = some n) : IsBound text n := by
  simp only [readNumeral?, Option.ite_none_left_eq_some, Option.ite_none_right_eq_some, Option.some.injEq] at h
  obtain ⟨hdigits, hle, hvalue⟩ := h
  simp only [Bool.or_eq_true, Bool.not_eq_true', not_or, Bool.not_eq_true, Bool.not_eq_false] at hdigits
  refine ⟨fun hnil => ?_, List.all_eq_true.mp hdigits.2, hvalue, ?_⟩
  · simp [hnil] at hdigits
  · exact hvalue ▸ Nat.lt_succ_of_le hle

variable {isRange : Bool} {lower upper : Option String} {m n : Nat}

theorem Bounded.repetitionBounds_eq (h : Bounded isRange lower upper m n) :
    repetitionBounds isRange lower upper = some (m, n) := by
  cases h with
  | single h => simp [repetitionBounds, readNumeral?_of_isBound h]
  | range hm hn => simp [repetitionBounds, readNumeral?_of_isBound hm, readNumeral?_of_isBound hn]

/-- The bounds of a repetition can be read precisely if they are written like bounds. -/
theorem repetitionBounds_eq_some_iff :
    repetitionBounds isRange lower upper = some (m, n) ↔ Bounded isRange lower upper m n := by
  refine ⟨fun h => ?_, Bounded.repetitionBounds_eq⟩
  obtain ⟨low, rfl, h⟩ := Option.bind_eq_some_iff.mp h
  obtain ⟨k, hlow, h⟩ := Option.bind_eq_some_iff.mp h
  cases isRange with
  | false =>
      cases h
      exact .single (isBound_of_readNumeral? hlow)
  | true =>
      obtain ⟨high, rfl, h⟩ := Option.bind_eq_some_iff.mp h
      obtain ⟨l, hhigh, hbounds⟩ := Option.bind_eq_some_iff.mp h
      cases hbounds
      exact .range (isBound_of_readNumeral? hlow) (isBound_of_readNumeral? hhigh)

/-- In whole syntax every repetition has bounds. -/
theorem exists_bounded_of_whole {ok : String → Prop} {span : Span} {e : Expr}
    (h : (Expr.repetition span e isRange lower upper).Whole ok) : ∃ m n, Bounded isRange lower upper m n := by
  obtain ⟨⟨⟨m, n⟩, hbounds⟩, -⟩ := h
  exact ⟨m, n, repetitionBounds_eq_some_iff.mp hbounds⟩

/-! ### Braces -/

/-- The texts of the tokens of a kind. -/
def textsOfKind (k : Kind) (tokens : List Token) : List String := (tokens.filter fun t => t.kind == k).map Token.text

/-- What stands between the braces of a repetition: one number, or two with a comma between them. -/
inductive Braces (tokens : List Token) : Nat → Nat → Prop where
  | single {text : String} {n : Nat} (hnumbers : textsOfKind .number tokens = [text])
      (hcommas : textsOfKind .comma tokens = []) (hn : IsBound text n) : Braces tokens n n
  | range {low high comma : String} {m n : Nat} (hnumbers : textsOfKind .number tokens = [low, high])
      (hcommas : textsOfKind .comma tokens = [comma]) (hm : IsBound low m) (hn : IsBound high n) : Braces tokens m n

/-- A repetition node is read as a repetition with the bounds that stand between its braces. -/
theorem Braces.ofLocated {children : List Tree} (h : Braces (Tree.tokensOf children) m n) (o : Nat) :
    ∃ span operand isRange lower upper, Bounded isRange lower upper m n ∧
      Expr.ofLocated ((Tree.node .repetition children).locateFrom o).1 = .repetition span operand isRange lower upper := by
  refine ⟨_, _, _, _, _, ?_, rfl⟩
  have hcommatexts := Tree.textsOf_locateAll (k := .comma) rfl children o
  have hnumbertexts := Tree.textsOf_locateAll (k := .number) rfl children o
  cases h with
  | single hnumbers hcommas hn =>
      rw [hcommatexts, hnumbertexts, ← textsOfKind, ← textsOfKind, hnumbers, hcommas]
      exact .single hn
  | range hnumbers hcommas hm hn =>
      rw [hcommatexts, hnumbertexts, ← textsOfKind, ← textsOfKind, hnumbers, hcommas]
      exact .range hm hn

/-! ### Rows of units -/

theorem fold_eq_foldLeft (res : List Re) : Folder.fold res = Re.foldLeft .join res := by
  cases res with
  | nil => rfl
  | cons re res => exact Folder.fold_cons re res

theorem exists_foldLeft_units (op : Re → Re → Re) (unit : Re) (h : ¬ (n = 0 ∨ n < m)) :
    ∃ row, Re.foldLeft op (units unit m n) = some row := by
  cases hunits : units unit m n with
  | nil =>
      have hlength := congrArg List.length hunits
      simp only [units, List.length_append, List.length_replicate, List.length_nil] at hlength
      omega
  | cons re res => exact ⟨_, rfl⟩

theorem mem_units {re unit : Re} (h : re ∈ units unit m n) : re = unit ∨ re = .kleene unit .zeroOrOne := by
  rw [units, List.mem_append] at h
  exact h.imp List.eq_of_mem_replicate List.eq_of_mem_replicate

theorem foldLeft_join {res : List Re} (h : ∀ re ∈ res, re.asStr? = none) :
    Re.foldLeft .join res = Re.foldLeft .concat res := by
  have hfoldl (first : Re) (res : List Re) (h : ∀ re ∈ res, re.asStr? = none) :
      res.foldl .join first = res.foldl .concat first := by
    induction res generalizing first with
    | nil => rfl
    | cons re res ih =>
        obtain ⟨hre, hres⟩ := List.forall_mem_cons.mp h
        rw [List.foldl_cons, List.foldl_cons, Re.join_of_none_right first hre, ih _ hres]
  cases res with
  | nil => rfl
  | cons re res => exact congrArg some (hfoldl re res (List.forall_mem_cons.mp h).2)

theorem references_foldLeft {res : List Re} {row : Re} (h : Re.foldLeft .concat res = some row) :
    row.references = res.flatMap Re.references := by
  have hfoldl (first : Re) (res : List Re) :
      (res.foldl .concat first).references = first.references ++ res.flatMap Re.references := by
    induction res generalizing first with
    | nil => exact (List.append_nil _).symm
    | cons re res ih =>
        rw [List.foldl_cons, ih, Re.references_concat, List.flatMap_cons, List.append_assoc]
  cases res with
  | nil => cases h
  | cons re res =>
      cases h
      exact hfoldl re res

theorem references_units (name : String) (h : m ≤ n) :
    (units (.var name) m n).flatMap Re.references = List.replicate n name := by
  have hsum : m + (n - m) = n := Nat.add_sub_of_le h
  rw [← hsum]
  simp [units, List.flatMap_append, List.flatMap_replicate]

/-! ### Evaluating -/

variable {a : Alphabet} {b b' : Builder} {d : String} {e : Expr} {value : Option Re} {re : Re}

theorem stable_current (d : Option String) : Stable fun b => b.current = d where
  report h _ _ _ := h
  hoist {b} h re := by
    unfold Builder.hoist
    cases hcurrent : b.current with
    | none => exact h
    | some definition => exact hcurrent.symm.trans h

theorem build_untried (h : Bounded isRange lower upper m n) (huntried : n = 0 ∨ n < m) (a : Alphabet) (span : Span)
    (e : Expr) (b : Builder) : build a (.repetition span e isRange lower upper) b = .ok (some .epsilon, b) := by
  simp only [build, h.repetitionBounds_eq, if_pos huntried]

theorem build_tried (h : Bounded isRange lower upper m n) (htried : ¬ (n = 0 ∨ n < m)) (a : Alphabet) (span : Span)
    (e : Expr) (b : Builder) :
    build a (.repetition span e isRange lower upper) b =
      (build a e b).map fun r => repeated m n r.1 r.2 := by
  simp only [build, h.repetitionBounds_eq, if_neg htried]
  cases build a e b with
  | error fault => rfl
  | ok r => rfl

theorem repeated_of_isStrLike (hre : re.isStrLike = true) (m n : Nat) (b : Builder) :
    repeated m n (some re) b = (Re.foldLeft .join (units re m n), b) := by
  simp only [repeated, hre, if_true]
  exact congrArg (·, b) (fold_eq_foldLeft _)

theorem repeated_of_not_isStrLike (hre : re.isStrLike = false) (hd : b.current = some d) (m n : Nat) :
    repeated m n (some re) b =
      (Re.foldLeft .concat (units (.var (syntheticName d b.counter)) m n),
        { b with table := b.table.insert (syntheticName d b.counter) re, counter := b.counter + 1 }) := by
  have hunits : ∀ unit ∈ units (.var (syntheticName d b.counter)) m n, unit.asStr? = none := by
    intro unit hunit
    obtain rfl | rfl := mem_units hunit
    · rfl
    · rfl
  rw [← foldLeft_join hunits, ← fold_eq_foldLeft]
  simp only [repeated, hre, hoist_eq hd]
  rfl

end Builder

open Builder

/-- A repetition has the shape that its bounds ask for, whatever its operand is and wherever in a definition it stands.
If the upper bound is zero or below the lower one, it is the empty literal and nothing changes. Otherwise the operand is
evaluated once, which never faults while the classes in the table are well-formed, and the repetition has a value
precisely if the operand has one. A literal is lined up as often as the bounds say, the copies behind the lower bound
optional, and all that can fold folds. Any other value is written under the next name made up for the definition, and
the row consists of as many references to it as the upper bound says. -/
theorem repetition_has_shape (a : Alphabet) {b : Builder} {d : String} (hd : b.current = some d) {isRange : Bool}
    {lower upper : Option String} {m n : Nat} (hbounds : Bounded isRange lower upper m n) (span : Span) (e : Expr) :
    let repetition := Expr.repetition span e isRange lower upper
    (n = 0 ∨ n < m → build a repetition b = .ok (some (.str []), b)) ∧
      (¬ (n = 0 ∨ n < m) →
        (b.Sound a → ∃ value b', build a e b = .ok (value, b')) ∧
        (∀ fault, build a e b = .error fault → build a repetition b = .error fault) ∧
        (∀ b', build a e b = .ok (none, b') → build a repetition b = .ok (none, b')) ∧
        (∀ re b', build a e b = .ok (some re, b') → re.isStrLike = true →
          ∃ row, Re.foldLeft .join (units re m n) = some row ∧ build a repetition b = .ok (some row, b')) ∧
        ∀ re b', build a e b = .ok (some re, b') → re.isStrLike = false →
          ∃ row, Re.foldLeft .concat (units (.var (syntheticName d b'.counter)) m n) = some row ∧
            row.references = List.replicate n (syntheticName d b'.counter) ∧
            build a repetition b = .ok (some row,
              { b' with
                table := b'.table.insert (syntheticName d b'.counter) re
                counter := b'.counter + 1 })) := by
  intro repetition
  refine ⟨fun huntried => build_untried hbounds huntried a span e b, fun htried => ?_⟩
  have hbuild : build a repetition b = (build a e b).map fun r => repeated m n r.1 r.2 :=
    build_tried hbounds htried a span e b
  refine ⟨fun hsound => ?_, fun fault hfault => ?_, fun b' hnone => ?_, fun re b' hre hlike => ?_,
    fun re b' hre hlike => ?_⟩
  · obtain ⟨⟨value, b'⟩, hvalue, -⟩ := build_returns a e b hsound
    exact ⟨value, b', hvalue⟩
  · rw [hbuild, hfault]
    rfl
  · rw [hbuild, hnone]
    rfl
  · obtain ⟨row, hrow⟩ := exists_foldLeft_units .join re htried
    refine ⟨row, hrow, ?_⟩
    rw [hbuild, hre, Except.map, repeated_of_isStrLike hlike, hrow]
  · have hcurrent : b'.current = some d := (stable_current (some d)).build a e b hd _ hre
    have hle : m ≤ n := Nat.le_of_not_lt fun hlt => htried (.inr hlt)
    obtain ⟨row, hrow⟩ := exists_foldLeft_units .concat (.var (syntheticName d b'.counter)) htried
    refine ⟨row, hrow, ?_, ?_⟩
    · rw [references_foldLeft hrow, references_units _ hle]
    · rw [hbuild, hre, Except.map, repeated_of_not_isStrLike hlike hcurrent, hrow]

/-- A repetition of a repetition, the outer one without a copy that is not optional. -/
theorem repetition_has_shape_of_nested :
    let here := Span.point 0
    let operand : Expr := .closure here (.literal here (some ("a", 0))) (some "*")
    let inner : Expr := .repetition here operand false (some "2") none
    ∃ b b', b.current = some "x" ∧ build .unicode inner b = .ok (some (.concat (.var "__x__0") (.var "__x__0")), b') ∧
      b'.table.names = ["__x__0"] ∧
      ∃ b'', build .unicode (.repetition here inner true (some "0") (some "2")) b =
          .ok (some (.concat (.kleene (.var "__x__1") .zeroOrOne) (.kleene (.var "__x__1") .zeroOrOne)), b'') ∧
        b''.table = b'.table.insert "__x__1" (.concat (.var "__x__0") (.var "__x__0")) ∧ b''.counter = 2 := by
  intro here operand inner
  have hinner : build .unicode inner { start with current := some "x" } =
      .ok (some (.concat (.var "__x__0") (.var "__x__0")),
        ⟨⟨[("__x__0", .kleene (.char 97) .zeroOrMore)]⟩, [], some "x", 1⟩) := by
    rfl
  have hzero : IsBound "0" 0 := ⟨by decide, List.all_eq_true.mp (by decide), by decide, by decide⟩
  have htwo : IsBound "2" 2 := ⟨by decide, List.all_eq_true.mp (by decide), by decide, by decide⟩
  obtain ⟨-, htried⟩ := repetition_has_shape .unicode (b := { start with current := some "x" }) (d := "x") rfl
    (.range hzero htwo) here inner
  obtain ⟨-, -, -, -, hhoisted⟩ := htried (by decide)
  obtain ⟨row, hrow, -, hbuild⟩ := hhoisted _ _ hinner rfl
  cases hrow
  exact ⟨_, _, rfl, hinner, rfl, _, hbuild, rfl, rfl⟩

end Transducer
