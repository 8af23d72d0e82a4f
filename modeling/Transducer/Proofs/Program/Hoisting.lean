import Mathlib.Logic.Function.Basic
import Transducer.Proofs.Program.Denotation

/-!
# Names that the builder makes up

A value that is repeated is bound to a name of its own, made of the definition's name and a number. Such a name starts
with two underscores and gives both the definition and the number away, so it is no name of a source that keeps off
such names, and no two are the same. A new name whose value refers to names of the table only can always be given a
meaning, so a table that grows in this way keeps a solution. Besides that, evaluating an expression only reports, so
what reporting and making up a name preserve holds behind it if it holds before.
-/

namespace Transducer

/-- A name that starts with two underscores. -/
def isReserved (name : String) : Bool := ['_', '_'].isPrefixOf name.toList

namespace Builder

theorem toList_syntheticName (definition : String) (k : Nat) :
    (syntheticName definition k).toList = '_' :: '_' :: (definition.toList ++ '_' :: '_' :: (Nat.repr k).toList) := by
  simp [syntheticName, String.toList_append, toString]

theorem isReserved_syntheticName (definition : String) (k : Nat) :
    isReserved (syntheticName definition k) = true := by
  rw [isReserved, toList_syntheticName]
  rfl

theorem all_isDigit_repr (k : Nat) : ∀ c ∈ (Nat.repr k).toList, c.isDigit = true := by
  intro c hc
  rw [Nat.repr, String.toList_ofList] at hc
  exact Nat.isDigit_of_mem_toDigits (by decide) (by decide) hc

theorem eq_of_append_digits {xs ys ds es : List Char} (hds : ∀ c ∈ ds, c.isDigit = true)
    (hes : ∀ c ∈ es, c.isDigit = true) (h : xs ++ '_' :: ds = ys ++ '_' :: es) : xs = ys ∧ ds = es := by
  have hnot : ¬ Char.isDigit '_' = true := by decide
  have hreverse : ds.reverse ++ '_' :: xs.reverse = es.reverse ++ '_' :: ys.reverse := by
    simpa using congrArg List.reverse h
  have hds' : ∀ c ∈ ds.reverse, c.isDigit = true := fun c hc => hds c (List.mem_reverse.mp hc)
  have hes' : ∀ c ∈ es.reverse, c.isDigit = true := fun c hc => hes c (List.mem_reverse.mp hc)
  have hdigits := congrArg (List.takeWhile Char.isDigit) hreverse
  have hrest := congrArg (List.dropWhile Char.isDigit) hreverse
  rw [List.takeWhile_append_of_pos hds', List.takeWhile_append_of_pos hes', List.takeWhile_cons_of_neg hnot,
    List.takeWhile_cons_of_neg hnot, List.append_nil, List.append_nil] at hdigits
  rw [List.dropWhile_append_of_pos hds', List.dropWhile_append_of_pos hes', List.dropWhile_cons_of_neg hnot,
    List.dropWhile_cons_of_neg hnot] at hrest
  exact ⟨List.reverse_injective (List.cons.inj hrest).2, List.reverse_injective hdigits⟩

theorem syntheticName_inj {d e : String} {k l : Nat} (h : syntheticName d k = syntheticName e l) : d = e ∧ k = l := by
  have hchars := congrArg String.toList h
  rw [toList_syntheticName, toList_syntheticName] at hchars
  have htail := List.tail_eq_of_cons_eq (List.tail_eq_of_cons_eq hchars)
  rw [List.append_cons, List.append_cons e.toList] at htail
  obtain ⟨hfront, hdigits⟩ := eq_of_append_digits (all_isDigit_repr k) (all_isDigit_repr l) htail
  rw [Nat.repr, Nat.repr, String.toList_ofList, String.toList_ofList] at hdigits
  refine ⟨String.toList_inj.mp (List.append_cancel_right hfront), ?_⟩
  rw [← Nat.ofDigitChars_ten_toDigits (n := k), hdigits, Nat.ofDigitChars_ten_toDigits]

end Builder

namespace Table

variable {a : Alphabet} {t : Table Re}

/-- Values refer to names of the table only, and the table has a solution. -/
structure Consistent (a : Alphabet) (t : Table Re) : Prop where
  closed : ∀ name re, t.get? name = some re → ∀ other ∈ re.references, t.Binds other
  solvable : ∃ env, t.Solves a env

theorem consistent_empty (a : Alphabet) : Consistent a .empty where
  closed _ _ h := nomatch h
  solvable := ⟨fun _ => ∅, fun _ _ h => nomatch h⟩

/-- A new name may be bound to anything that refers to old names. -/
theorem Consistent.insert (h : t.Consistent a) {name : String} (hname : t.get? name = none) {re : Re}
    (hre : ∀ other ∈ re.references, t.Binds other) : (t.insert name re).Consistent a := by
  have hgrows := grows_insert hname re
  have hne {other : String} (hother : t.Binds other) : other ≠ name := by
    rintro rfl
    obtain ⟨re', hget⟩ := hother
    rw [hname] at hget
    cases hget
  obtain ⟨env, henv⟩ := h.solvable
  -- Old values do not refer to the new name, so its meaning does not change theirs.
  have hsame {re' : Re} (hre' : ∀ other ∈ re'.references, t.Binds other) :
      re'.meaning a (Function.update env name (re.meaning a env)) = re'.meaning a env :=
    Re.meaning_congr fun other hother => Function.update_of_ne (hne (hre' other hother)) _ _
  constructor
  · intro other re' hget reference hreference
    rw [get?_insert] at hget
    split at hget
    · cases hget
      exact hgrows.binds (hre reference hreference)
    · exact hgrows.binds (h.closed other re' hget reference hreference)
  · refine ⟨Function.update env name (re.meaning a env), fun other re' hget => ?_⟩
    rw [get?_insert] at hget
    split at hget
    · rename_i heq
      cases hget
      rw [hsame hre, ← heq, Function.update_self]
    · rw [hsame (h.closed other re' hget), Function.update_of_ne (hne ⟨re', hget⟩), henv other re' hget]

end Table

/-! ### Evaluating -/

namespace Builder

variable {b : Builder}

/-- What reporting and hoisting preserve is preserved whatever is evaluated. -/
structure Stable (p : Builder → Prop) : Prop where
  report {b : Builder} (h : p b) (issue : Issue) (span : Span) (detail : String) : p (b.report issue span detail)
  hoist {b : Builder} (h : p b) (re : Re) : p (b.hoist re).2

namespace Stable

variable {p : Builder → Prop}

theorem repeated (hp : Stable p) (h : p b) (m n : Nat) (value : Option Re) : p (repeated m n value b).2 := by
  unfold Builder.repeated
  cases value with
  | none => exact h
  | some re =>
      dsimp only
      split
      · exact h
      · have hhoist := hp.hoist h re
        split
        · rename_i unit b' heq
          rw [heq] at hhoist
          exact hhoist
        · rename_i b' heq
          rw [heq] at hhoist
          exact hhoist

theorem reference (hp : Stable p) (h : p b) (span : Span) (name : String) : p (b.reference span name).2 := by
  unfold Builder.reference
  split
  · split
    · exact h
    · exact h
  · exact hp.report h _ _ _

theorem withOutput (hp : Stable p) (h : p b) (span : Span) (input output : Option Re) :
    p (b.withOutput span input output).2 := by
  unfold Builder.withOutput
  split
  · split
    · exact h
    · exact hp.report h _ _ _
  · exact h

theorem literal (hp : Stable p) (h : p b) (content : Option (String × Nat)) :
    Ensures (b.literal content) fun r => p r.2 := by
  unfold Builder.literal
  split
  · exact .ok h
  · split
    · exact .ok h
    · exact .after fun _ => .ok (hp.report h _ _ _)

mutual

theorem build (hp : Stable p) (a : Alphabet) (e : Expr) (b : Builder) (h : p b) :
    Ensures (build a e b) fun r => p r.2 := by
  cases e with
  | missing => exact .ok h
  | chain span op operators operands =>
      exact (hp.buildAll a operands b h).bind fun r hr => .after fun _ => .ok hr
  | concat span operands => exact (hp.buildAll a operands b h).bind fun r hr => .ok hr
  | output span lhs rhs =>
      refine (hp.build a lhs b h).bind fun r hr => (hp.build a rhs r.2 hr).bind fun r' hr' => .ok ?_
      exact hp.withOutput hr' rhs.span r.1 r'.1
  | weight span operand value => exact .ok (hp.report h _ _ _)
  | repetition span operand isRange lower upper =>
      simp only [Builder.build]
      split
      · exact .ok h
      · split
        · exact .ok h
        · exact (hp.build a operand b h).bind fun r hr => .ok (hp.repeated hr _ _ r.1)
  | closure span operand marker => exact (hp.build a operand b h).bind fun r hr => .ok hr
  | reference span name =>
      cases name with
      | none => exact .ok h
      | some name => exact .ok (hp.reference h span name)
  | literal span content => exact hp.literal h content
  | group span inner => exact hp.build a inner b h
  | call span name arguments => exact .ok (hp.report h _ _ _)

theorem buildAll (hp : Stable p) (a : Alphabet) (es : List Expr) (b : Builder) (h : p b) :
    Ensures (buildAll a es b) fun r => p r.2 := by
  cases es with
  | nil => exact .ok h
  | cons e es => exact (hp.build a e b h).bind fun r hr => (hp.buildAll a es r.2 hr).bind fun r' hr' => .ok hr'

end

end Stable

end Builder

end Transducer
