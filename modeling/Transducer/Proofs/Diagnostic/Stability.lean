import Transducer.Diagnostic.Cascade

/-!
# Filtering is stable

The sweep reads the marks that it sets: what is hidden when its turn comes hides nothing, and what has hidden others may
be hidden later on. What is left does not depend on that in one respect. A diagnostic that is left was not hidden when
it had its turn, and everything that it hides was hidden then at the latest. So of those that are left none hides
another one, and filtering them again changes nothing. A mark, on the other hand, is only set for a reason.
-/

namespace Transducer.Diagnostic

/-- The rules by which a diagnostic suppresses another one. -/
inductive Suppresses (a b : Diagnostic) : Prop where
  /-- What starts and ends inside the cascade span and has a lower priority. -/
  | inside (hstart : a.cascade.start < b.span.start) (hstop : b.span.stop ≤ a.cascade.stop)
      (hrank : a.issue.rank < b.issue.rank)
  /-- At the same place, a missing token comes before an unclosed delimiter. -/
  | rootCause (hstart : a.span.start = b.span.start) (ha : a.issue.isRootCause = true)
      (hb : b.issue.isStructural = true)
  /-- At the same place, otherwise the priority decides. -/
  | priority (hstart : a.span.start = b.span.start) (hrank : a.issue.rank < b.issue.rank)
      (hother : ¬ (a.issue.isStructural = true ∧ b.issue.isRootCause = true))

variable {a b d : Diagnostic} {ds : List Diagnostic} {before after ms : List Marked}

theorem hides_iff : hides a b = true ↔ Suppresses a b := by
  simp only [hides, reaches, Issue.outranks, Bool.or_eq_true, Bool.and_eq_true, decide_eq_true_eq, beq_iff_eq,
    Bool.not_eq_true', Bool.and_eq_false_iff]
  constructor
  · rintro (⟨⟨hstart, hstop⟩, hrank⟩ | ⟨hstart, ⟨ha, hb⟩ | ⟨hother, hrank⟩⟩)
    · exact .inside hstart hstop hrank
    · exact .rootCause hstart ha hb
    · refine .priority hstart hrank fun hboth => ?_
      rw [hboth.1, hboth.2] at hother
      simp at hother
  · rintro (⟨hstart, hstop, hrank⟩ | ⟨hstart, ha, hb⟩ | ⟨hstart, hrank, hother⟩)
    · exact .inl ⟨⟨hstart, hstop⟩, hrank⟩
    · exact .inr ⟨hstart, .inl ⟨ha, hb⟩⟩
    · refine .inr ⟨hstart, .inr ⟨?_, hrank⟩⟩
      rwa [← Bool.not_eq_true, ← Bool.not_eq_true, ← Classical.not_and_iff_not_or_not]

/-- No issue is both a missing token and an unclosed delimiter, so no diagnostic hides itself. -/
theorem hides_self (d : Diagnostic) : hides d d = false := by
  rw [← Bool.not_eq_true, hides_iff]
  rintro (⟨-, -, hrank⟩ | ⟨-, hroot, hstructural⟩ | ⟨-, hrank, -⟩)
  · exact Nat.lt_irrefl _ hrank
  · revert hroot hstructural
    cases d.issue <;> decide
  · exact Nat.lt_irrefl _ hrank

/-! ### The sweep -/

theorem map_fst_markHidden (a : Diagnostic) (ms : List Marked) :
    (markHidden a ms).map Prod.fst = ms.map Prod.fst := by
  rw [markHidden, List.map_map]
  rfl

theorem of_mem_markHidden_false (h : (d, false) ∈ markHidden a ms) : (d, false) ∈ ms ∧ hides a d = false := by
  obtain ⟨⟨d', hidden⟩, hmem, heq⟩ := List.mem_map.mp h
  obtain ⟨rfl, hmark⟩ := Prod.mk.inj heq
  obtain ⟨rfl, hhides⟩ := Bool.or_eq_false_iff.mp hmark
  exact ⟨hmem, hhides⟩

theorem of_mem_markHidden_true (h : (d, true) ∈ markHidden a ms) : (d, true) ∈ ms ∨ hides a d = true := by
  obtain ⟨⟨d', hidden⟩, hmem, heq⟩ := List.mem_map.mp h
  obtain ⟨rfl, hmark⟩ := Prod.mk.inj heq
  rcases Bool.or_eq_true_iff.mp hmark with rfl | hhides
  · exact .inl hmem
  · exact .inr hhides

/-- How the sweep of a list stands: all are there in their order, what is hidden is hidden by one of them, and those
that had their turn and are not hidden hide none that is not hidden either. -/
structure Sweeping (ds : List Diagnostic) (before after : List Marked) : Prop where
  order : before.reverse.map Prod.fst ++ after.map Prod.fst = ds
  reason : ∀ d, (d, true) ∈ before ++ after → ∃ a ∈ ds, hides a d = true
  settled : ∀ a b, (a, false) ∈ before → (b, false) ∈ before ++ after → hides a b = false

namespace Sweeping

theorem start (ds : List Diagnostic) : Sweeping ds [] (ds.map fun d => (d, false)) where
  order := by
    rw [List.map_map]
    exact List.map_id ds
  reason d h := by simp at h
  settled _ _ h := by cases h

theorem skip (h : Sweeping ds before ((a, true) :: after)) : Sweeping ds ((a, true) :: before) after where
  order := by
    rw [← h.order, List.reverse_cons, List.map_append, List.append_assoc]
    rfl
  reason d hd := h.reason d (List.perm_middle.mem_iff.mpr hd)
  settled x y hx hy := by
    have hx : (x, false) ∈ before := (List.mem_cons.mp hx).resolve_left (by simp)
    exact h.settled x y hx (List.perm_middle.mem_iff.mpr hy)

/-- One that is not hidden hides what it can, so nothing is left that it hides. -/
theorem hide (h : Sweeping ds before ((a, false) :: after)) :
    Sweeping ds ((a, false) :: markHidden a before) (markHidden a after) where
  order := by
    rw [List.reverse_cons, List.map_append, List.map_reverse, map_fst_markHidden, map_fst_markHidden,
      List.append_assoc, ← List.map_reverse]
    exact h.order
  reason d hd := by
    have ha : a ∈ ds := by
      rw [← h.order]
      simp
    rw [List.cons_append, List.mem_cons, markHidden, markHidden, ← List.map_append] at hd
    have hd := of_mem_markHidden_true (hd.resolve_left (by simp))
    rcases hd with hd | hhides
    · refine h.reason d ?_
      rw [List.mem_append] at hd ⊢
      exact hd.imp_right (List.mem_cons_of_mem _)
    · exact ⟨a, ha, hhides⟩
  settled x y hx hy := by
    have hy : y = a ∨ (y, false) ∈ before ++ after ∧ hides a y = false := by
      rw [List.cons_append, List.mem_cons, markHidden, markHidden, ← List.map_append] at hy
      exact hy.imp (fun heq => (Prod.mk.inj heq).1) of_mem_markHidden_false
    rcases List.mem_cons.mp hx with hx | hx
    · obtain rfl := (Prod.mk.inj hx).1
      rcases hy with rfl | ⟨-, hy⟩
      · exact hides_self y
      · exact hy
    · refine h.settled x y (of_mem_markHidden_false hx).1 ?_
      rcases hy with rfl | ⟨hy, -⟩
      · simp
      · rw [List.mem_append] at hy ⊢
        exact hy.imp_right (List.mem_cons_of_mem _)

theorem sweep (h : Sweeping ds before after) : Sweeping ds (sweep before after).reverse [] := by
  fun_induction Diagnostic.sweep before after with
  | case1 before =>
      rw [List.reverse_reverse]
      exact h
  | case2 before a after ih => exact ih h.skip
  | case3 before a after ih => exact ih h.hide

end Sweeping

/-! ### What is left -/

/-- All diagnostics with the marks that they have in the end. -/
def marked (ds : List Diagnostic) : List Marked := sweep [] (ds.map fun d => (d, false))

theorem filtered_eq (ds : List Diagnostic) : filtered ds = ((marked ds).filter fun m => !m.2).map Prod.fst := rfl

theorem map_fst_marked (ds : List Diagnostic) : (marked ds).map Prod.fst = ds := by
  have horder := (Sweeping.start ds).sweep.order
  rwa [List.reverse_reverse, List.map_nil, List.append_nil] at horder

theorem exists_hides_of_marked (h : (d, true) ∈ marked ds) : ∃ a ∈ ds, hides a d = true := by
  refine (Sweeping.start ds).sweep.reason d ?_
  rw [List.append_nil, List.mem_reverse]
  exact h

theorem mem_filtered_iff : d ∈ filtered ds ↔ (d, false) ∈ marked ds := by
  rw [filtered_eq]
  simp

theorem filtered_sublist (ds : List Diagnostic) : (filtered ds).Sublist ds := by
  have hsublist : (filtered ds).Sublist ((marked ds).map Prod.fst) := List.filter_sublist.map Prod.fst
  rwa [map_fst_marked] at hsublist

theorem not_hides_of_mem_filtered (ha : a ∈ filtered ds) (hb : b ∈ filtered ds) : hides a b = false := by
  rw [mem_filtered_iff] at ha hb
  refine (Sweeping.start ds).sweep.settled a b (List.mem_reverse.mpr ha) ?_
  rw [List.append_nil, List.mem_reverse]
  exact hb

theorem filtered_eq_self (h : ∀ a ∈ ds, ∀ b ∈ ds, hides a b = false) : filtered ds = ds := by
  have hall : ∀ m ∈ marked ds, (!m.2) = true := by
    rintro ⟨d, hidden⟩ hm
    cases hidden with
    | false => rfl
    | true =>
        obtain ⟨a, ha, hhides⟩ := exists_hides_of_marked hm
        have hd : d ∈ ds := by
          rw [← map_fst_marked ds]
          exact List.mem_map_of_mem hm
        rw [h a ha d hd] at hhides
        cases hhides
  rw [filtered_eq, List.filter_eq_self.mpr hall, map_fst_marked]

/-- Filtering is stable, whatever the diagnostics are and in whatever order they come. What is left is a part of the
list in its order, in which none suppresses another one, so filtering it again leaves it as it is. What is removed is
suppressed by a diagnostic at another place of the list. -/
theorem filtered_stable (ds : List Diagnostic) :
    (filtered ds).Sublist ds ∧
      (∀ a ∈ filtered ds, ∀ b ∈ filtered ds, ¬ Suppresses a b) ∧
      filtered (filtered ds) = filtered ds ∧
      ∃ hidden : List Bool, hidden.length = ds.length ∧
        filtered ds = ((ds.zip hidden).filter fun m => !m.2).map Prod.fst ∧
        ∀ (i : Nat) (b : Diagnostic), ds[i]? = some b → hidden[i]? = some true →
          ∃ (j : Nat) (a : Diagnostic), j ≠ i ∧ ds[j]? = some a ∧ Suppresses a b := by
  have hnone : ∀ a ∈ filtered ds, ∀ b ∈ filtered ds, hides a b = false :=
    fun a ha b hb => not_hides_of_mem_filtered ha hb
  have hzip : ds.zip ((marked ds).map Prod.snd) = marked ds :=
    (List.zip_of_prod (map_fst_marked ds) rfl).symm
  refine ⟨filtered_sublist ds, fun a ha b hb hsuppresses => ?_, filtered_eq_self hnone, (marked ds).map Prod.snd,
    ?_, ?_, ?_⟩
  · rw [← hides_iff, hnone a ha b hb] at hsuppresses
    cases hsuppresses
  · rw [List.length_map, ← List.length_map Prod.fst, map_fst_marked]
  · rw [hzip, filtered_eq]
  · intro i b hb hhidden
    rw [List.getElem?_map] at hhidden
    obtain ⟨⟨d, hidden⟩, hm, rfl⟩ := Option.map_eq_some_iff.mp hhidden
    have hd : ds[i]? = some d := by
      rw [← map_fst_marked ds, List.getElem?_map, hm]
      rfl
    obtain rfl : d = b := Option.some.inj (hd.symm.trans hb)
    obtain ⟨a, ha, hhides⟩ := exists_hides_of_marked (List.mem_of_getElem? hm)
    obtain ⟨j, hj⟩ := List.mem_iff_getElem?.mp ha
    refine ⟨j, a, ?_, hj, hides_iff.mp hhides⟩
    rintro rfl
    obtain rfl : d = a := Option.some.inj (hd.symm.trans hj)
    rw [hides_self] at hhides
    cases hhides

/-- The second of three hides the third, unless the first has hidden it before its turn. -/
example :
    let a : Diagnostic := { ofIssue .unclosedParen ⟨0, 1⟩ with cascade := ⟨0, 6⟩ }
    let b : Diagnostic := { ofIssue .expectedExpression ⟨5, 6⟩ with cascade := ⟨5, 20⟩ }
    let c : Diagnostic := ofIssue .unexpectedToken ⟨7, 8⟩
    filtered [a, b, c] = [a, c] ∧ filtered [b, a, c] = [a] := by
  decide +kernel

end Transducer.Diagnostic
