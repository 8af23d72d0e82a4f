import Transducer.Diagnostic.Report
import Transducer.Proofs.Diagnostic.Cascade
import Transducer.Proofs.Diagnostic.Stability

/-!
# Counting diagnostics

A report may end with the numbers of its errors and warnings. A diagnostic is one or the other, so the numbers account
for all of them, and there is a last line whenever there is something to count. Removing consequences lowers the numbers
at most, but never the number of errors to zero.

A message has its detail where its template has a pair of braces. The templates have no other opening brace, so the
place can be found in the text.
-/

namespace Transducer

namespace Diagnostic

variable {ds : List Diagnostic}

theorem isWarning_iff_not_isError (d : Diagnostic) : d.isWarning = true ↔ ¬d.isError = true := by
  unfold isWarning isError
  cases d.severity <;> decide

theorem errorCount_add_warningCount (ds : List Diagnostic) : errorCount ds + warningCount ds = ds.length := by
  rw [List.length_eq_countP_add_countP isError, errorCount, warningCount]
  congr 1
  refine List.countP_congr fun d _ => ?_
  rw [isWarning_iff_not_isError, decide_eq_true_iff]

theorem errorCount_pos_iff : 0 < errorCount ds ↔ hasErrors ds = true := by
  rw [errorCount, List.countP_pos_iff, hasErrors, List.any_eq_true]

theorem warningCount_pos_iff : 0 < warningCount ds ↔ hasWarnings ds = true := by
  rw [warningCount, List.countP_pos_iff, hasWarnings, List.any_eq_true]

theorem summaryLine?_eq_none_iff : summaryLine? ds = none ↔ ds = [] := by
  have hcount := errorCount_add_warningCount ds
  unfold summaryLine?
  split
  · rename_i herrors hwarnings
    rw [herrors, hwarnings] at hcount
    exact iff_of_true rfl (List.length_eq_zero_iff.mp hcount.symm)
  all_goals
    refine iff_of_false (Option.some_ne_none _) ?_
    rintro rfl
    simp_all [errorCount, warningCount]

/-! ### Without consequences -/

theorem errorCount_filtered_le (ds : List Diagnostic) : errorCount (filtered ds) ≤ errorCount ds :=
  (filtered_sublist ds).countP_le

theorem warningCount_filtered_le (ds : List Diagnostic) : warningCount (filtered ds) ≤ warningCount ds :=
  (filtered_sublist ds).countP_le

theorem hasErrors_filtered (ds : List Diagnostic) : hasErrors (filtered ds) = hasErrors ds := by
  rw [Bool.eq_iff_iff]
  constructor
  · intro h
    rw [← errorCount_pos_iff] at h ⊢
    exact Nat.lt_of_lt_of_le h (errorCount_filtered_le ds)
  · intro h
    exact List.any_eq_true.mpr (exists_error_mem_filtered h)

/-- Without errors there are warnings if there is anything at all. -/
theorem hasWarnings_iff_ne_nil (h : hasErrors ds = false) : hasWarnings ds = true ↔ ds ≠ [] := by
  have hcount := errorCount_add_warningCount ds
  have hzero : errorCount ds = 0 := by
    refine Nat.eq_zero_of_not_pos fun hpos => ?_
    rw [errorCount_pos_iff, h] at hpos
    cases hpos
  rw [← warningCount_pos_iff, ← List.length_pos_iff]
  omega

/-- The warnings are never all hidden, unless by errors. -/
theorem hasWarnings_filtered (h : hasErrors ds = false) : hasWarnings (filtered ds) = hasWarnings ds := by
  rw [Bool.eq_iff_iff, hasWarnings_iff_ne_nil h, hasWarnings_iff_ne_nil ((hasErrors_filtered ds).trans h)]
  constructor
  · rintro hleft rfl
    exact hleft filtered_nil
  · exact filtered_ne_nil

end Diagnostic

namespace Issue

theorem not_mem_template (i : Issue) : '\x7b' ∉ i.template.1.toList ∧ '\x7b' ∉ i.template.2.toList := by
  cases i <;> decide +kernel

/-- The message has its detail in the place of the braces, wherever they are found. -/
theorem message_eq_of_templateText (i : Issue) (detail : String) {before after : List Char}
    (h : i.templateText.toList = before ++ '\x7b' :: '\x7d' :: after) :
    (i.message (some detail)).toList = before ++ detail.toList ++ after := by
  obtain ⟨hleft, hright⟩ := i.not_mem_template
  have hsplit : i.template.1.toList ++ '\x7b' :: '\x7d' :: i.template.2.toList =
      before ++ '\x7b' :: '\x7d' :: after := by
    rw [← h, templateText, String.toList_append, String.toList_append, List.append_assoc]
    rfl
  obtain ⟨rfl, -, hafter⟩ := (List.append_cons_inj_of_notMem hleft (by simpa using hright)).mp hsplit
  obtain rfl := List.tail_eq_of_cons_eq hafter
  rw [message, String.toList_append, String.toList_append]

end Issue

end Transducer
