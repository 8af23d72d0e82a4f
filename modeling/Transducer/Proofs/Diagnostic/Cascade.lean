import Mathlib.Data.List.Basic
import Transducer.Diagnostic.Cascade

/-!
# Something is always left

Which diagnostics are hidden depends on the order in which they hide each other, and a diagnostic that has hidden others
may be hidden itself in the end. What it hides it outranks, though, or is an error like it. So a property that every
diagnostic shares with those that it hides is never lost: when the last diagnostic with the property is hidden, the one
that hides it has the property and is not hidden. Being there at all is such a property, and so is being an error.
-/

namespace Transducer

namespace Issue

theorem severity_eq_error_iff (i : Issue) : i.severity = .error ↔ i.rank ≤ Issue.rank .invalidNumericEscape := by
  cases i <;> decide

theorem severity_of_outranks {i j : Issue} (h : i.outranks j = true) (hj : j.severity = .error) :
    i.severity = .error := by
  rw [severity_eq_error_iff] at hj ⊢
  exact Nat.le_trans (Nat.le_of_lt (of_decide_eq_true h)) hj

theorem severity_of_isRootCause {i : Issue} (h : i.isRootCause = true) : i.severity = .error := by
  revert h
  cases i <;> decide

end Issue

namespace Diagnostic

/-- A property that a diagnostic shares with all that it hides. -/
def Inherited (p : Diagnostic → Prop) : Prop := ∀ a b, hides a b = true → p b → p a

theorem inherited_true : Inherited fun _ => True := fun _ _ _ _ => trivial

theorem inherited_isError : Inherited fun d => d.isError = true := by
  intro a b hhides hb
  have hb : b.issue.severity = .error := eq_of_beq hb
  suffices a.issue.severity = .error from beq_iff_eq.mpr this
  simp only [hides, Bool.or_eq_true, Bool.and_eq_true] at hhides
  rcases hhides with ⟨-, houtranks⟩ | ⟨-, ⟨hroot, -⟩ | ⟨-, houtranks⟩⟩
  · exact Issue.severity_of_outranks houtranks hb
  · exact Issue.severity_of_isRootCause hroot
  · exact Issue.severity_of_outranks houtranks hb

/-- There is one with the property that is not hidden. -/
def Survives (p : Diagnostic → Prop) (ms : List Marked) : Prop := ∃ d, p d ∧ (d, false) ∈ ms

variable {p : Diagnostic → Prop} {a : Diagnostic} {before after : List Marked}

theorem mem_markHidden {d : Diagnostic} {ms : List Marked} (h : (d, false) ∈ ms) (hkept : hides a d = false) :
    (d, false) ∈ markHidden a ms :=
  List.mem_map.mpr ⟨(d, false), h, by rw [hkept]; rfl⟩

/-- A diagnostic hides others: if it hides one with the property, it takes its place. -/
theorem Survives.markHidden (hp : Inherited p) (h : Survives p (before ++ (a, false) :: after)) :
    Survives p ((a, false) :: markHidden a before ++ markHidden a after) := by
  obtain ⟨d, hd, hmem⟩ := h
  cases hhides : hides a d with
  | true => exact ⟨a, hp a d hhides hd, List.mem_cons_self⟩
  | false =>
      refine ⟨d, hd, ?_⟩
      rw [List.mem_append, List.mem_cons] at hmem
      rcases hmem with hmem | heq | hmem
      · exact List.mem_cons_of_mem _ (List.mem_append_left _ (mem_markHidden hmem hhides))
      · rw [heq]
        exact List.mem_cons_self
      · exact List.mem_cons_of_mem _ (List.mem_append_right _ (mem_markHidden hmem hhides))

theorem Survives.sweep (hp : Inherited p) (before after : List Marked) (h : Survives p (before ++ after)) :
    Survives p (sweep before after) := by
  fun_induction Diagnostic.sweep before after with
  | case1 before =>
      obtain ⟨d, hd, hmem⟩ := h
      rw [List.append_nil] at hmem
      exact ⟨d, hd, List.mem_reverse.mpr hmem⟩
  | case2 before a after ih =>
      obtain ⟨d, hd, hmem⟩ := h
      refine ih ⟨d, hd, ?_⟩
      simp only [List.mem_append, List.mem_cons] at hmem ⊢
      tauto
  | case3 before a after ih => exact ih (h.markHidden hp)

/-- Of the diagnostics with such a property one is always left. -/
theorem exists_mem_filtered (hp : Inherited p) {ds : List Diagnostic} (h : ∃ d ∈ ds, p d) :
    ∃ d ∈ filtered ds, p d := by
  obtain ⟨d, hmem, hd⟩ := h
  have hstart : Survives p ([] ++ ds.map fun d => (d, false)) := ⟨d, hd, List.mem_map.mpr ⟨d, hmem, rfl⟩⟩
  obtain ⟨e, he, hkept⟩ := hstart.sweep hp
  exact ⟨e, List.mem_map.mpr ⟨(e, false), List.mem_filter.mpr ⟨hkept, rfl⟩, rfl⟩, he⟩

theorem filtered_ne_nil {ds : List Diagnostic} (h : ds ≠ []) : filtered ds ≠ [] := by
  obtain ⟨d, hd⟩ := List.exists_mem_of_ne_nil ds h
  obtain ⟨e, he, -⟩ := exists_mem_filtered inherited_true ⟨d, hd, trivial⟩
  exact List.ne_nil_of_mem he

theorem exists_error_mem_filtered {ds : List Diagnostic} (h : hasErrors ds = true) :
    ∃ d ∈ filtered ds, d.isError = true :=
  exists_mem_filtered inherited_isError (List.any_eq_true.mp h)

theorem filtered_nil : filtered [] = [] := by
  rw [filtered, List.map_nil, sweep]
  rfl

end Diagnostic

end Transducer
