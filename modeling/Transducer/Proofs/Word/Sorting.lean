import Mathlib.Data.Finset.Card
import Mathlib.Data.Finset.Dedup
import Transducer.Proofs.Word.Comparison

/-!
# Sorting and searching words

Sorting puts words in the order that a comparison gives them, and words that compare as equal stay in the order in which
they came. Which contents are found at which place of the result depends on the words alone, and not on the order in
which they came. The searches from either end find the first and the last place of a code point, and both of them fail
if it does not occur.
-/

namespace Transducer.Word

/-! ### Sorting -/

/-- The words of one list in the order of a comparison. Words that compare as equal stay in their order. -/
structure Sorts (cmp : Word → Word → Ordering) (ws sorted : List Word) : Prop where
  perm : sorted.Perm ws
  ascending : sorted.Pairwise fun v w => (cmp v w).isLE = true
  stable : ∀ v w, (cmp v w).isLE = true → [v, w].Sublist ws → [v, w].Sublist sorted

section Sorting

variable {cmp : Word → Word → Ordering} {vs ws vs' ws' : List Word}

theorem Orders.sorts (h : Orders cmp) (ws : List Word) : Sorts cmp ws (ws.mergeSort fun v w => (cmp v w).isLE) := by
  have htotal (v w : Word) : ((cmp v w).isLE || (cmp w v).isLE) = true := Bool.or_eq_true_iff.mpr (h.total v w)
  exact ⟨List.mergeSort_perm ws _, List.pairwise_mergeSort h.trans htotal ws, fun v w hle hsub =>
    List.pair_sublist_mergeSort h.trans htotal hle hsub⟩

theorem sorts_sort (ws : List Word) : Sorts lexCompare ws (sort ws) := orders_lexCompare.sorts ws

theorem sorts_sortShortlex (ws : List Word) : Sorts shortlexCompare ws (sortShortlex ws) :=
  orders_shortlexCompare.sorts ws

/-- The same words are sorted into the same contents. -/
theorem Sorts.contents_eq (h : Orders cmp) (hv : Sorts cmp vs vs') (hw : Sorts cmp ws ws') (hperm : vs.Perm ws)
    (hsound : ∀ w ∈ ws, w.Sound) : vs'.map toList = ws'.map toList := by
  have hsame : vs'.Perm ws' := hv.perm.trans (hperm.trans hw.perm.symm)
  have hsound' (w : Word) (hmem : w ∈ ws') : w.Sound := hsound w (hw.perm.mem_iff.mp hmem)
  have hequal (v w : Word) (hmem : v ∈ ws') (hmem' : w ∈ ws') (heq : v.toList = w.toList) : (cmp v w).isLE = true := by
    rw [(h.eq_iff v w (hsound' v hmem) (hsound' w hmem')).mpr (beq_iff.mpr heq)]
    rfl
  -- Contents are related if some words with them are.
  let below (cs ds : List CodePoint) : Prop :=
    ∃ v ∈ ws', ∃ w ∈ ws', v.toList = cs ∧ w.toList = ds ∧ (cmp v w).isLE = true
  have hbelow {us : List Word} (hmem : ∀ w ∈ us, w ∈ ws') (hus : us.Pairwise fun v w => (cmp v w).isLE = true) :
      (us.map toList).Pairwise below := by
    rw [List.pairwise_map]
    refine hus.imp_of_mem fun hv hw hle => ?_
    exact ⟨_, hmem _ hv, _, hmem _ hw, rfl, rfl, hle⟩
  refine (hsame.map toList).eq_of_pairwise ?_ (hbelow (fun w hmem => hsame.mem_iff.mp hmem) hv.ascending)
    (hbelow (fun w hmem => hmem) hw.ascending)
  rintro _ _ - - ⟨v, hv, w, hw, rfl, rfl, hle⟩ ⟨w', hw', v', hv', hweq, hveq, hge⟩
  have hback : (cmp w v).isLE = true :=
    h.trans w w' v (hequal w w' hw hw' hweq.symm) (h.trans w' v' v hge (hequal v' v hv' hv hveq))
  exact beq_iff.mp (h.antisymm v w hle hback)

/-- Neither sorting depends on the order in which the words come. -/
theorem contents_sort_of_perm (hperm : vs.Perm ws) (hsound : ∀ w ∈ ws, w.Sound) :
    (sort vs).map toList = (sort ws).map toList ∧ (sortShortlex vs).map toList = (sortShortlex ws).map toList :=
  ⟨(sorts_sort vs).contents_eq orders_lexCompare (sorts_sort ws) hperm hsound,
    (sorts_sortShortlex vs).contents_eq orders_shortlexCompare (sorts_sortShortlex ws) hperm hsound⟩

/-- Words are counted by their contents. -/
theorem distinctCount_eq (ws : List Word) : distinctCount ws = (ws.map toList).toFinset.card := by
  have hcount (contents : List (List CodePoint)) : contents.eraseDups.length = contents.toFinset.card := by
    induction contents using List.reverseRecOn with
    | nil => rfl
    | append_singleton contents cs ih =>
        rw [List.eraseDups_append, List.toFinset_append, Finset.union_comm, List.toFinset_cons, List.toFinset_nil]
        by_cases hmem : cs ∈ contents
        · simp [List.removeAll, hmem, ih]
        · simp [List.removeAll, hmem, ih, List.eraseDups_cons]
  exact hcount (ws.map toList)

end Sorting

/-! ### Searching -/

section Searching

variable {w : Word} {c : CodePoint} {i : Nat}

theorem findIdx?_beq_eq_some_iff {cs : List CodePoint} :
    cs.findIdx? (· == c) = some i ↔ cs[i]? = some c ∧ ∀ j < i, cs[j]? ≠ some c := by
  rw [List.findIdx?_eq_some_iff_getElem]
  constructor
  · rintro ⟨hi, hc, hbefore⟩
    refine ⟨List.getElem?_eq_some_iff.mpr ⟨hi, beq_iff_eq.mp hc⟩, fun j hj hcj => ?_⟩
    obtain ⟨_, hcj⟩ := List.getElem?_eq_some_iff.mp hcj
    exact hbefore j hj (beq_iff_eq.mpr hcj)
  · rintro ⟨hc, hbefore⟩
    obtain ⟨hi, hc⟩ := List.getElem?_eq_some_iff.mp hc
    refine ⟨hi, beq_iff_eq.mpr hc, fun j hj hcj => ?_⟩
    exact hbefore j hj (List.getElem?_eq_some_iff.mpr ⟨Nat.lt_trans hj hi, beq_iff_eq.mp hcj⟩)

theorem indexOf?_eq_some_iff (hw : w.Sound) :
    w.indexOf? c = some i ↔ w.get? i = some c ∧ ∀ j < i, w.get? j ≠ some c := by
  simp only [indexOf?, findIdx?_beq_eq_some_iff, hw.get?_eq]

theorem lastIndexOf?_eq_some_iff (hw : w.Sound) :
    w.lastIndexOf? c = some i ↔ w.get? i = some c ∧ ∀ j, i < j → w.get? j ≠ some c := by
  simp only [lastIndexOf?, Option.map_eq_some_iff, findIdx?_beq_eq_some_iff, hw.get?_eq, ← hw.length_toList]
  constructor
  · rintro ⟨k, ⟨hk, hbefore⟩, rfl⟩
    have hlt : k < w.toList.length := by
      simpa using (List.getElem?_eq_some_iff.mp hk).1
    rw [List.getElem?_reverse hlt] at hk
    refine ⟨hk, fun j hj hcj => ?_⟩
    have hjlt : j < w.toList.length := (List.getElem?_eq_some_iff.mp hcj).1
    apply hbefore (w.toList.length - 1 - j) (by omega)
    rw [List.getElem?_reverse (by omega)]
    convert hcj using 2
    omega
  · rintro ⟨hi, hbehind⟩
    have hilt : i < w.toList.length := (List.getElem?_eq_some_iff.mp hi).1
    refine ⟨w.toList.length - 1 - i, ⟨?_, fun j hj hcj => ?_⟩, by omega⟩
    · rw [List.getElem?_reverse (by omega)]
      convert hi using 2
      omega
    · rw [List.getElem?_reverse (by omega)] at hcj
      exact hbehind _ (by omega) hcj

theorem contains_iff : w.contains c = true ↔ c ∈ w.toList := by
  simp [contains, indexOf?]

/-- The search from the end finds something precisely if the one from the start does. -/
theorem isSome_lastIndexOf? (w : Word) (c : CodePoint) : (w.lastIndexOf? c).isSome = w.contains c := by
  rw [Bool.eq_iff_iff, contains_iff]
  simp [lastIndexOf?]

/-- What is listed from an index on is the content of the part from there on. -/
theorem toOption_listFrom (hw : w.Sound) (i : Nat) : (w.listFrom i).toOption = ((w.drop i).map toList).toOption := by
  rw [drop, hw.map_toList_slice, listFrom, part, ← hw.length_toList, List.take_length]
  by_cases hi : i ≤ w.toList.length
  · rw [if_pos hi, if_pos ⟨hi, Nat.le_refl _⟩]
  · rw [if_neg hi, if_neg fun hinside => hi hinside.1]
    rfl

end Searching

end Transducer.Word
