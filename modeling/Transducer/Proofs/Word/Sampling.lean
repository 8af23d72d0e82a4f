import Transducer.Proofs.Word.Views
import Transducer.Word.Sample

/-!
# Sampled words

Whatever numbers are drawn, a sample stays inside of the ranges that were asked for, and it fails only because one of
them is empty. Every word inside of the ranges is drawn by some numbers.
-/

namespace Transducer.Word

namespace Bounds

variable {r : Bounds} {n : Nat}

theorem holds_iff : r.holds n = true ↔ r.low ≤ n ∧ n < r.high := by
  simp [holds]

theorem holds_pick (h : r.low < r.high) (drawn : Nat) : r.holds (r.pick drawn) = true := by
  have hlt : drawn % (r.high - r.low) < r.high - r.low := Nat.mod_lt _ (by omega)
  rw [holds_iff, pick]
  omega

theorem pick_sub (h : r.holds n = true) : r.pick (n - r.low) = n := by
  obtain ⟨hlow, hhigh⟩ := holds_iff.mp h
  rw [pick, Nat.mod_eq_of_lt (by omega)]
  omega

end Bounds

/-- The word is inside of the ranges for lengths and for values. -/
structure Inside (lengths values : Bounds) (w : Word) : Prop where
  sound : w.Sound
  length : lengths.holds w.length = true
  values : ∀ c ∈ w.toList, values.holds c = true

variable {lengths values : Bounds} {draw : Nat → Nat} {n : Nat}

theorem sampleOfLength_eq (h : values.low < values.high) (n : Nat) (draw : Nat → Nat) :
    sampleOfLength n values draw = .ok (ofList ((List.range n).map fun i => values.pick (draw i))) := if_pos h

theorem sample_eq (hlengths : lengths.low < lengths.high) (hvalues : values.low < values.high) (draw : Nat → Nat) :
    sample lengths values draw =
      .ok (ofList ((List.range (lengths.pick (draw 0))).map fun i => values.pick (draw (i + 1)))) := by
  rw [sample, if_pos hlengths, sampleOfLength_eq hvalues]

@[simp] theorem toList_ofList (cs : List CodePoint) : (ofList cs).toList = cs := toList_ofArray cs.toArray

@[simp] theorem length_ofList (cs : List CodePoint) : (ofList cs).length = cs.length := by
  simp [ofList, ofArray, length]

/-- A sample lies inside of the ranges, or one of them is empty and the first such range is named. -/
theorem sample_cases (lengths values : Bounds) (draw : Nat → Nat) :
    (∃ w, sample lengths values draw = .ok w ∧ w.Inside lengths values) ∨
      lengths.high ≤ lengths.low ∧ sample lengths values draw = .error (.noLength lengths.low lengths.high) ∨
      lengths.low < lengths.high ∧ values.high ≤ values.low ∧
        sample lengths values draw = .error (.noValue values.low values.high) := by
  by_cases hlengths : lengths.low < lengths.high
  · by_cases hvalues : values.low < values.high
    · refine .inl ⟨_, sample_eq hlengths hvalues draw, sound_ofArray _, ?_, ?_⟩
      · rw [length_ofList, List.length_map, List.length_range]
        exact Bounds.holds_pick hlengths _
      · intro c hc
        rw [toList_ofList] at hc
        obtain ⟨i, -, rfl⟩ := List.mem_map.mp hc
        exact Bounds.holds_pick hvalues _
    · refine .inr (.inr ⟨hlengths, Nat.le_of_not_lt hvalues, ?_⟩)
      rw [sample, if_pos hlengths, sampleOfLength, if_neg hvalues]
  · refine .inr (.inl ⟨Nat.le_of_not_lt hlengths, ?_⟩)
    rw [sample, if_neg hlengths]

/-- Numbers that draw a word: its length comes first, and then its code points. -/
def drawsOf (lengths values : Bounds) (w : Word) (i : Nat) : Nat :=
  if i = 0 then w.length - lengths.low else (w.toList[i - 1]?).getD 0 - values.low

/-- Every word inside of the ranges is some sample. -/
theorem exists_sample {w : Word} (h : w.Inside lengths values) (hvalues : values.low < values.high) :
    ∃ draw, (sample lengths values draw).map toList = .ok w.toList := by
  obtain ⟨hlow, hhigh⟩ := Bounds.holds_iff.mp h.length
  have hlengths : lengths.low < lengths.high := Nat.lt_of_le_of_lt hlow hhigh
  refine ⟨drawsOf lengths values w, ?_⟩
  have hlength : lengths.pick (drawsOf lengths values w 0) = w.toList.length := by
    rw [h.sound.length_toList]
    exact Bounds.pick_sub h.length
  rw [sample_eq hlengths hvalues, hlength, Except.map, toList_ofList]
  congr 1
  apply List.ext_getElem
  · simp
  · intro i hi hi'
    have hmem : values.holds w.toList[i] = true := h.values _ (List.getElem_mem hi')
    simp [drawsOf, List.getElem?_eq_getElem hi', Bounds.pick_sub hmem]

end Transducer.Word
