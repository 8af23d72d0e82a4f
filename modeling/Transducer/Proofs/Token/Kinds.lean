import Mathlib.Data.List.Nodup
import Transducer.Token.Kind

/-!
# Sets of kinds

Kinds are numbered in the order in which they are listed, and there are so few of them that a set fits into 64 bits. A
set is no more than its members: however it was put together, they are listed once each, by ascending number.
-/

namespace Transducer

namespace Kind

theorem mem_all (k : Kind) : k ∈ all := by
  cases k <;> decide

theorem index_lt (k : Kind) : k.index < 64 := by
  have hlength : all.length ≤ 64 := by decide
  exact Nat.lt_of_lt_of_le (List.idxOf_lt_length_of_mem k.mem_all) hlength

theorem index_injective : Function.Injective index := by
  intro j k h
  exact (List.idxOf_inj j.mem_all).mp h

theorem pairwise_all : all.Pairwise fun j k => j.index < k.index := by
  decide +kernel

end Kind

namespace KindSet

variable {s t : KindSet} {k : Kind}

theorem contains_union : (s.union t).contains k = (s.contains k || t.contains k) := by
  rw [contains, union, List.contains_append]
  rfl

theorem mem_toList_iff : k ∈ s.toList ↔ s.contains k = true := by
  rw [toList, List.mem_filter]
  exact and_iff_right k.mem_all

theorem pairwise_toList (s : KindSet) : s.toList.Pairwise fun j k => j.index < k.index :=
  Kind.pairwise_all.filter _

/-- Sets are listed alike precisely if they have the same members. -/
theorem toList_eq_iff : s.toList = t.toList ↔ ∀ k, s.contains k = t.contains k := by
  constructor
  · intro h k
    rw [Bool.eq_iff_iff, ← mem_toList_iff, ← mem_toList_iff, h]
  · intro h
    exact List.filter_congr fun k _ => h k

theorem toList_union_comm (s t : KindSet) : (s.union t).toList = (t.union s).toList := by
  rw [toList_eq_iff]
  intro k
  rw [contains_union, contains_union, Bool.or_comm]

end KindSet

end Transducer
