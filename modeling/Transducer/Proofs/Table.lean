import Transducer.Table

/-!
# Reading what was written

A table answers with the value written last. A name that was not there is put behind all others, so writing it
leaves the entries before it as they are; a name that was there keeps its place.
-/

namespace Transducer.Table

variable {α : Type}

theorem find_write (name other : String) (value : α) (entries : List (String × α)) :
    find other (write name value entries) = if name = other then some value else find other entries := by
  induction entries with
  | nil => rfl
  | cons entry entries ih =>
      obtain ⟨n, a⟩ := entry
      rw [write]
      by_cases hname : n = name
      · rw [if_pos hname, find, find, hname]
        split
        · rfl
        · rfl
      · rw [if_neg hname, find, find, ih]
        by_cases hother : n = other
        · rw [if_pos hother, if_pos hother, if_neg fun h => hname (hother.trans h.symm)]
        · rw [if_neg hother, if_neg hother]

theorem get?_insert (t : Table α) (name other : String) (value : α) :
    (t.insert name value).get? other = if name = other then some value else t.get? other :=
  find_write name other value t.entries

@[simp]
theorem get?_insert_self (t : Table α) (name : String) (value : α) : (t.insert name value).get? name = some value := by
  rw [get?_insert, if_pos rfl]

theorem get?_insert_of_ne (t : Table α) {name other : String} (value : α) (h : name ≠ other) :
    (t.insert name value).get? other = t.get? other := by
  rw [get?_insert, if_neg h]

theorem map_fst_write (name : String) (value : α) (entries : List (String × α)) :
    (write name value entries).map Prod.fst =
      if name ∈ entries.map Prod.fst then entries.map Prod.fst else entries.map Prod.fst ++ [name] := by
  induction entries with
  | nil => rfl
  | cons entry entries ih =>
      obtain ⟨n, a⟩ := entry
      rw [write]
      by_cases hname : n = name
      · rw [if_pos hname, List.map_cons, List.map_cons, if_pos (List.mem_cons.mpr (.inl hname.symm))]
      · simp only [if_neg hname, List.map_cons, ih, List.mem_cons, Ne.symm hname, false_or]
        split
        · rfl
        · rfl

theorem names_insert (t : Table α) (name : String) (value : α) :
    (t.insert name value).names = if name ∈ t.names then t.names else t.names ++ [name] :=
  map_fst_write name value t.entries

theorem mem_names_insert_self (t : Table α) (name : String) (value : α) : name ∈ (t.insert name value).names := by
  rw [names_insert]
  split
  · assumption
  · exact List.mem_append_right _ List.mem_cons_self

theorem mem_names_insert {t : Table α} {name other : String} {value : α} :
    other ∈ (t.insert name value).names ↔ other ∈ t.names ∨ other = name := by
  rw [names_insert]
  split
  · rename_i hname
    exact ⟨.inl, fun h => h.elim id fun heq => heq ▸ hname⟩
  · rw [List.mem_append, List.mem_singleton]

theorem names_subset_insert (t : Table α) (name : String) (value : α) : t.names ⊆ (t.insert name value).names := by
  rw [names_insert]
  split
  · exact fun _ h => h
  · exact List.subset_append_left _ _

theorem mem_of_find {name : String} {value : α} {entries : List (String × α)} (h : find name entries = some value) :
    (name, value) ∈ entries := by
  induction entries with
  | nil => cases h
  | cons entry entries ih =>
      obtain ⟨n, a⟩ := entry
      rw [find] at h
      split at h
      · rename_i hname
        cases h
        rw [hname]
        exact List.mem_cons_self
      · exact List.mem_cons_of_mem _ (ih h)

theorem mem_entries_of_get? {t : Table α} {name : String} {value : α} (h : t.get? name = some value) :
    (name, value) ∈ t.entries :=
  mem_of_find h

theorem mem_write {name : String} {value : α} {entry : String × α} {entries : List (String × α)}
    (h : entry ∈ write name value entries) : entry = (name, value) ∨ entry ∈ entries := by
  induction entries with
  | nil => exact .inl (List.mem_singleton.mp h)
  | cons first entries ih =>
      obtain ⟨n, a⟩ := first
      rw [write] at h
      split at h
      · rename_i hname
        rw [hname] at h
        exact (List.mem_cons.mp h).imp_right (List.mem_cons_of_mem _)
      · obtain rfl | h := List.mem_cons.mp h
        · exact .inr List.mem_cons_self
        · exact (ih h).imp_right (List.mem_cons_of_mem _)

theorem mem_entries_insert {t : Table α} {name : String} {value : α} {entry : String × α}
    (h : entry ∈ (t.insert name value).entries) : entry = (name, value) ∨ entry ∈ t.entries :=
  mem_write h

variable {p : String → Bool} {name : String}

theorem filter_names_insert_of_neg (t : Table α) (value : α) (hname : p name = false) :
    (t.insert name value).names.filter p = t.names.filter p := by
  rw [names_insert]
  split
  · rfl
  · rw [List.filter_append, List.filter_cons_of_neg (by rw [hname]; decide), List.filter_nil, List.append_nil]

theorem filter_names_insert_of_pos (t : Table α) (value : α) (hname : p name = true) :
    (t.insert name value).names.filter p =
      if name ∈ t.names.filter p then t.names.filter p else t.names.filter p ++ [name] := by
  have hmem : name ∈ t.names.filter p ↔ name ∈ t.names := by
    rw [List.mem_filter]
    exact and_iff_left hname
  rw [names_insert]
  by_cases hin : name ∈ t.names
  · rw [if_pos hin, if_pos (hmem.mpr hin)]
  · rw [if_neg hin, if_neg (mt hmem.mp hin), List.filter_append, List.filter_cons_of_pos hname, List.filter_nil]

end Transducer.Table
