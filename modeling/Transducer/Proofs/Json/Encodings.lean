import Mathlib.Data.List.Basic
import Transducer.CharClass.Json
import Transducer.Program.Basic
import Transducer.Proofs.Json.Reading

/-!
# What is encoded can be read back

Words and classes are read from the texts that they are written as, as long as their numbers are in the range of code
points. No reader is given for programs. Their texts are read back as values, and the value tells the table.
-/

namespace Transducer

namespace Json

theorem isPlain_ofCodePoints (cs : List CodePoint) : (ofCodePoints cs).IsPlain := by
  have hnumber (c : CodePoint) : (number c).IsPlain := trivial
  exact arePlain_map hnumber cs

theorem codePoints?_ofCodePoints {cs : List CodePoint} (h : ∀ c ∈ cs, c ≤ CodePoint.ceiling) :
    (ofCodePoints cs).codePoints? = some cs := by
  rw [ofCodePoints, codePoints?]
  exact mapM_map_eq_some fun c hc => if_pos (h c hc)

/-- Code points are read from their text. -/
theorem codePoints_read {cs : List CodePoint} (h : ∀ c ∈ cs, c ≤ CodePoint.ceiling) :
    (read? (ofCodePoints cs).compact).bind codePoints? = some cs := by
  rw [read?_compact (isPlain_ofCodePoints cs)]
  exact codePoints?_ofCodePoints h

theorem ofCodePoints_inj {cs ds : List CodePoint} (h : ofCodePoints cs = ofCodePoints ds) : cs = ds := by
  injection h with hnumbers
  exact List.map_injective_iff.mpr (fun _ _ hnumber => Json.number.inj hnumber) hnumbers

end Json

open Json

namespace CharClass

variable {k : CharClass}

theorem isPlain_toJson (k : CharClass) : k.toJson.IsPlain := by
  have hbreakpoint (p : Breakpoint) : p.toJson.IsPlain := ⟨trivial, trivial, trivial⟩
  exact arePlain_map hbreakpoint k.points

theorem ofJson?_breakpoint {p : Breakpoint} (h : p.point ≤ CodePoint.ceiling) :
    Breakpoint.ofJson? p.toJson = some p := by
  have hpoint : (number p.point).codePoint? = some p.point := if_pos h
  simp [Breakpoint.ofJson?, Breakpoint.toJson, Breakpoint.onlyMember?, Breakpoint.ofParts?, hpoint]

theorem ofJson?_toJson (h : ∀ p ∈ k.points, p.point ≤ CodePoint.ceiling) : ofJson? k.toJson = some k := by
  rw [toJson, ofJson?, mapM_map_eq_some fun p hp => ofJson?_breakpoint (h p hp)]
  rfl

/-- A class is read from its text. -/
theorem class_read (h : ∀ p ∈ k.points, p.point ≤ CodePoint.ceiling) :
    (read? k.toJson.compact).bind ofJson? = some k := by
  rw [read?_compact (isPlain_toJson k)]
  exact ofJson?_toJson h

theorem toJson_inj {k l : CharClass} (h : k.toJson = l.toJson) : k = l := by
  injection h with hpoints
  have hbreakpoint : Function.Injective Breakpoint.toJson := by
    intro p q hpq
    cases p
    cases q
    simpa [Breakpoint.toJson] using hpq
  cases k
  cases l
  exact congrArg CharClass.mk (List.map_injective_iff.mpr hbreakpoint hpoints)

end CharClass

namespace Re

theorem isPlain_toJson (re : Re) : re.toJson.IsPlain := by
  induction re with
  | union l r ihl ihr => exact ⟨trivial, ihl, ihr, trivial⟩
  | concat l r ihl ihr => exact ⟨trivial, ihl, ihr, trivial⟩
  | compose l r ihl ihr => exact ⟨trivial, ihl, ihr, trivial⟩
  | diff l r ihl ihr => exact ⟨trivial, ihl, ihr, trivial⟩
  | kleene operand q ih => exact ⟨trivial, ih, trivial, trivial⟩
  | output input cs ih => exact ⟨trivial, ih, isPlain_ofCodePoints cs, trivial⟩
  | char c => exact ⟨trivial, trivial, trivial⟩
  | set k => exact ⟨trivial, k.isPlain_toJson, trivial⟩
  | str cs => exact ⟨trivial, isPlain_ofCodePoints cs, trivial⟩
  | var name => exact ⟨trivial, trivial, trivial⟩

theorem toJson_inj {re re' : Re} (h : re.toJson = re'.toJson) : re = re' := by
  have hname {q q' : Quantifier} (heq : q.name = q'.name) : q = q' := by
    cases q <;> cases q' <;> first | rfl | exact absurd heq (by decide)
  induction re generalizing re' with
  | union l r ihl ihr =>
      cases re' <;> simp [toJson] at h
      rw [ihl h.1, ihr h.2]
  | concat l r ihl ihr =>
      cases re' <;> simp [toJson] at h
      rw [ihl h.1, ihr h.2]
  | compose l r ihl ihr =>
      cases re' <;> simp [toJson] at h
      rw [ihl h.1, ihr h.2]
  | diff l r ihl ihr =>
      cases re' <;> simp [toJson] at h
      rw [ihl h.1, ihr h.2]
  | kleene operand q ih =>
      cases re' <;> simp [toJson] at h
      rw [ih h.1, hname h.2]
  | output input cs ih =>
      cases re' <;> simp [toJson] at h
      rw [ih h.1, ofCodePoints_inj h.2]
  | char c =>
      cases re' <;> simp [toJson] at h
      rw [h]
  | set k =>
      cases re' <;> simp [toJson] at h
      rw [CharClass.toJson_inj h]
  | str cs =>
      cases re' <;> simp [toJson] at h
      rw [ofCodePoints_inj h]
  | var name =>
      cases re' <;> simp [toJson] at h
      rw [h]

theorem isPlain_tableJson (t : Table Re) : (tableJson t).IsPlain := by
  have hplain (entries : List (String × Re)) : ArePlainMembers (entries.map fun e => (e.1, e.2.toJson)) := by
    induction entries with
    | nil => trivial
    | cons e entries ih => exact ⟨e.2.isPlain_toJson, ih⟩
  exact hplain t.entries

theorem tableJson_inj {t t' : Table Re} (h : tableJson t = tableJson t') : t = t' := by
  have hentry : Function.Injective fun e : String × Re => (e.1, e.2.toJson) := by
    rintro ⟨name, re⟩ ⟨name', re'⟩ heq
    obtain ⟨hname, hre⟩ := Prod.mk.inj heq
    exact Prod.ext hname (toJson_inj hre)
  injection h with hentries
  cases t
  cases t'
  exact congrArg Table.mk (List.map_injective_iff.mpr hentry hentries)

end Re

namespace Program

/-- Either text of a program is read as the value that it was written from. -/
theorem read?_toJson (p : Program) : read? p.toJson.compact = some p.toJson ∧ read? p.toJson.pretty = some p.toJson :=
  ⟨read?_compact (Re.isPlain_tableJson p.table), read?_pretty (Re.isPlain_tableJson p.table)⟩

/-- Programs with the same text have the same table. -/
theorem table_eq_of_pretty {p q : Program} (h : p.toJson.pretty = q.toJson.pretty) : p.table = q.table := by
  have hvalue : p.toJson = q.toJson := by
    have hread := q.read?_toJson.2
    rw [← h, p.read?_toJson.2] at hread
    exact Option.some.inj hread
  exact Re.tableJson_inj hvalue

end Program

end Transducer
