import Transducer.Literal.Escape
import Transducer.Proofs.Ast.Places

/-!
# Where a malformed escape stands

The reader of a literal counts the bytes that it has read and remembers where an escape was opened and what it has read
of it. So when an escape turns out to be malformed, the bytes that the error names are those of the text that it
quotes, whatever characters stand before it.
-/

namespace Transducer

/-- A part of a text, given by its characters. -/
theorem covers_ofList (front text back : List Char) :
    Covers (String.ofList (front ++ text ++ back))
      ⟨(String.ofList front).utf8ByteSize, (String.ofList (front ++ text)).utf8ByteSize⟩ (String.ofList text) := by
  refine ⟨String.ofList front, String.ofList back, by rw [String.ofList_append, String.ofList_append], ?_⟩
  rw [String.ofList_append, String.utf8ByteSize_append]

theorem utf8ByteSize_ofList_concat {cs : List Char} {offset : Nat} (h : offset = (String.ofList cs).utf8ByteSize)
    (c : Char) : offset + c.utf8Size = (String.ofList (cs ++ [c])).utf8ByteSize := by
  rw [String.ofList_append, String.utf8ByteSize_append, h]
  congr 1
  exact String.utf8ByteSize_singleton.symm

namespace Literal

/-- What the reader remembers of the characters read so far. -/
def Place.Follows (read : List Char) : Place → Prop
  | .plain => True
  | .escape start => ∃ front, read = front ++ ['\\'] ∧ start = (String.ofList front).utf8ByteSize
  | .bracket start digits =>
      ∃ front, read = front ++ '[' :: digits.reverse ∧ start = (String.ofList front).utf8ByteSize

variable {place : Place} {offset : Nat} {read cs : List Char} {e : EscapeError}

theorem eq_error_of_map {f : List CodePoint → List CodePoint} {r : Except EscapeError (List CodePoint)}
    (h : r.map f = .error e) : r = .error e := by
  cases r with
  | error e' => exact h
  | ok cs => cases h

/-- A refused escape covers the text that the refusal names. -/
theorem covers_of_unescapeFrom (hoffset : offset = (String.ofList read).utf8ByteSize) (hplace : place.Follows read)
    (h : unescapeFrom place offset cs = .error e) :
    Covers (String.ofList (read ++ cs)) ⟨e.start, e.stop⟩ e.text := by
  fun_induction unescapeFrom place offset cs generalizing read with
  | case1 => cases h
  | case2 start offset =>
      cases h
      obtain ⟨front, rfl, rfl⟩ := hplace
      rw [hoffset]
      exact covers_ofList front ['\\'] []
  | case3 start digits offset =>
      cases h
      obtain ⟨front, rfl, rfl⟩ := hplace
      rw [hoffset]
      exact covers_ofList front ('[' :: digits.reverse) []
  | case4 offset cs ih =>
      rw [List.append_cons]
      exact ih (utf8ByteSize_ofList_concat hoffset '\\') ⟨read, rfl, hoffset⟩ h
  | case5 offset cs _ ih =>
      rw [List.append_cons]
      exact ih (utf8ByteSize_ofList_concat hoffset '[') ⟨read, rfl, hoffset⟩ h
  | case6 offset c cs _ _ ih =>
      rw [List.append_cons]
      exact ih (utf8ByteSize_ofList_concat hoffset c) trivial (eq_error_of_map h)
  | case7 start offset c cs ih =>
      rw [List.append_cons]
      exact ih (utf8ByteSize_ofList_concat hoffset c) trivial (eq_error_of_map h)
  | case8 start digits offset cs value _ ih =>
      rw [List.append_cons]
      exact ih (utf8ByteSize_ofList_concat hoffset ']') trivial (eq_error_of_map h)
  | case9 start digits offset cs fault _ =>
      cases h
      have hstop : offset + 1 = _ := utf8ByteSize_ofList_concat hoffset ']'
      obtain ⟨front, rfl, rfl⟩ := hplace
      have hcovers := covers_ofList front ('[' :: digits.reverse ++ [']']) cs
      rw [← List.append_assoc front, ← hstop] at hcovers
      simpa using hcovers
  | case10 start digits offset c cs _ ih =>
      rw [List.append_cons]
      obtain ⟨front, rfl, rfl⟩ := hplace
      exact ih (utf8ByteSize_ofList_concat hoffset c) ⟨front, by simp, rfl⟩ h

/-- The error about a literal covers the text that it quotes. -/
theorem covers_of_unescape {raw : String} (h : unescape raw = .error e) : Covers raw ⟨e.start, e.stop⟩ e.text := by
  have hstart : Place.Follows [] .plain := trivial
  have hcovers := covers_of_unescapeFrom rfl hstart h
  rwa [List.nil_append, String.ofList_toList] at hcovers

end Literal

end Transducer
