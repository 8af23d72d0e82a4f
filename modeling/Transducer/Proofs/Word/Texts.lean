import Transducer.Proofs.Json.Encodings
import Transducer.Proofs.Word.Views
import Transducer.Word.Text

/-!
# Words as text

A listing is an array of numerals. It is read back as one, so words are only listed alike if they are the same. As
characters a word is exact where its code points are characters, and nowhere else.
-/

namespace Transducer

open Json

namespace CodePoint

/-- The blanks of a listing: one behind each comma. -/
def listed : Layout := ⟨fun _ => [], fun _ => [' '], []⟩

theorem blank_listed : listed.Blank where
  gap _ _ hc := nomatch hc
  next _ c hc := by
    rw [List.mem_singleton.mp hc]
    rfl
  colon _ hc := nomatch hc

theorem intercalate_listing (c : CodePoint) (cs : List CodePoint) :
    [',', ' '].intercalate ((c :: cs).map fun c => Nat.toDigits 10 c) ++ [']'] =
      Nat.toDigits 10 c ++ spelledElements listed 0 (cs.map number) := by
  induction cs generalizing c with
  | nil => simp [spelledElements, listed]
  | cons d ds ih =>
      have htail := ih d
      rw [List.map_cons] at htail ⊢
      rw [List.map_cons, List.intercalate_cons_cons, List.append_assoc, List.append_assoc, htail]
      rfl

theorem toList_listing (cs : List CodePoint) : (listing cs).toList = spelled listed 0 (ofCodePoints cs) := by
  cases cs with
  | nil => rfl
  | cons c cs =>
      have htexts : ((c :: cs).map (fun c : Nat => toString c)).map String.toList =
          (c :: cs).map fun c => Nat.toDigits 10 c := by
        rw [List.map_map]
        exact List.map_congr_left fun n _ => String.toList_ofList
      rw [listing, String.toList_append, String.toList_append, String.toList_intercalate, htexts, List.append_assoc]
      exact congrArg ('[' :: ·) (intercalate_listing c cs)

theorem read?_listing (cs : List CodePoint) : read? (listing cs) = some (ofCodePoints cs) :=
  read?_spelled blank_listed (isPlain_ofCodePoints cs) 0 (toList_listing cs)

theorem listing_inj {cs ds : List CodePoint} (h : listing cs = listing ds) : cs = ds := by
  have hread := read?_listing cs
  rw [h, read?_listing] at hread
  exact (ofCodePoints_inj (Option.some.inj hread)).symm

theorem toChar_toNat (c : Char) : toChar c.toNat = c := by
  have hvalid : c.toNat.isValidChar := c.valid
  rw [toChar, if_pos hvalid, Char.ofNat_toNat]

theorem textOf_ofString (s : String) : textOf (ofString s) = s := by
  have hchars : toChar ∘ Char.toNat = id := funext toChar_toNat
  rw [textOf, ofString, List.map_map, hchars, List.map_id, String.ofList_toList]

theorem ofString_textOf (cs : List CodePoint) : ofString (textOf cs) = cs.map fun c => (toChar c).toNat := by
  rw [ofString, textOf, String.toList_ofList, List.map_map]
  rfl

theorem toNat_toChar_iff (c : CodePoint) : (toChar c).toNat = c ↔ c.isValidChar := by
  constructor
  · intro h
    rw [← h]
    exact (toChar c).valid
  · intro h
    rw [toChar, if_pos h, Char.ofNat, dif_pos h]
    rfl

end CodePoint

namespace Word

variable {v w : Word}

theorem debugText_eq_iff : v.debugText = w.debugText ↔ v.toList = w.toList := by
  constructor
  · intro h
    exact CodePoint.listing_inj (String.append_right_inj _ |>.mp h)
  · intro h
    rw [debugText, debugText, listing, listing, h]

theorem toUnicode_ofString (s : String) : (ofString s).toUnicode = s := by
  rw [toUnicode, ofString, ofList, toList_ofArray]
  exact CodePoint.textOf_ofString s

/-- A word is what its text is made from precisely if all of it are characters. -/
theorem toList_ofString_toUnicode_iff : (ofString w.toUnicode).toList = w.toList ↔ ∀ c ∈ w.toList, c.isValidChar := by
  have hsame := List.map_inj_left (f := fun c => (CodePoint.toChar c).toNat) (g := id) (l := w.toList)
  rw [List.map_id] at hsame
  rw [ofString, ofList, toList_ofArray, toUnicode, CodePoint.ofString_textOf]
  exact hsame.trans (forall₂_congr fun c _ => CodePoint.toNat_toChar_iff c)

end Word

end Transducer
