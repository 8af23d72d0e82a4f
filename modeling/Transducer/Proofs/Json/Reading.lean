import Mathlib.Tactic.SplitIfs
import Transducer.Json.Reader

/-!
# Written values are read back

Both texts of a value are spelled in the same way and differ in the blanks between the parts. The reader passes over
blanks, and everything else it reads as it was written: a string up to its closing quote, a number up to the first
character that cannot belong to it, and an array or an object up to the bracket that closes it. So it gives back any
value that was not kept as it had been written.
-/

namespace Transducer.Json

/-! ### Blanks -/

def isBlank (c : Char) : Bool := c == ' ' || c == '\t' || c == '\n' || c == '\r'

theorem skipBlanks_append {blanks : List Char} (h : ∀ c ∈ blanks, isBlank c = true) (cs : List Char) :
    skipBlanks (blanks ++ cs) = skipBlanks cs :=
  List.dropWhile_append_of_pos h

theorem skipBlanks_cons {c : Char} (h : isBlank c = false) (cs : List Char) : skipBlanks (c :: cs) = c :: cs :=
  List.dropWhile_cons_of_neg (by rw [← isBlank, h]; decide)

/-! ### Strings -/

theorem toChar?_toNat (c : Char) : CodePoint.toChar? c.toNat = some c := by
  have hvalid : c.toNat.isValidChar := c.valid
  rw [CodePoint.toChar?, if_pos hvalid, Char.ofNat_toNat]

theorem isHighSurrogate_toNat (c : Char) : isHighSurrogate c.toNat = false := by
  have hvalid : c.toNat.isValidChar := c.valid
  simp only [Nat.isValidChar] at hvalid
  simp only [isHighSurrogate, Bool.and_eq_false_iff, decide_eq_false_iff_not]
  lia

theorem joinSurrogates_toNat (cs : List Char) : joinSurrogates (cs.map Char.toNat) = cs.map Char.toNat := by
  induction cs with
  | nil => rfl
  | cons c cs ih =>
      cases cs with
      | nil => rfl
      | cons d cs => simpa [joinSurrogates, isHighSurrogate_toNat] using ih

/-- What is read back one by one is read back as a list. -/
theorem mapM_map_eq_some {α β : Type} {f : α → β} {g : β → Option α} {xs : List α} (h : ∀ x ∈ xs, g (f x) = some x) :
    (xs.map f).mapM g = some xs := by
  induction xs with
  | nil => rfl
  | cons x xs ih =>
      obtain ⟨hx, hxs⟩ := List.forall_mem_cons.mp h
      simp [List.mapM_cons, hx, ih hxs]

/-- The code points of a text stand for the text. -/
theorem text?_ofString (s : String) : text? (CodePoint.ofString s) = some s := by
  rw [text?, CodePoint.ofString, joinSurrogates_toNat, mapM_map_eq_some fun c _ => toChar?_toNat c, Option.map_some,
    String.ofList_toList]

/-- The digits of a control character, read as a 16-bit unit. -/
def unitOf (digits : List Char) : Option Nat :=
  match digits with
  | [w, x, y, z] => hexUnit? w x y z
  | _ => none

theorem unitOf_fourDigits : ∀ n < 0x20, unitOf (fourDigits n) = some n := by decide

theorem readString_plainEscape {e c : Char} (h : plainEscape? e = some c) (hu : e ≠ 'u') (cs : List Char) :
    readString ('\\' :: e :: cs) = (readString cs).map fun r => (c.toNat :: r.1, r.2) := by
  rw [readString]
  · rw [h]
    cases readString cs <;> rfl
  · intro _ _ _ _ _ he
    exact absurd he hu

theorem readString_unit {w x y z : Char} {n : Nat} (h : hexUnit? w x y z = some n) (cs : List Char) :
    readString ('\\' :: 'u' :: w :: x :: y :: z :: cs) = (readString cs).map fun r => (n :: r.1, r.2) := by
  change (hexUnit? w x y z).bind _ = _
  rw [h]
  cases readString cs <;> rfl

theorem readString_char {c : Char} (hquote : c ≠ '\x22') (hslash : c ≠ '\\') (hcontrol : ¬ c.toNat < 0x20)
    (cs : List Char) : readString (c :: cs) = (readString cs).map fun r => (c.toNat :: r.1, r.2) := by
  rw [readString]
  · simp only [hcontrol, hslash]
    cases readString cs <;> rfl
  all_goals simp_all

theorem readString_escapedChar (c : Char) (cs : List Char) :
    readString (escapedChar c ++ cs) = (readString cs).map fun r => (c.toNat :: r.1, r.2) := by
  unfold escapedChar
  split_ifs with hquote hslash hback hfeed hline hreturn htab hcontrol
  · subst hquote
    exact readString_plainEscape rfl (by decide) cs
  · subst hslash
    exact readString_plainEscape rfl (by decide) cs
  · subst hback
    exact readString_plainEscape rfl (by decide) cs
  · subst hfeed
    exact readString_plainEscape rfl (by decide) cs
  · subst hline
    exact readString_plainEscape rfl (by decide) cs
  · subst hreturn
    exact readString_plainEscape rfl (by decide) cs
  · subst htab
    exact readString_plainEscape rfl (by decide) cs
  · have hdigits := unitOf_fourDigits c.toNat hcontrol
    unfold unitOf at hdigits
    split at hdigits
    · rename_i hfour
      rw [hfour]
      exact readString_unit hdigits cs
    · cases hdigits
  · exact readString_char hquote hslash hcontrol cs

theorem readString_escaped (s : List Char) (rest : List Char) :
    readString (s.flatMap escapedChar ++ '\x22' :: rest) = some (s.map Char.toNat, rest) := by
  induction s with
  | nil => rfl
  | cons c s ih =>
      rw [List.flatMap_cons, List.append_assoc, readString_escapedChar, ih]
      rfl

/-! ### Numbers -/

/-- No numeral in front of the characters goes on into them. -/
def Stops (cs : List Char) : Prop := ∀ c ∈ cs.head?, c.isDigit = false ∧ c ≠ '.' ∧ c ≠ 'e' ∧ c ≠ 'E'

theorem stops_nil : Stops [] := fun _ hc => nomatch hc

theorem readDigits_append {ds rest : List Char} (hds : ∀ d ∈ ds, d.isDigit = true) (hne : ds ≠ []) (hrest : Stops rest) :
    readDigits (ds ++ rest) = some (ds, rest) := by
  have hnone : rest.takeWhile Char.isDigit = [] ∧ rest.dropWhile Char.isDigit = rest := by
    cases rest with
    | nil => exact ⟨rfl, rfl⟩
    | cons c rest =>
        have hc : ¬ c.isDigit = true := Bool.not_eq_true _ ▸ (hrest c rfl).1
        exact ⟨List.takeWhile_cons_of_neg hc, List.dropWhile_cons_of_neg hc⟩
  rw [readDigits, List.takeWhile_append_of_pos hds, List.dropWhile_append_of_pos hds, hnone.1, hnone.2, List.append_nil]
  simp [hne]

theorem readFraction_of_stops {cs : List Char} (h : Stops cs) : readFraction cs = some ([], cs) := by
  unfold readFraction
  split
  · exact absurd rfl (h '.' rfl).2.1
  · rfl

theorem readExponent_of_stops {cs : List Char} (h : Stops cs) : readExponent cs = some ([], cs) := by
  unfold readExponent
  split
  · rename_i e _ _
    have he := (h e rfl).2.2
    simp [he.1, he.2]
  · rename_i e
    have he := (h e rfl).2.2
    simp [he.1, he.2]
  · rfl

theorem head?_toDigits_ne_zero {n : Nat} (hn : 0 < n) : (Nat.toDigits 10 n).head? ≠ some '0' := by
  induction n using Nat.strongRecOn with
  | ind n ih =>
      by_cases hsmall : n < 10
      · have hdigit : ∀ d < 10, 0 < d → d.digitChar ≠ '0' := by decide
        rw [Nat.toDigits_of_lt_base hsmall, List.head?_singleton]
        exact fun h => hdigit n hsmall hn (Option.some.inj h)
      · have hfirst := ih (n / 10) (by omega) (by omega)
        rw [Nat.toDigits_of_base_le (by decide) (Nat.le_of_not_lt hsmall)]
        cases hdigits : Nat.toDigits 10 (n / 10) with
        | nil => exact absurd hdigits Nat.toDigits_ne_nil
        | cons d ds =>
            rw [hdigits] at hfirst
            exact hfirst

/-- A numeral does not begin with a zero that could be left out. -/
theorem not_padded (n : Nat) : ¬ ((Nat.toDigits 10 n).head? = some '0' ∧ 1 < (Nat.toDigits 10 n).length) := by
  rintro ⟨hhead, hlength⟩
  obtain rfl | hn := Nat.eq_zero_or_pos n
  · exact absurd hlength (by decide)
  · exact head?_toDigits_ne_zero hn hhead

theorem isDigit_of_mem_toDigits {n : Nat} {d : Char} (hd : d ∈ Nat.toDigits 10 n) : d.isDigit = true :=
  Nat.isDigit_of_mem_toDigits (by decide) (by decide) hd

theorem readNumber_toDigits (n : Nat) {rest : List Char} (hrest : Stops rest) :
    readNumber (Nat.toDigits 10 n ++ rest) = some (.number n, rest) := by
  have hvalue : decimalValue (Nat.toDigits 10 n) = n := Nat.ofDigitChars_ten_toDigits
  rw [readNumber]
  · have hdigits := readDigits_append (fun d hd => isDigit_of_mem_toDigits hd) (Nat.toDigits_ne_nil (n := n)) hrest
    simp [hdigits, readFraction_of_stops hrest, readExponent_of_stops hrest, not_padded, hvalue]
  · intro cs hminus
    cases hcs : Nat.toDigits 10 n with
    | nil => exact Nat.toDigits_ne_nil hcs
    | cons d ds =>
        have hd : d.isDigit = true := isDigit_of_mem_toDigits (hcs ▸ List.mem_cons_self)
        rw [hcs] at hminus
        cases hminus
        cases hd

theorem isDigit_of_isBlank {c : Char} (h : isBlank c = true) : c.isDigit = false ∧ c ≠ '.' ∧ c ≠ 'e' ∧ c ≠ 'E' := by
  simp only [isBlank, Bool.or_eq_true, beq_iff_eq] at h
  obtain ((rfl | rfl) | rfl) | rfl := h <;> decide

theorem isBlank_of_isDigit {c : Char} (h : c.isDigit = true) : isBlank c = false := by
  apply Bool.eq_false_iff.mpr
  intro hblank
  rw [(isDigit_of_isBlank hblank).1] at h
  cases h

/-! ### Texts -/

/-- The blanks of a text. What stands inside of an array or an object is at a depth: there are blanks in front of the
first part and of the closing bracket, behind a comma, and behind a colon. -/
structure Layout where
  gap : Nat → List Char
  next : Nat → List Char
  colon : List Char

/-- There is nothing but blanks between the parts. -/
structure Layout.Blank (l : Layout) : Prop where
  gap : ∀ depth, ∀ c ∈ l.gap depth, isBlank c = true
  next : ∀ depth, ∀ c ∈ l.next depth, isBlank c = true
  colon : ∀ c ∈ l.colon, isBlank c = true

namespace Layout

/-- A line for each part. -/
def line (depth : Nat) : List Char := '\n' :: List.replicate (2 * depth) ' '

def compact : Layout := ⟨fun _ => [], fun _ => [], []⟩

def pretty : Layout := ⟨line, line, [' ']⟩

theorem isBlank_of_mem_line (depth : Nat) : ∀ c ∈ line depth, isBlank c = true := by
  intro c hc
  obtain rfl | hc := List.mem_cons.mp hc
  · rfl
  · rw [List.eq_of_mem_replicate hc]
    rfl

theorem blank_compact : compact.Blank where
  gap _ _ hc := nomatch hc
  next _ _ hc := nomatch hc
  colon _ hc := nomatch hc

theorem blank_pretty : pretty.Blank where
  gap := isBlank_of_mem_line
  next := isBlank_of_mem_line
  colon c hc := by
    rw [List.mem_singleton.mp hc]
    rfl

end Layout

def spelledText (s : String) : List Char := '\x22' :: (s.toList.flatMap escapedChar ++ ['\x22'])

mutual

/-- The characters of a value at a depth. -/
def spelled (l : Layout) (depth : Nat) : Json → List Char
  | .null => ['n', 'u', 'l', 'l']
  | .bool true => ['t', 'r', 'u', 'e']
  | .bool false => ['f', 'a', 'l', 's', 'e']
  | .number n => Nat.toDigits 10 n
  | .verbatim written => written.toList
  | .text s => spelledText s
  | .array [] => ['[', ']']
  | .array (j :: js) => '[' :: (l.gap (depth + 1) ++ (spelled l (depth + 1) j ++ spelledElements l depth js))
  | .object [] => ['\x7b', '\x7d']
  | .object ((name, j) :: ms) =>
      '\x7b' :: (l.gap (depth + 1) ++
        (spelledText name ++ ':' :: (l.colon ++ (spelled l (depth + 1) j ++ spelledMembers l depth ms))))

/-- What follows an element of an array. -/
def spelledElements (l : Layout) (depth : Nat) : List Json → List Char
  | [] => l.gap depth ++ [']']
  | j :: js => ',' :: (l.next (depth + 1) ++ (spelled l (depth + 1) j ++ spelledElements l depth js))

/-- What follows a member of an object. -/
def spelledMembers (l : Layout) (depth : Nat) : List (String × Json) → List Char
  | [] => l.gap depth ++ ['\x7d']
  | (name, j) :: ms =>
      ',' :: (l.next (depth + 1) ++
        (spelledText name ++ ':' :: (l.colon ++ (spelled l (depth + 1) j ++ spelledMembers l depth ms))))

end

mutual

/-- Nothing was kept as it had been written. -/
def IsPlain : Json → Prop
  | .null | .bool _ | .number _ | .text _ => True
  | .verbatim _ => False
  | .array elements => ArePlain elements
  | .object members => ArePlainMembers members

def ArePlain : List Json → Prop
  | [] => True
  | j :: js => j.IsPlain ∧ ArePlain js

def ArePlainMembers : List (String × Json) → Prop
  | [] => True
  | (_, j) :: ms => j.IsPlain ∧ ArePlainMembers ms

end

theorem arePlain_map {α : Type} {f : α → Json} (h : ∀ x, (f x).IsPlain) (xs : List α) : ArePlain (xs.map f) := by
  induction xs with
  | nil => trivial
  | cons x xs ih => exact ⟨h x, ih⟩

variable {l : Layout} {depth fuel : Nat} {blanks rest : List Char}

/-- A value begins with a character that is no blank and closes nothing. -/
theorem exists_spelled_cons (j : Json) (hj : j.IsPlain) (l : Layout) (depth : Nat) :
    ∃ c cs, spelled l depth j = c :: cs ∧ isBlank c = false ∧ c ≠ ']' ∧ c ≠ '\x7d' := by
  match j with
  | .null | .bool true | .bool false | .text _ | .array [] | .array (_ :: _) | .object [] | .object (_ :: _) =>
      exact ⟨_, _, rfl, by decide, by decide, by decide⟩
  | .number n =>
      cases hdigits : Nat.toDigits 10 n with
      | nil => exact absurd hdigits Nat.toDigits_ne_nil
      | cons d ds =>
          have hd : d.isDigit = true := isDigit_of_mem_toDigits (hdigits ▸ List.mem_cons_self)
          have hne {c : Char} (hc : c.isDigit = false) : d ≠ c := by
            rintro rfl
            rw [hc] at hd
            cases hd
          exact ⟨d, ds, by rw [spelled, hdigits], isBlank_of_isDigit hd, hne (by decide), hne (by decide)⟩

/-- Behind a value no numeral goes on. -/
theorem stops_of_cons {c : Char} (hdigit : c.isDigit = false) (hne : c ≠ '.' ∧ c ≠ 'e' ∧ c ≠ 'E') (cs : List Char) :
    Stops (c :: cs) := by
  intro d hd
  cases hd
  exact ⟨hdigit, hne⟩

theorem stops_append (hblanks : ∀ c ∈ blanks, isBlank c = true) (hrest : Stops rest) : Stops (blanks ++ rest) := by
  cases blanks with
  | nil => exact hrest
  | cons c blanks =>
      obtain ⟨hdigit, hne⟩ := isDigit_of_isBlank (hblanks c List.mem_cons_self)
      exact stops_of_cons hdigit hne _

theorem stops_spelledElements (hl : l.Blank) (js : List Json) (depth : Nat) (rest : List Char) :
    Stops (spelledElements l depth js ++ rest) := by
  cases js with
  | nil =>
      rw [spelledElements, List.append_assoc]
      exact stops_append (hl.gap depth) (stops_of_cons (by decide) (by decide) _)
  | cons j js => exact stops_of_cons (by decide) (by decide) _

theorem stops_spelledMembers (hl : l.Blank) (ms : List (String × Json)) (depth : Nat) (rest : List Char) :
    Stops (spelledMembers l depth ms ++ rest) := by
  cases ms with
  | nil =>
      rw [spelledMembers, List.append_assoc]
      exact stops_append (hl.gap depth) (stops_of_cons (by decide) (by decide) _)
  | cons m ms => exact stops_of_cons (by decide) (by decide) _

theorem readValue_digit {c : Char} (hc : c.isDigit = true) (fuel : Nat) (cs : List Char) :
    readValue (fuel + 1) (c :: cs) = readNumber (c :: cs) := by
  rw [readValue, skipBlanks_cons (isBlank_of_isDigit hc)]
  split
  case h_7 => rfl
  all_goals
    rename_i heq
    cases heq
    cases hc

theorem readString_spelledText (s : String) (rest : List Char) :
    ∃ cs, spelledText s ++ rest = '\x22' :: cs ∧ readString cs = some (CodePoint.ofString s, rest) := by
  refine ⟨s.toList.flatMap escapedChar ++ '\x22' :: rest, ?_, readString_escaped s.toList rest⟩
  simp [spelledText]

/-! ### Reading -/

theorem readValue_congr {cs cs' : List Char} (h : skipBlanks cs = skipBlanks cs') (fuel : Nat) :
    readValue fuel cs = readValue fuel cs' := by
  cases fuel with
  | zero => rw [readValue, readValue]
  | succ fuel => rw [readValue, readValue, h]

theorem readValue_null (fuel : Nat) (rest : List Char) :
    readValue (fuel + 1) ('n' :: 'u' :: 'l' :: 'l' :: rest) = some (.null, rest) := rfl

theorem readValue_true (fuel : Nat) (rest : List Char) :
    readValue (fuel + 1) ('t' :: 'r' :: 'u' :: 'e' :: rest) = some (.bool true, rest) := rfl

theorem readValue_false (fuel : Nat) (rest : List Char) :
    readValue (fuel + 1) ('f' :: 'a' :: 'l' :: 's' :: 'e' :: rest) = some (.bool false, rest) := rfl

theorem readValue_emptyArray (fuel : Nat) (rest : List Char) :
    readValue (fuel + 1) ('[' :: ']' :: rest) = some (.array [], rest) := rfl

theorem readValue_emptyObject (fuel : Nat) (rest : List Char) :
    readValue (fuel + 1) ('\x7b' :: '\x7d' :: rest) = some (.object [], rest) := rfl

theorem readValue_text {cs : List Char} {s : String} (h : readString cs = some (CodePoint.ofString s, rest)) :
    readValue (fuel + 1) ('\x22' :: cs) = some (.text s, rest) := by
  rw [readValue, skipBlanks_cons (by decide)]
  simp [h, text?_ofString]

/-- The elements of an array are read behind its bracket, unless the next one closes it. -/
theorem readValue_array {c : Char} {cs inside : List Char} {js : List Json} (hskip : skipBlanks inside = c :: cs)
    (hc : c ≠ ']') (h : readElements fuel (c :: cs) = some (js, rest)) :
    readValue (fuel + 1) ('[' :: inside) = some (.array js, rest) := by
  rw [readValue, skipBlanks_cons (by decide)]
  simp [hskip, hc, h]

theorem readValue_object {c : Char} {cs inside : List Char} {ms : List (String × Json)}
    (hskip : skipBlanks inside = c :: cs) (hc : c ≠ '\x7d')
    (h : readMembers fuel (c :: cs) = some (ms.map (fun m => (CodePoint.ofString m.1, m.2)), rest)) :
    readValue (fuel + 1) ('\x7b' :: inside) = some (.object ms, rest) := by
  have hnames : (ms.map fun m => (CodePoint.ofString m.1, m.2)).mapM
      (fun m : List CodePoint × Json => (text? m.1).map fun name => (name, m.2)) = some ms := by
    refine mapM_map_eq_some fun m _ => ?_
    rw [text?_ofString]
    rfl
  rw [readValue, skipBlanks_cons (by decide)]
  simp [hskip, hc, h, hnames]

/-- Behind an element the array is closed, or a comma is followed by more of them. -/
theorem readElements_last {j : Json} {cs tail : List Char} (h : readValue fuel cs = some (j, tail))
    (hskip : skipBlanks tail = ']' :: rest) : readElements (fuel + 1) cs = some ([j], rest) := by
  rw [readElements, h]
  simp [hskip]

theorem readElements_more {j : Json} {js : List Json} {cs tail more : List Char}
    (h : readValue fuel cs = some (j, tail)) (hskip : skipBlanks tail = ',' :: more)
    (hmore : readElements fuel more = some (js, rest)) : readElements (fuel + 1) cs = some (j :: js, rest) := by
  rw [readElements, h]
  simp [hskip, hmore]

theorem readMembers_last {name : List CodePoint} {j : Json} {cs inside colon value tail : List Char}
    (hskip : skipBlanks cs = '\x22' :: inside) (hname : readString inside = some (name, colon))
    (hcolon : skipBlanks colon = ':' :: value) (h : readValue fuel value = some (j, tail))
    (htail : skipBlanks tail = '\x7d' :: rest) : readMembers (fuel + 1) cs = some ([(name, j)], rest) := by
  rw [readMembers, hskip]
  simp [hname, hcolon, h, htail]

theorem readMembers_more {name : List CodePoint} {j : Json} {ms : List (List CodePoint × Json)}
    {cs inside colon value tail more : List Char} (hskip : skipBlanks cs = '\x22' :: inside)
    (hname : readString inside = some (name, colon)) (hcolon : skipBlanks colon = ':' :: value)
    (h : readValue fuel value = some (j, tail)) (htail : skipBlanks tail = ',' :: more)
    (hmore : readMembers fuel more = some (ms, rest)) : readMembers (fuel + 1) cs = some ((name, j) :: ms, rest) := by
  rw [readMembers, hskip]
  simp [hname, hcolon, h, htail, hmore]

/-- A closing bracket is what follows the last element, behind blanks. -/
theorem skipBlanks_gap (hl : l.Blank) (depth : Nat) {c : Char} (hc : isBlank c = false) (rest : List Char) :
    skipBlanks ((l.gap depth ++ [c]) ++ rest) = c :: rest := by
  rw [List.append_assoc, skipBlanks_append (hl.gap depth)]
  exact skipBlanks_cons hc rest

theorem skipBlanks_spelledElements (j : Json) (js : List Json) (depth : Nat) (rest : List Char) :
    skipBlanks (spelledElements l depth (j :: js) ++ rest) =
      ',' :: (l.next (depth + 1) ++ (spelled l (depth + 1) j ++ (spelledElements l depth js ++ rest))) := by
  simp only [spelledElements, List.cons_append, List.append_assoc]
  exact skipBlanks_cons (by decide) _

theorem skipBlanks_spelledMembers (name : String) (j : Json) (ms : List (String × Json)) (depth : Nat)
    (rest : List Char) :
    skipBlanks (spelledMembers l depth ((name, j) :: ms) ++ rest) =
      ',' :: (l.next (depth + 1) ++ (spelledText name ++
        ':' :: (l.colon ++ (spelled l (depth + 1) j ++ (spelledMembers l depth ms ++ rest))))) := by
  simp only [spelledMembers, List.cons_append, List.append_assoc]
  exact skipBlanks_cons (by decide) _

/-- With so much fuel whatever is short enough is read back, blanks in front of it or not. -/
structure Reads (l : Layout) (fuel : Nat) : Prop where
  value : ∀ (j : Json) (depth : Nat) (blanks rest : List Char), j.IsPlain → 2 * (spelled l depth j).length ≤ fuel →
    (∀ c ∈ blanks, isBlank c = true) → Stops rest →
    readValue fuel (blanks ++ (spelled l depth j ++ rest)) = some (j, rest)
  elements : ∀ (j : Json) (js : List Json) (depth : Nat) (blanks rest : List Char), j.IsPlain → ArePlain js →
    2 * ((spelled l (depth + 1) j).length + (spelledElements l depth js).length) ≤ fuel →
    (∀ c ∈ blanks, isBlank c = true) →
    readElements fuel (blanks ++ (spelled l (depth + 1) j ++ (spelledElements l depth js ++ rest))) =
      some (j :: js, rest)
  members : ∀ (name : String) (j : Json) (ms : List (String × Json)) (depth : Nat) (blanks rest : List Char),
    j.IsPlain → ArePlainMembers ms →
    2 * ((spelled l (depth + 1) j).length + (spelledMembers l depth ms).length) ≤ fuel →
    (∀ c ∈ blanks, isBlank c = true) →
    readMembers fuel (blanks ++ (spelledText name ++
        ':' :: (l.colon ++ (spelled l (depth + 1) j ++ (spelledMembers l depth ms ++ rest))))) =
      some (((name, j) :: ms).map (fun m => (CodePoint.ofString m.1, m.2)), rest)

namespace Reads

theorem value_succ (h : Reads l fuel) (hl : l.Blank) (j : Json) (depth : Nat) (hj : j.IsPlain)
    (hfuel : 2 * (spelled l depth j).length ≤ fuel + 1) (hrest : Stops rest) :
    readValue (fuel + 1) (spelled l depth j ++ rest) = some (j, rest) := by
  match j with
  | .null => exact readValue_null fuel rest
  | .bool true => exact readValue_true fuel rest
  | .bool false => exact readValue_false fuel rest
  | .number n =>
      obtain ⟨d, ds, hdigits⟩ := List.exists_cons_of_ne_nil (Nat.toDigits_ne_nil (n := n) (b := 10))
      have hd : d.isDigit = true := isDigit_of_mem_toDigits (hdigits ▸ List.mem_cons_self)
      rw [spelled, hdigits, List.cons_append, readValue_digit hd, ← List.cons_append, ← hdigits]
      exact readNumber_toDigits n hrest
  | .text s =>
      obtain ⟨cs, hcs, hread⟩ := readString_spelledText s rest
      rw [spelled, hcs]
      exact readValue_text hread
  | .array [] => exact readValue_emptyArray fuel rest
  | .array (j :: js) =>
      obtain ⟨hplain, hplains⟩ := hj
      obtain ⟨d, ds, hfirst, hblank, hd, -⟩ := exists_spelled_cons j hplain l (depth + 1)
      simp only [spelled, List.length_cons, List.length_append] at hfuel
      have hinside := h.elements j js depth [] rest hplain hplains (by omega) (List.forall_mem_nil _)
      simp only [spelled, List.cons_append, List.append_assoc, List.nil_append, hfirst] at hinside ⊢
      refine readValue_array ?_ hd hinside
      rw [skipBlanks_append (hl.gap (depth + 1))]
      exact skipBlanks_cons hblank _
  | .object [] => exact readValue_emptyObject fuel rest
  | .object ((name, j) :: ms) =>
      obtain ⟨hplain, hplains⟩ := hj
      simp only [spelled, List.length_cons, List.length_append] at hfuel
      have hinside := h.members name j ms depth [] rest hplain hplains (by omega) (List.forall_mem_nil _)
      simp only [spelled, spelledText, List.cons_append, List.append_assoc, List.nil_append] at hinside ⊢
      refine readValue_object ?_ (by decide) hinside
      rw [skipBlanks_append (hl.gap (depth + 1))]
      exact skipBlanks_cons (by decide) _

theorem elements_succ (h : Reads l fuel) (hl : l.Blank) (j : Json) (js : List Json) (depth : Nat) (hj : j.IsPlain)
    (hjs : ArePlain js)
    (hfuel : 2 * ((spelled l (depth + 1) j).length + (spelledElements l depth js).length) ≤ fuel + 1)
    (hblanks : ∀ c ∈ blanks, isBlank c = true) (rest : List Char) :
    readElements (fuel + 1) (blanks ++ (spelled l (depth + 1) j ++ (spelledElements l depth js ++ rest))) =
      some (j :: js, rest) := by
  have hpos : 0 < (spelledElements l depth js).length := by
    cases js <;> simp [spelledElements]
  have hfirst := h.value j (depth + 1) blanks _ hj (by omega) hblanks (stops_spelledElements hl js depth rest)
  cases js with
  | nil => exact readElements_last hfirst (skipBlanks_gap hl depth (by decide) rest)
  | cons j' js =>
      obtain ⟨hplain, hplains⟩ := hjs
      simp only [spelledElements, List.length_cons, List.length_append] at hfuel
      exact readElements_more hfirst (skipBlanks_spelledElements j' js depth rest)
        (h.elements j' js depth _ rest hplain hplains (by omega) (hl.next (depth + 1)))

theorem members_succ (h : Reads l fuel) (hl : l.Blank) (name : String) (j : Json) (ms : List (String × Json))
    (depth : Nat) (hj : j.IsPlain) (hms : ArePlainMembers ms)
    (hfuel : 2 * ((spelled l (depth + 1) j).length + (spelledMembers l depth ms).length) ≤ fuel + 1)
    (hblanks : ∀ c ∈ blanks, isBlank c = true) (rest : List Char) :
    readMembers (fuel + 1) (blanks ++ (spelledText name ++
        ':' :: (l.colon ++ (spelled l (depth + 1) j ++ (spelledMembers l depth ms ++ rest))))) =
      some (((name, j) :: ms).map (fun m => (CodePoint.ofString m.1, m.2)), rest) := by
  have hpos : 0 < (spelledMembers l depth ms).length := by
    cases ms <;> simp [spelledMembers]
  have hvalue := h.value j (depth + 1) l.colon _ hj (by omega) hl.colon (stops_spelledMembers hl ms depth rest)
  obtain ⟨cs, hcs, hname⟩ := readString_spelledText name (':' :: (l.colon ++ (spelled l (depth + 1) j ++
    (spelledMembers l depth ms ++ rest))))
  have hskip : skipBlanks (blanks ++ '\x22' :: cs) = '\x22' :: cs := by
    rw [skipBlanks_append hblanks]
    exact skipBlanks_cons (by decide) cs
  rw [hcs]
  cases ms with
  | nil =>
      exact readMembers_last hskip hname (skipBlanks_cons (by decide) _) hvalue
        (skipBlanks_gap hl depth (by decide) rest)
  | cons m ms =>
      obtain ⟨hplain, hplains⟩ := hms
      simp only [spelledMembers, List.length_cons, List.length_append] at hfuel
      exact readMembers_more hskip hname (skipBlanks_cons (by decide) _) hvalue
        (skipBlanks_spelledMembers m.1 m.2 ms depth rest)
        (h.members m.1 m.2 ms depth _ rest hplain hplains (by omega) (hl.next (depth + 1)))

end Reads

theorem reads (hl : l.Blank) (fuel : Nat) : Reads l fuel := by
  induction fuel with
  | zero =>
      have hpos (j : Json) (hj : j.IsPlain) (depth : Nat) : 0 < (spelled l depth j).length := by
        obtain ⟨c, cs, hcons, -⟩ := exists_spelled_cons j hj l depth
        rw [hcons]
        exact Nat.succ_pos _
      refine ⟨fun j depth _ _ hj hfuel => ?_, fun j _ depth _ _ hj _ hfuel => ?_, fun _ j _ depth _ _ hj _ hfuel => ?_⟩
      · have := hpos j hj depth
        omega
      · have := hpos j hj (depth + 1)
        omega
      · have := hpos j hj (depth + 1)
        omega
  | succ fuel ih =>
      refine ⟨fun j depth blanks rest hj hfuel hblanks hrest => ?_, fun j js depth _ rest hj hjs hfuel hblanks =>
        ih.elements_succ hl j js depth hj hjs hfuel hblanks rest, fun name j ms depth _ rest hj hms hfuel hblanks =>
        ih.members_succ hl name j ms depth hj hms hfuel hblanks rest⟩
      rw [readValue_congr (skipBlanks_append hblanks _)]
      exact ih.value_succ hl j depth hj hfuel hrest

/-- A value is read back from its characters in any layout. -/
theorem read?_spelled (hl : l.Blank) {j : Json} (hj : j.IsPlain) (depth : Nat) {s : String}
    (hs : s.toList = spelled l depth j) : read? s = some j := by
  have hfuel : 2 * (spelled l depth j).length ≤ 2 * s.length + 2 := by
    rw [← hs, String.length_toList]
    omega
  have hread := (reads hl _).value j depth [] [] hj hfuel (List.forall_mem_nil _) stops_nil
  rw [List.nil_append, List.append_nil, ← hs] at hread
  rw [read?, hread]
  rfl

/-! ### Both texts -/

theorem toList_quoted (s : String) : (quoted s).toList = spelledText s := String.toList_ofList

theorem toList_newline (depth : Nat) : (newline depth).toList = Layout.line depth := by
  simp [newline, Layout.line]

theorem intercalate_comma (cs : List Char) (texts : List String) :
    [','].intercalate (cs :: texts.map String.toList) = cs ++ texts.flatMap fun t => ',' :: t.toList := by
  induction texts generalizing cs with
  | nil => simp
  | cons t texts ih => simp [List.intercalate_cons_cons, ih]

mutual

theorem toList_compact (depth : Nat) : (j : Json) → j.compact.toList = spelled .compact depth j
  | .null | .bool true | .bool false | .array [] | .object [] => rfl
  | .number n => String.toList_ofList
  | .verbatim _ => rfl
  | .text s => toList_quoted s
  | .array (j :: js) => by
      rw [compact, compactElements, spelled, ← toList_compact (depth + 1) j, ← toList_compactElements depth js]
      simp [intercalate_comma, Layout.compact]
  | .object ((name, j) :: ms) => by
      rw [compact, compactMembers, spelled, ← toList_compact (depth + 1) j, ← toList_compactMembers depth ms]
      simp [intercalate_comma, toList_quoted, Layout.compact]

theorem toList_compactElements (depth : Nat) : (js : List Json) →
    ((compactElements js).flatMap fun t => ',' :: t.toList) ++ [']'] = spelledElements .compact depth js
  | [] => rfl
  | j :: js => by
      rw [compactElements, spelledElements, ← toList_compact (depth + 1) j, ← toList_compactElements depth js]
      simp [Layout.compact]

theorem toList_compactMembers (depth : Nat) : (ms : List (String × Json)) →
    ((compactMembers ms).flatMap fun t => ',' :: t.toList) ++ ['\x7d'] = spelledMembers .compact depth ms
  | [] => rfl
  | (name, j) :: ms => by
      rw [compactMembers, spelledMembers, ← toList_compact (depth + 1) j, ← toList_compactMembers depth ms]
      simp [toList_quoted, Layout.compact]

end

mutual

theorem toList_prettyAt (depth : Nat) : (j : Json) → (prettyAt depth j).toList = spelled .pretty depth j
  | .null | .bool true | .bool false | .verbatim _ | .array [] | .object [] => by simp [prettyAt, spelled]
  | .number n => by simp [prettyAt, spelled]
  | .text s => by simp [prettyAt, spelled, toList_quoted]
  | .array (j :: js) => by
      rw [spelled, ← toList_prettyAt (depth + 1) j, ← toList_prettyElements depth js]
      simp [prettyAt, prettyElements, intercalate_comma, toList_newline, Layout.pretty]
  | .object ((name, j) :: ms) => by
      rw [spelled, ← toList_prettyAt (depth + 1) j, ← toList_prettyMembers depth ms]
      simp [prettyAt, prettyMembers, intercalate_comma, toList_quoted, toList_newline, Layout.pretty]

theorem toList_prettyElements (depth : Nat) : (js : List Json) →
    ((prettyElements (depth + 1) js).flatMap fun t => ',' :: t.toList) ++ (Layout.pretty.gap depth ++ [']']) =
      spelledElements .pretty depth js
  | [] => rfl
  | j :: js => by
      rw [spelledElements, ← toList_prettyAt (depth + 1) j, ← toList_prettyElements depth js]
      simp [prettyElements, toList_newline, Layout.pretty]

theorem toList_prettyMembers (depth : Nat) : (ms : List (String × Json)) →
    ((prettyMembers (depth + 1) ms).flatMap fun t => ',' :: t.toList) ++ (Layout.pretty.gap depth ++ ['\x7d']) =
      spelledMembers .pretty depth ms
  | [] => rfl
  | (name, j) :: ms => by
      rw [spelledMembers, ← toList_prettyAt (depth + 1) j, ← toList_prettyMembers depth ms]
      simp [prettyMembers, toList_quoted, toList_newline, Layout.pretty]

end

/-- Both texts of a value are read back as the value. -/
theorem read?_compact {j : Json} (hj : j.IsPlain) : read? j.compact = some j :=
  read?_spelled Layout.blank_compact hj 0 (toList_compact 0 j)

theorem read?_pretty {j : Json} (hj : j.IsPlain) : read? j.pretty = some j :=
  read?_spelled Layout.blank_pretty hj 0 (toList_prettyAt 0 j)

end Transducer.Json
