import Mathlib.Data.List.Induction
import Transducer.Literal.Escape

/-!
# The grammar of literals

A literal is a row of items: a character that stands for itself, a backslash with the character behind it, or a numeral
in brackets. The grammar is given here apart from the reader, which goes through a text character by character. The
reader takes items off the front of a text one by one; a text that starts with no item starts with a malformed one, and
that one is reported. So every text is either a row of items, and then the reader returns their values, or it has a
leftmost malformed item behind such a row, and then the reader tells what is wrong with it and where it stands.
-/

namespace Transducer.Literal

/-! ### Numerals -/

/-- The characters that stand for the numbers below sixteen. -/
def StandsFor (c : Char) (v : Nat) : Prop :=
  "0123456789abcdef".toList[v]? = some c ∨ "0123456789ABCDEF".toList[v]? = some c

/-- One or more digits of a base, and the number that they make up. -/
inductive Digits (b : Base) : List Char → Nat → Prop where
  | single {c : Char} {v : Nat} (hc : StandsFor c v) (hv : v < b.radix) : Digits b [c] v
  | concat {ds : List Char} {n : Nat} {c : Char} {v : Nat} (hds : Digits b ds n) (hc : StandsFor c v)
      (hv : v < b.radix) : Digits b (ds ++ [c]) (b.radix * n + v)

/-- What may stand between brackets, and the number that it means. -/
inductive Numeral : List Char → Nat → Prop where
  | lowerHex {ds : List Char} {n : Nat} (h : Digits .hexadecimal ds n) : Numeral ('0' :: 'x' :: ds) n
  | upperHex {ds : List Char} {n : Nat} (h : Digits .hexadecimal ds n) : Numeral ('0' :: 'X' :: ds) n
  | zero : Numeral ['0'] 0
  | octal {ds : List Char} {n : Nat} (h : Digits .octal ds n) : Numeral ('0' :: ds) n
  | decimal {ds : List Char} {n : Nat} (h : Digits .decimal ds n) (hfirst : ds.head? ≠ some '0') : Numeral ds n

/-- The base that the first characters between brackets announce. -/
def announcedBase (ds : List Char) : Base :=
  if ['0', 'x'] <+: ds ∨ ['0', 'X'] <+: ds then .hexadecimal
  else if ds.head? = some '0' ∧ ds ≠ ['0'] then .octal
  else .decimal

/-! ### Items -/

/-- An item of a literal and its value. -/
inductive Item : List Char → CodePoint → Prop where
  | plain {c : Char} (hbackslash : c ≠ '\\') (hbracket : c ≠ '[') : Item [c] c.toNat
  | escaped (c : Char) : Item ['\\', c] c.toNat
  | numeric {ds : List Char} {n : Nat} (hopen : ']' ∉ ds) (hds : Numeral ds n) (hn : n ≤ 0x10FFFF) :
      Item ('[' :: ds ++ [']']) n

/-- A row of items and their values. -/
inductive Spells : List Char → List CodePoint → Prop where
  | nil : Spells [] []
  | cons {item rest : List Char} {v : CodePoint} {vs : List CodePoint} (hitem : Item item v)
      (hrest : Spells rest vs) : Spells (item ++ rest) (v :: vs)

/-- What is no item though it starts like one, with what stands behind it and what is wrong with it. -/
inductive Malformed : List Char → List Char → EscapeFault → Prop where
  | dangling : Malformed ['\\'] [] .dangling
  | unterminated {ds : List Char} (hopen : ']' ∉ ds) : Malformed ('[' :: ds) [] .unterminated
  | empty {back : List Char} : Malformed ['[', ']'] back .empty
  | invalidDigit {ds back : List Char} (hopen : ']' ∉ ds) (hne : ds ≠ []) (hds : ∀ n, ¬ Numeral ds n) :
      Malformed ('[' :: ds ++ [']']) back (.invalidDigit (announcedBase ds))
  | outOfRange {ds back : List Char} {n : Nat} (hopen : ']' ∉ ds) (hds : Numeral ds n) (hn : 0x10FFFF < n) :
      Malformed ('[' :: ds ++ [']']) back .outOfRange

/-! ### Reading numerals -/

variable {b : Base} {c : Char} {v n : Nat} {ds : List Char}

theorem toNat_lt_of_digitValue? (h : digitValue? c = some v) : c.toNat < 123 := by
  have hle {d : Char} (hc : c ≤ d) (hd : d.toNat < 123) : c.toNat < 123 := Nat.lt_of_le_of_lt hc hd
  unfold digitValue? at h
  split at h
  · rename_i hc
    exact hle hc.2 (by decide)
  · split at h
    · rename_i hc
      exact hle hc.2 (by decide)
    · split at h
      · rename_i hc
        exact hle hc.2 (by decide)
      · cases h

theorem standsFor_iff : StandsFor c v ↔ digitValue? c = some v ∧ v < 16 := by
  constructor
  · have hlower : ∀ v : Fin 16, digitValue? ("0123456789abcdef".toList.get v) = some v.val := by decide
    have hupper : ∀ v : Fin 16, digitValue? ("0123456789ABCDEF".toList.get v) = some v.val := by decide
    rintro (h | h)
    · obtain ⟨hlt, rfl⟩ := List.getElem?_eq_some_iff.mp h
      exact ⟨hlower ⟨v, hlt⟩, hlt⟩
    · obtain ⟨hlt, rfl⟩ := List.getElem?_eq_some_iff.mp h
      exact ⟨hupper ⟨v, hlt⟩, hlt⟩
  · rintro ⟨h, hv⟩
    have hall : ∀ n < 123, ∀ v ∈ digitValue? (Char.ofNat n), v < 16 → StandsFor (Char.ofNat n) v := by
      unfold StandsFor
      decide
    have hc := hall c.toNat (toNat_lt_of_digitValue? h) v
    rw [Char.ofNat_toNat] at hc
    exact hc h hv

theorem radix_le (b : Base) : b.radix ≤ 16 := by
  cases b <;> decide

theorem standsFor_and_lt_iff : StandsFor c v ∧ v < b.radix ↔ b.accepts c = true ∧ (digitValue? c).getD 0 = v := by
  rw [standsFor_iff, Base.accepts]
  cases hc : digitValue? c with
  | none => simp
  | some d =>
      have hradix := radix_le b
      simp only [Option.some.injEq, Option.getD_some, decide_eq_true_eq]
      constructor
      · rintro ⟨⟨rfl, -⟩, hlt⟩
        exact ⟨hlt, rfl⟩
      · rintro ⟨hlt, rfl⟩
        exact ⟨⟨rfl, Nat.lt_of_lt_of_le hlt hradix⟩, hlt⟩

theorem value_concat (b : Base) (ds : List Char) (c : Char) :
    b.value (ds ++ [c]) = b.radix * b.value ds + (digitValue? c).getD 0 := by
  rw [Base.value, List.foldl_append]
  rfl

theorem digits_iff : Digits b ds n ↔ ds ≠ [] ∧ ds.all b.accepts = true ∧ b.value ds = n := by
  constructor
  · intro h
    induction h with
    | single hc hv =>
        obtain ⟨haccepts, hvalue⟩ := standsFor_and_lt_iff.mp ⟨hc, hv⟩
        refine ⟨List.cons_ne_nil _ _, ?_, ?_⟩
        · rw [List.all_cons, haccepts]
          rfl
        · exact (value_concat b [] _).trans (by rw [hvalue]; exact Nat.zero_add _)
    | concat hds hc hv ih =>
        obtain ⟨-, hall, rfl⟩ := ih
        obtain ⟨haccepts, hvalue⟩ := standsFor_and_lt_iff.mp ⟨hc, hv⟩
        refine ⟨List.concat_ne_nil _ _, ?_, ?_⟩
        · rw [List.all_append, hall, List.all_cons, haccepts]
          rfl
        · rw [value_concat, hvalue]
  · rintro ⟨hne, hall, rfl⟩
    induction ds using List.reverseRecOn with
    | nil => exact absurd rfl hne
    | append_singleton ds c ih =>
        rw [List.all_append, Bool.and_eq_true, List.all_cons, List.all_nil, Bool.and_true] at hall
        obtain ⟨hc, hv⟩ := standsFor_and_lt_iff.mpr ⟨hall.2, rfl⟩
        rw [value_concat]
        by_cases hds : ds = []
        · subst hds
          exact (Nat.zero_add _).symm ▸ Digits.single hc hv
        · exact .concat (ih hds hall.1) hc hv

theorem selectBase_of_octal (h : Digits .octal ds n) : selectBase ('0' :: ds) = (.octal, ds) := by
  obtain ⟨hne, hall, -⟩ := digits_iff.mp h
  unfold selectBase
  split
  · rename_i heq
    cases heq
    cases hall
  · rename_i heq
    cases heq
    cases hall
  · rename_i heq
    exact absurd (List.cons.inj heq).2 hne
  · rename_i heq
    rw [(List.cons.inj heq).2]
  · rename_i hother
    exact absurd rfl (hother ds)

theorem selectBase_of_decimal (hfirst : ds.head? ≠ some '0') : selectBase ds = (.decimal, ds) := by
  unfold selectBase
  split
  · exact absurd rfl hfirst
  · exact absurd rfl hfirst
  · exact absurd rfl hfirst
  · exact absurd rfl hfirst
  · rfl

/-- The reader selects the base of the form that a numeral has. -/
theorem numeral_iff : Numeral ds n ↔ Digits (selectBase ds).1 (selectBase ds).2 n := by
  have hzero : StandsFor '0' 0 := .inl rfl
  constructor
  · intro h
    cases h with
    | lowerHex h => exact h
    | upperHex h => exact h
    | zero => exact .single hzero (by decide)
    | octal h =>
        rw [selectBase_of_octal h]
        exact h
    | decimal h hfirst =>
        rw [selectBase_of_decimal hfirst]
        exact h
  · intro h
    unfold selectBase at h
    split at h
    · exact .lowerHex h
    · exact .upperHex h
    · obtain ⟨-, -, rfl⟩ := digits_iff.mp h
      exact .zero
    · exact .octal h
    · rename_i hother
      refine .decimal h fun hfirst => ?_
      obtain ⟨rest, rfl⟩ := List.head?_eq_some_iff.mp hfirst
      exact hother rest rfl

theorem announcedBase_eq (ds : List Char) : announcedBase ds = (selectBase ds).1 := by
  unfold selectBase
  split
  · exact if_pos (.inl ⟨_, rfl⟩)
  · exact if_pos (.inr ⟨_, rfl⟩)
  · decide
  · rename_i body hlower hupper hzero
    rw [announcedBase, if_neg, if_pos]
    · exact ⟨rfl, fun heq => hzero (List.cons.inj heq).2⟩
    · rintro (⟨rest, heq⟩ | ⟨rest, heq⟩)
      · exact hlower rest (List.cons.inj heq).2.symm
      · exact hupper rest (List.cons.inj heq).2.symm
  · rename_i hother
    rw [announcedBase, if_neg, if_neg]
    · rintro ⟨hfirst, -⟩
      obtain ⟨rest, rfl⟩ := List.head?_eq_some_iff.mp hfirst
      exact hother rest rfl
    · rintro (⟨rest, rfl⟩ | ⟨rest, rfl⟩)
      · exact hother _ rfl
      · exact hother _ rfl

theorem Numeral.ne_nil (h : Numeral ds n) : ds ≠ [] := by
  cases h with
  | decimal h _ => exact (digits_iff.mp h).1
  | _ => exact List.cons_ne_nil _ _

theorem numericEscape_of_numeral (h : Numeral ds n) :
    numericEscape ds = if n ≤ 0x10FFFF then .ok n else .error .outOfRange := by
  obtain ⟨hne, hall, rfl⟩ := digits_iff.mp (numeral_iff.mp h)
  rw [numericEscape, List.isEmpty_eq_false_iff.mpr h.ne_nil]
  simp only [List.isEmpty_eq_false_iff.mpr hne, hall]
  rfl

theorem numericEscape_of_not_numeral (hne : ds ≠ []) (h : ∀ n, ¬ Numeral ds n) :
    numericEscape ds = .error (.invalidDigit (announcedBase ds)) := by
  have hinvalid : ((selectBase ds).2.isEmpty || !(selectBase ds).2.all (selectBase ds).1.accepts) = true := by
    rw [← Bool.not_eq_false]
    intro hvalid
    rw [Bool.or_eq_false_iff, List.isEmpty_eq_false_iff, Bool.not_eq_false'] at hvalid
    exact h _ (numeral_iff.mpr (digits_iff.mpr ⟨hvalid.1, hvalid.2, rfl⟩))
  rw [numericEscape, List.isEmpty_eq_false_iff.mpr hne, announcedBase_eq]
  simp only [hinvalid]
  rfl

/-! ### Reading items -/

/-- The number of bytes of some characters. -/
def bytes (cs : List Char) : Nat := (String.ofList cs).utf8ByteSize

@[simp]
theorem bytes_nil : bytes [] = 0 := rfl

@[simp]
theorem bytes_append (cs ds : List Char) : bytes (cs ++ ds) = bytes cs + bytes ds := by
  rw [bytes, String.ofList_append, String.utf8ByteSize_append]
  rfl

@[simp]
theorem bytes_cons (c : Char) (cs : List Char) : bytes (c :: cs) = c.utf8Size + bytes cs := by
  have hsingle : bytes [c] = c.utf8Size := String.utf8ByteSize_singleton
  rw [← hsingle, ← bytes_append, List.singleton_append]

theorem bytes_toList (s : String) : bytes s.toList = s.utf8ByteSize := congrArg _ String.ofList_toList

variable {item front back : List Char} {vs : List CodePoint} {fault : EscapeFault}

/-- Inside a bracket the reader gathers digits as long as the bracket is not closed. -/
theorem unescapeFrom_bracket (hopen : ']' ∉ ds) (start offset : Nat) (digits : List Char) (rest : List Char) :
    unescapeFrom (.bracket start digits) offset (ds ++ rest) =
      unescapeFrom (.bracket start (ds.reverse ++ digits)) (offset + bytes ds) rest := by
  induction ds generalizing offset digits with
  | nil => rfl
  | cons d ds ih =>
      obtain ⟨hd, hds⟩ := not_or.mp (mt List.mem_cons.mpr hopen)
      rw [List.cons_append, unescapeFrom, if_neg (Ne.symm hd), ih hds, List.reverse_cons, List.append_assoc, bytes_cons,
        Nat.add_assoc]
      rfl

/-- A bracket that is closed is read as a whole. -/
theorem unescapeFrom_closed (hopen : ']' ∉ ds) (offset : Nat) (rest : List Char) :
    unescapeFrom .plain offset ('[' :: ds ++ [']'] ++ rest) =
      match numericEscape ds with
      | .ok value => (unescapeFrom .plain (offset + bytes ('[' :: ds ++ [']'])) rest).map (value :: ·)
      | .error fault =>
          .error ⟨fault, offset, offset + bytes ('[' :: ds ++ [']']), String.ofList ('[' :: ds ++ [']'])⟩ := by
  have hread : unescapeFrom .plain offset ('[' :: ds ++ [']'] ++ rest) =
      unescapeFrom (.bracket offset ds.reverse) (offset + 1 + bytes ds) (']' :: rest) := by
    have hbackslash : ¬ ('[' : Char) = '\\' := by decide
    rw [List.append_assoc, List.cons_append, unescapeFrom, if_neg hbackslash, if_pos rfl, unescapeFrom_bracket hopen,
      List.append_nil, List.singleton_append]
  have hbytes : offset + 1 + bytes ds + 1 = offset + bytes ('[' :: ds ++ [']']) := by
    simp only [bytes_cons, bytes_append, bytes_nil]
    have hopen : Char.utf8Size '[' = 1 := rfl
    have hclose : Char.utf8Size ']' = 1 := rfl
    omega
  cases hescape : numericEscape ds with
  | ok value => rw [hread, unescapeFrom, if_pos rfl, List.reverse_reverse, hescape, hbytes]
  | error fault => rw [hread, unescapeFrom, if_pos rfl, List.reverse_reverse, hescape, hbytes]

/-- An item is taken off the front. -/
theorem Item.unescapeFrom (h : Item item v) (offset : Nat) (rest : List Char) :
    unescapeFrom .plain offset (item ++ rest) =
      (unescapeFrom .plain (offset + bytes item) rest).map (v :: ·) := by
  cases h with
  | plain hbackslash hbracket =>
      rw [List.singleton_append, Literal.unescapeFrom, if_neg hbackslash, if_neg hbracket]
      simp
  | escaped c =>
      have hbytes : offset + 1 + c.utf8Size = offset + bytes ['\\', c] := by
        rw [bytes_cons, bytes_cons, bytes_nil, Nat.add_zero, ← Nat.add_assoc]
        rfl
      rw [List.cons_append, List.singleton_append, Literal.unescapeFrom, if_pos rfl, Literal.unescapeFrom, hbytes]
  | numeric hopen hds hn => rw [unescapeFrom_closed hopen, numericEscape_of_numeral hds, if_pos hn]

theorem Malformed.unescapeFrom (h : Malformed item back fault) (offset : Nat) :
    unescapeFrom .plain offset (item ++ back) = .error ⟨fault, offset, offset + bytes item, String.ofList item⟩ := by
  cases h with
  | dangling => rfl
  | unterminated hopen =>
      have hbackslash : ¬ ('[' : Char) = '\\' := by decide
      rw [List.cons_append, Literal.unescapeFrom, if_neg hbackslash, if_pos rfl, unescapeFrom_bracket hopen,
        List.append_nil, Literal.unescapeFrom, List.reverse_reverse, bytes_cons, ← Nat.add_assoc]
      rfl
  | empty => rfl
  | invalidDigit hopen hne hds => rw [unescapeFrom_closed hopen, numericEscape_of_not_numeral hne hds]
  | outOfRange hopen hds hn => rw [unescapeFrom_closed hopen, numericEscape_of_numeral hds, if_neg (Nat.not_le.mpr hn)]

theorem Spells.unescapeFrom (h : Spells front vs) (offset : Nat) (rest : List Char) :
    unescapeFrom .plain offset (front ++ rest) =
      (unescapeFrom .plain (offset + bytes front) rest).map (vs ++ ·) := by
  induction h generalizing offset with
  | nil =>
      rw [List.nil_append, bytes_nil, Nat.add_zero]
      cases Literal.unescapeFrom .plain offset rest with
      | ok ws => rfl
      | error e => rfl
  | cons hitem _ ih =>
      rw [List.append_assoc, hitem.unescapeFrom, ih, bytes_append, Nat.add_assoc]
      cases Literal.unescapeFrom .plain _ rest <;> rfl

/-! ### Every text -/

/-- A text starts with an item, or with something malformed. -/
theorem item_or_malformed (c : Char) (cs : List Char) :
    (∃ item rest v, c :: cs = item ++ rest ∧ item ≠ [] ∧ Item item v) ∨
      ∃ item back fault, c :: cs = item ++ back ∧ Malformed item back fault := by
  by_cases hbackslash : c = '\\'
  · subst hbackslash
    cases cs with
    | nil => exact .inr ⟨_, _, _, rfl, .dangling⟩
    | cons d cs => exact .inl ⟨['\\', d], cs, _, rfl, List.cons_ne_nil _ _, .escaped d⟩
  by_cases hbracket : c = '['
  · subst hbracket
    by_cases hclosed : ']' ∈ cs
    · obtain ⟨ds, rest, rfl, hopen⟩ := List.eq_append_cons_of_mem hclosed
      have hsplit : '[' :: (ds ++ ']' :: rest) = '[' :: ds ++ [']'] ++ rest := by
        rw [List.append_assoc, List.cons_append, List.singleton_append]
      by_cases hds : ∃ n, Numeral ds n
      · obtain ⟨n, hds⟩ := hds
        by_cases hn : n ≤ 0x10FFFF
        · exact .inl ⟨_, rest, n, hsplit, List.cons_ne_nil _ _, .numeric hopen hds hn⟩
        · exact .inr ⟨_, rest, _, hsplit, .outOfRange hopen hds (Nat.not_le.mp hn)⟩
      · by_cases hne : ds = []
        · subst hne
          exact .inr ⟨_, rest, _, hsplit, .empty⟩
        · exact .inr ⟨_, rest, _, hsplit, .invalidDigit hopen hne (not_exists.mp hds)⟩
    · exact .inr ⟨_, [], _, (List.append_nil _).symm, .unterminated hclosed⟩
  · exact .inl ⟨[c], cs, _, rfl, List.cons_ne_nil _ _, .plain hbackslash hbracket⟩

/-- A text is a row of items, or such a row with something malformed behind it. -/
theorem spells_or_malformed (cs : List Char) :
    (∃ vs, Spells cs vs) ∨
      ∃ front vs item back fault, cs = front ++ (item ++ back) ∧ Spells front vs ∧ Malformed item back fault := by
  induction h : cs.length using Nat.strongRecOn generalizing cs with
  | _ n ih =>
      cases cs with
      | nil => exact .inl ⟨[], .nil⟩
      | cons c cs =>
          obtain ⟨item, rest, v, hsplit, hne, hitem⟩ | ⟨item, back, fault, hsplit, hmalformed⟩ := item_or_malformed c cs
          · have hshorter : rest.length < n := by
              have hpos := List.length_pos_iff.mpr hne
              rw [← h, hsplit, List.length_append]
              omega
            rw [hsplit]
            obtain ⟨vs, hrest⟩ | ⟨front, vs, item', back, fault, rfl, hfront, hmalformed⟩ := ih _ hshorter rest rfl
            · exact .inl ⟨v :: vs, .cons hitem hrest⟩
            · refine .inr ⟨item ++ front, v :: vs, item', back, fault, ?_, .cons hitem hfront, hmalformed⟩
              rw [List.append_assoc]
          · exact .inr ⟨[], [], item, back, fault, hsplit, .nil, hmalformed⟩

theorem Spells.unescapeFrom_eq_ok (h : Spells front vs) (offset : Nat) :
    Literal.unescapeFrom .plain offset front = .ok vs := by
  have hread := h.unescapeFrom offset []
  rw [List.append_nil, Literal.unescapeFrom] at hread
  exact hread.trans (congrArg Except.ok (List.append_nil vs))

theorem Spells.unescapeFrom_eq_error (h : Spells front vs) (hmalformed : Malformed item back fault) (offset : Nat) :
    Literal.unescapeFrom .plain offset (front ++ (item ++ back)) =
      .error ⟨fault, offset + bytes front, offset + bytes front + bytes item, String.ofList item⟩ := by
  rw [h.unescapeFrom, hmalformed.unescapeFrom]
  rfl

theorem unescape_eq_ok_iff {raw : String} : unescape raw = .ok vs ↔ Spells raw.toList vs := by
  constructor
  · intro h
    obtain ⟨ws, hspells⟩ | ⟨front, ws, item, back, fault, hsplit, hfront, hmalformed⟩ := spells_or_malformed raw.toList
    · cases (hspells.unescapeFrom_eq_ok 0).symm.trans h
      exact hspells
    · rw [unescape, hsplit, hfront.unescapeFrom_eq_error hmalformed] at h
      cases h
  · intro h
    exact h.unescapeFrom_eq_ok 0

theorem unescape_eq_error_iff {raw : String} {e : EscapeError} :
    unescape raw = .error e ↔
      ∃ front back, raw = front ++ e.text ++ back ∧ e.start = front.utf8ByteSize ∧
        e.stop = (front ++ e.text).utf8ByteSize ∧ (∃ vs, unescape front = .ok vs) ∧
        Malformed e.text.toList back.toList e.fault := by
  constructor
  · intro h
    obtain ⟨ws, hspells⟩ | ⟨front, ws, item, back, fault, hsplit, hfront, hmalformed⟩ := spells_or_malformed raw.toList
    · cases (hspells.unescapeFrom_eq_ok 0).symm.trans h
    · rw [unescape, hsplit, hfront.unescapeFrom_eq_error hmalformed, Nat.zero_add] at h
      cases h
      refine ⟨String.ofList front, String.ofList back, ?_, rfl, ?_, ⟨ws, ?_⟩, ?_⟩
      · rw [← String.ofList_append, ← String.ofList_append, List.append_assoc, ← hsplit, String.ofList_toList]
      · rw [String.utf8ByteSize_append]
        rfl
      · rw [unescape_eq_ok_iff, String.toList_ofList]
        exact hfront
      · rw [String.toList_ofList, String.toList_ofList]
        exact hmalformed
  · rintro ⟨front, back, rfl, hstart, hstop, ⟨vs, hfront⟩, hmalformed⟩
    rw [unescape, String.toList_append, String.toList_append, List.append_assoc,
      (unescape_eq_ok_iff.mp hfront).unescapeFrom_eq_error hmalformed, Nat.zero_add, bytes_toList, bytes_toList,
      String.ofList_toList, ← hstart]
    rw [String.utf8ByteSize_append, ← hstart] at hstop
    rw [← hstop]

/-- The same error in a text that stands behind `n` more bytes. -/
def EscapeError.shift (n : Nat) (e : EscapeError) : EscapeError := { e with start := n + e.start, stop := n + e.stop }

theorem unescapeFrom_eq_shift (offset : Nat) (cs : List Char) :
    unescapeFrom .plain offset cs = (unescapeFrom .plain 0 cs).mapError (·.shift offset) := by
  obtain ⟨ws, hspells⟩ | ⟨front, ws, item, back, fault, rfl, hfront, hmalformed⟩ := spells_or_malformed cs
  · rw [hspells.unescapeFrom_eq_ok, hspells.unescapeFrom_eq_ok]
    rfl
  · rw [hfront.unescapeFrom_eq_error hmalformed, hfront.unescapeFrom_eq_error hmalformed]
    simp only [Except.mapError, EscapeError.shift, Nat.zero_add, Nat.add_assoc]

/-- What stands behind a literal is read as if it stood alone. -/
theorem unescape_append {raw : String} (h : unescape raw = .ok vs) (behind : String) :
    unescape (raw ++ behind) =
      ((unescape behind).mapError (·.shift raw.utf8ByteSize)).map (vs ++ ·) := by
  rw [unescape, String.toList_append, (unescape_eq_ok_iff.mp h).unescapeFrom, Nat.zero_add, bytes_toList,
    unescapeFrom_eq_shift]
  rfl

/-- Unescaping accepts exactly the grammar of literals, whatever the text is. A text is read as some code points
precisely when it is a row of items with these values. It is refused with an error precisely when the error covers what
is malformed behind a front that is read, quotes it and says what is wrong with it. And behind a text that is read
another one is read as if it stood alone, with its errors moved by the bytes in front of them. -/
theorem unescape_accepts_grammar (raw : String) :
    (∀ vs, unescape raw = .ok vs ↔ Spells raw.toList vs) ∧
      (∀ e, unescape raw = .error e ↔
        ∃ front back, raw = front ++ e.text ++ back ∧ e.start = front.utf8ByteSize ∧
          e.stop = (front ++ e.text).utf8ByteSize ∧ (∃ vs, unescape front = .ok vs) ∧
          Malformed e.text.toList back.toList e.fault) ∧
      ∀ vs, unescape raw = .ok vs → ∀ behind,
        unescape (raw ++ behind) = ((unescape behind).mapError (·.shift raw.utf8ByteSize)).map (vs ++ ·) :=
  ⟨fun _ => unescape_eq_ok_iff, fun _ => unescape_eq_error_iff, fun _ h behind => unescape_append h behind⟩

/-- A text with characters of several bytes, and behind it a bracket with a letter that is no decimal digit. -/
theorem unescape_accepts_grammar_of_bad_digit :
    unescape "é\\][0x41]" = .ok [233, 93, 65] ∧
      unescape ("é\\][0x41]" ++ "ü[0101][12a]b") = .error ⟨.invalidDigit .decimal, 18, 23, "[12a]"⟩ := by
  obtain ⟨-, -, happend⟩ := unescape_accepts_grammar "é\\][0x41]"
  have hread : unescape "é\\][0x41]" = .ok [233, 93, 65] := by decide
  refine ⟨hread, ?_⟩
  rw [happend _ hread]
  decide

end Transducer.Literal
