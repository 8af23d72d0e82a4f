import Mathlib.Data.List.Basic
import Mathlib.Tactic.Ring
import Transducer.Ensures
import Transducer.Word.Basic

/-!
# Words behave like lists

A word is a stretch of a buffer together with a note of its hash. What any operation does to it is what the operation
does to its content, as long as the stretch lies inside of the buffer and the note is right. Both are so of every word
that the operations make of one another, in any order: a part of a part is counted from where the first part starts, and
a note goes along with the word it was made for and with no other.

The operations are given over any type, so that the same actions can be taken with words and with lists.
-/

namespace Transducer.Word

/-! ### Contents -/

/-- The stretch lies inside of the buffer, and a hash that was noted is the hash of the content. -/
structure Sound (w : Word) : Prop where
  start_le : w.start ≤ w.stop
  stop_le : w.stop ≤ w.buffer.size
  memo_eq : ∀ h, w.memo = some h → h = hashOf w.toList

variable {v w : Word} {i j : Nat}

theorem toList_eq (w : Word) : w.toList = (w.buffer.toList.take w.stop).drop w.start := by
  simp [toList, List.extract_eq_drop_take']

@[simp] theorem toList_ofArray (buffer : Array CodePoint) : (ofArray buffer).toList = buffer.toList := by
  simp [toList, ofArray]

theorem sound_ofArray (buffer : Array CodePoint) : (ofArray buffer).Sound where
  start_le := Nat.zero_le _
  stop_le := Nat.le_refl _
  memo_eq := by simp [ofArray]

theorem Sound.length_toList (hw : w.Sound) : w.toList.length = w.length := by
  have hstart := hw.start_le
  have hstop := hw.stop_le
  simp only [toList_eq, length, List.length_drop, List.length_take, Array.length_toList]
  omega

@[simp] theorem toList_append (v w : Word) : (v.append w).toList = v.toList ++ w.toList := by
  rw [append, toList_ofArray, Array.toList_append]
  rfl

@[simp] theorem toList_copy (w : Word) : w.copy.toList = w.toList := by
  rw [copy, toList_ofArray]
  rfl

theorem beq_iff : (v == w) = true ↔ v.toList = w.toList := by
  change (v.toList == w.toList) = true ↔ _
  exact beq_iff_eq

/-- The part of a list from `i` up to `j`, or an error if it is not all there. -/
def part (cs : List CodePoint) (i j : Nat) (e : Error) : Except Error (List CodePoint) :=
  if i ≤ j ∧ j ≤ cs.length then .ok ((cs.take j).drop i) else .error e

theorem map_toList_ofView (buffer : Array CodePoint) (i j : Nat) :
    (ofView buffer i j).map toList = part buffer.toList i j (.view i j buffer.size) := by
  unfold ofView part
  simp only [Array.length_toList]
  split
  · simp [Except.map, toList_eq]
  · rfl

theorem sound_ofView (buffer : Array CodePoint) (i j : Nat) : Ensures (ofView buffer i j) Sound := by
  unfold ofView
  split
  · rename_i hinside
    exact .ok ⟨hinside.1, hinside.2, by simp⟩
  · exact .error

/-- A part that lies inside of the word lies inside of the buffer, so the second check never fails. -/
theorem Sound.slice_of_le (hw : w.Sound) (hij : i ≤ j) (hj : j ≤ w.length) :
    ∃ x, w.slice i j = .ok x ∧ x.toList = (w.toList.take j).drop i := by
  have hstart := hw.start_le
  have hstop := hw.stop_le
  unfold length at hj
  have hinside : w.start + i ≤ w.start + j ∧ w.start + j ≤ w.buffer.size := by omega
  refine ⟨⟨w.buffer, w.start + i, w.start + j, none⟩, ?_, ?_⟩
  · rw [slice, if_pos ⟨hij, hj⟩, ofView, if_pos hinside]
  · simp only [toList_eq, List.take_drop, List.take_take, List.drop_drop]
    rw [Nat.min_eq_left (by omega)]

theorem Sound.map_toList_slice (hw : w.Sound) (i j : Nat) :
    (w.slice i j).map toList = part w.toList i j (.slice i j w.toList.length) := by
  rw [hw.length_toList, part, hw.length_toList]
  split
  · rename_i hinside
    obtain ⟨x, hx, hcontent⟩ := hw.slice_of_le hinside.1 hinside.2
    rw [hx, ← hcontent]
    rfl
  · rename_i hinside
    rw [slice, if_neg hinside]
    rfl

theorem sound_slice (w : Word) (i j : Nat) : Ensures (w.slice i j) Sound := by
  unfold slice
  split
  · exact sound_ofView _ _ _
  · exact .error

theorem sound_append (v w : Word) : (v.append w).Sound := sound_ofArray _

theorem length_append (hv : v.Sound) (hw : w.Sound) : (v.append w).length = v.length + w.length := by
  rw [← (sound_append v w).length_toList, toList_append, List.length_append, hv.length_toList, hw.length_toList]

/-- Two words that were put together can be taken apart again. -/
theorem append_splits (hv : v.Sound) (hw : w.Sound) :
    (∃ x, (v.append w).slice 0 v.length = .ok x ∧ (x == v) = true) ∧
      ∃ x, (v.append w).drop v.length = .ok x ∧ (x == w) = true := by
  have hle : v.length ≤ (v.append w).length := by
    rw [length_append hv hw]
    omega
  obtain ⟨x, hx, hfront⟩ := (sound_append v w).slice_of_le (Nat.zero_le _) hle
  obtain ⟨y, hy, hback⟩ := (sound_append v w).slice_of_le hle (Nat.le_refl _)
  refine ⟨⟨x, hx, beq_iff.mpr ?_⟩, y, hy, beq_iff.mpr ?_⟩
  · rw [hfront, toList_append, ← hv.length_toList, List.take_left, List.drop_zero]
  · rw [hback, ← (sound_append v w).length_toList, List.take_length, toList_append, ← hv.length_toList, List.drop_left]

/-! ### Hashes -/

/-- The hash without a limit on the numbers, wrapped to 32 bits at the end. -/
def wrappedHash (cs : List CodePoint) : Int32 := Int32.ofInt (cs.foldl (fun (h : Int) (c : Nat) => 31 * h + c) 1)

/-- Wrapping may be left to the end. -/
theorem foldl_ofInt (cs : List CodePoint) (h : Int) :
    cs.foldl (fun h c => h * 31 + Int32.ofNat c) (Int32.ofInt h) =
      Int32.ofInt (cs.foldl (fun (h : Int) (c : Nat) => 31 * h + c) h) := by
  induction cs generalizing h with
  | nil => rfl
  | cons c cs ih =>
      have hstep : Int32.ofInt h * 31 + Int32.ofNat c = Int32.ofInt (31 * h + (c : Int)) := by
        rw [mul_comm, Int32.ofInt_add, Int32.ofInt_mul, Int32.ofInt_eq_ofNat]
        rfl
      rw [List.foldl_cons, List.foldl_cons, hstep, ih]

theorem hashOf_eq (cs : List CodePoint) : hashOf cs = wrappedHash cs := foldl_ofInt cs 1

/-- The hash is that of the content, whether it was noted or not. -/
theorem Sound.hash_eq (hw : w.Sound) : w.hash.1 = hashOf w.toList := by
  unfold hash
  split
  · rename_i h hmemo
    exact hw.memo_eq h hmemo
  · rfl

theorem toList_hash (w : Word) : w.hash.2.toList = w.toList := by
  unfold hash
  split
  · rfl
  · rfl

theorem Sound.hash (hw : w.Sound) : w.hash.2.Sound := by
  unfold Word.hash
  split
  · exact hw
  · refine ⟨hw.start_le, hw.stop_le, fun h hmemo => ?_⟩
    exact (Option.some.inj hmemo).symm

/-! ### Actions -/

/-- What can be done with words, given over whatever stands for a word. -/
structure Operations (α : Type) where
  ofList : List CodePoint → α
  ofView : List CodePoint → Nat → Nat → Except Error α
  ofString : String → α
  drop : α → Nat → Except Error α
  slice : α → Nat → Nat → Except Error α
  append : α → α → α
  copy : α → α
  /-- The hash, and what remembers it. -/
  hash : α → Int32 × α

def onWords : Operations Word where
  ofList := ofList
  ofView cs := ofView cs.toArray
  ofString := ofString
  drop := drop
  slice := slice
  append := append
  copy := copy
  hash := hash

/-- Lists have nothing to share and nothing to remember. -/
def onLists : Operations (List CodePoint) where
  ofList cs := cs
  ofView cs i j := part cs i j (.view i j cs.length)
  ofString s := s.toList.map Char.toNat
  drop cs i := part cs i cs.length (.slice i cs.length cs.length)
  slice cs i j := part cs i j (.slice i j cs.length)
  append cs ds := cs ++ ds
  copy cs := cs
  hash cs := (wrappedHash cs, cs)

/-- Registers are named by their numbers, in the order in which they were made. -/
inductive Action where
  | ofList (cs : List CodePoint)
  | ofView (cs : List CodePoint) (start stop : Nat)
  | ofString (s : String)
  | drop (r i : Nat)
  | slice (r i j : Nat)
  | append (r q : Nat)
  | copy (r : Nat)
  | clone (r : Nat)
  | hash (r : Nat)

inductive Answer where
  | created (r : Nat)
  | refused (e : Error)
  | hashed (h : Int32)
  | noRegister
  deriving DecidableEq

section Machine

variable {α : Type}

/-- A register for the result of an operation, if there is one. -/
def create (registers : List α) : Except Error α → Answer × List α
  | .ok a => (.created registers.length, registers ++ [a])
  | .error e => (.refused e, registers)

def withRegister (registers : List α) (r : Nat) (f : α → Answer × List α) : Answer × List α :=
  match registers[r]? with
  | some a => f a
  | none => (.noRegister, registers)

/-- The answer to an action, and the registers behind it. -/
def step (ops : Operations α) (registers : List α) : Action → Answer × List α
  | .ofList cs => create registers (.ok (ops.ofList cs))
  | .ofView cs i j => create registers (ops.ofView cs i j)
  | .ofString s => create registers (.ok (ops.ofString s))
  | .drop r i => withRegister registers r fun a => create registers (ops.drop a i)
  | .slice r i j => withRegister registers r fun a => create registers (ops.slice a i j)
  | .append r q =>
      withRegister registers r fun a => withRegister registers q fun b => create registers (.ok (ops.append a b))
  | .copy r => withRegister registers r fun a => create registers (.ok (ops.copy a))
  | .clone r => withRegister registers r fun a => create registers (.ok a)
  | .hash r => withRegister registers r fun a => (.hashed (ops.hash a).1, registers.set r (ops.hash a).2)

def run (ops : Operations α) : List Action → List α → List Answer × List α
  | [], registers => ([], registers)
  | action :: actions, registers =>
      let first := step ops registers action
      let rest := run ops actions first.2
      (first.1 :: rest.1, rest.2)

end Machine

/-- The same answer, and sound words with the same contents. -/
structure Matches {β : Type} (p : β × List Word) (q : β × List (List CodePoint)) : Prop where
  answer_eq : p.1 = q.1
  contents_eq : p.2.map toList = q.2
  sound : ∀ w ∈ p.2, w.Sound

section Steps

variable {words : List Word} (hwords : ∀ w ∈ words, w.Sound)
include hwords

theorem matches_create {r : Except Error Word} (hr : Ensures r Sound) :
    Matches (create words r) (create (words.map toList) (r.map toList)) := by
  cases r with
  | error e => exact ⟨rfl, rfl, hwords⟩
  | ok w =>
      refine ⟨by simp [create, Except.map], by simp [create, Except.map], ?_⟩
      exact List.forall_mem_append.mpr ⟨hwords, List.forall_mem_singleton.mpr (hr w rfl)⟩

theorem matches_made {w : Word} (hw : w.Sound) {cs : List CodePoint} (hcs : w.toList = cs) :
    Matches (create words (.ok w)) (create (words.map toList) (.ok cs)) := by
  subst hcs
  exact matches_create hwords (.ok hw)

theorem matches_withRegister {r : Nat} {f : Word → Answer × List Word}
    {g : List CodePoint → Answer × List (List CodePoint)}
    (h : ∀ w, words[r]? = some w → w.Sound → Matches (f w) (g w.toList)) :
    Matches (withRegister words r f) (withRegister (words.map toList) r g) := by
  unfold withRegister
  rw [List.getElem?_map]
  cases hr : words[r]? with
  | none => exact ⟨rfl, rfl, hwords⟩
  | some w => exact h w hr (hwords w (List.mem_of_getElem? hr))

theorem matches_step (action : Action) :
    Matches (step onWords words action) (step onLists (words.map toList) action) := by
  cases action with
  | ofList cs => exact matches_made hwords (sound_ofArray _) (toList_ofArray _)
  | ofView cs i j =>
      have hview := matches_create hwords (sound_ofView cs.toArray i j)
      rw [map_toList_ofView] at hview
      exact hview
  | ofString s => exact matches_made hwords (sound_ofArray _) (toList_ofArray _)
  | drop r i =>
      apply matches_withRegister hwords
      intro w _ hw
      have hdrop := matches_create hwords (sound_slice w i w.length)
      rw [hw.map_toList_slice, ← hw.length_toList] at hdrop
      simpa only [onWords, onLists, drop, hw.length_toList] using hdrop
  | slice r i j =>
      apply matches_withRegister hwords
      intro w _ hw
      have hslice := matches_create hwords (sound_slice w i j)
      rw [hw.map_toList_slice] at hslice
      exact hslice
  | append r q =>
      apply matches_withRegister hwords
      intro v _ hv
      apply matches_withRegister hwords
      intro w _ hw
      exact matches_made hwords (sound_append v w) (toList_append v w)
  | copy r =>
      apply matches_withRegister hwords
      intro w _ hw
      exact matches_made hwords (sound_ofArray _) (toList_copy w)
  | clone r =>
      apply matches_withRegister hwords
      intro w _ hw
      exact matches_made hwords hw rfl
  | hash r =>
      apply matches_withRegister hwords
      intro w hr hw
      refine ⟨?_, ?_, ?_⟩
      · simp [onWords, onLists, hw.hash_eq, hashOf_eq]
      · simp [onWords, onLists, List.map_set, toList_hash]
      · intro v hv
        obtain hv | rfl := List.mem_or_eq_of_mem_set hv
        · exact hwords v hv
        · exact hw.hash

end Steps

theorem matches_run (actions : List Action) (words : List Word) (hwords : ∀ w ∈ words, w.Sound) :
    Matches (run onWords actions words) (run onLists actions (words.map toList)) := by
  induction actions generalizing words with
  | nil => exact ⟨rfl, rfl, hwords⟩
  | cons action actions ih =>
      have hfirst := matches_step hwords action
      have hrest := ih _ hfirst.sound
      rw [hfirst.contents_eq] at hrest
      refine ⟨?_, hrest.contents_eq, hrest.sound⟩
      simp only [run, hfirst.answer_eq, hrest.answer_eq]

/-- Words behave like lists. Whatever actions are taken, in whatever order, every action is answered as if the registers
held lists: the same ones are refused, and with the same error. The words then have the contents that the lists are, and
each of them lies inside of its buffer. Two words put together can be taken apart again. A hash is the one of the
content, wrapped to 32 bits, whether it was asked for before or not, so words that are equal have equal hashes. -/
theorem words_behave_like_lists (actions : List Action) :
    (run onWords actions []).1 = (run onLists actions []).1 ∧
      (run onWords actions []).2.map toList = (run onLists actions []).2 ∧
      (∀ w ∈ (run onWords actions []).2,
        w.start ≤ w.stop ∧ w.stop ≤ w.buffer.size ∧ w.hash.1 = wrappedHash w.toList) ∧
      ∀ v ∈ (run onWords actions []).2, ∀ w ∈ (run onWords actions []).2,
        (∃ x, (v.append w).slice 0 v.length = .ok x ∧ (x == v) = true) ∧
          (∃ x, (v.append w).drop v.length = .ok x ∧ (x == w) = true) ∧
          ((v == w) = true → v.hash.1 = w.hash.1) := by
  have hmatches := matches_run actions [] (by simp)
  refine ⟨hmatches.answer_eq, hmatches.contents_eq, fun w hw => ?_, fun v hv w hw => ?_⟩
  · have hsound := hmatches.sound w hw
    exact ⟨hsound.start_le, hsound.stop_le, by rw [hsound.hash_eq, hashOf_eq]⟩
  · have hv := hmatches.sound v hv
    have hw := hmatches.sound w hw
    obtain ⟨hfront, hback⟩ := append_splits hv hw
    refine ⟨hfront, hback, fun heq => ?_⟩
    rw [hv.hash_eq, hw.hash_eq, beq_iff.mp heq]

end Transducer.Word
