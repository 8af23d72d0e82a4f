import Transducer.Diagnostic.Snippet
import Transducer.Proofs.Diagnostic.Picture

/-!
# The drawing is faithful

A drawing is made stroke by stroke on a canvas. Its first row is written first: the level of the first panel and its
title. All other strokes are made in rows that are new or below such a row, so none of them covers the first one. In
color both parts of it stand between codes; they are shown in any case. Plain characters are drawn as they are.
-/

namespace Transducer

namespace Canvas

/-- The first row holds the cells. -/
def Heads (cells : Array Cell) (c : Canvas) : Prop := c.rows[0]? = some cells

namespace Heads

variable {cells : Array Cell} {c : Canvas}

theorem height_pos (h : c.Heads cells) : 0 < c.height := by
  obtain ⟨hpos, -⟩ := Array.getElem?_eq_some_iff.mp h
  exact hpos

theorem put (h : c.Heads cells) {row : Nat} (hrow : 0 < row) (column : Nat) (char : Char) (ink : Ink) :
    (c.put row column char ink).Heads cells := by
  have hne : row ≠ 0 := Nat.ne_of_gt hrow
  rw [Heads, Canvas.put, Array.getElem?_modify, if_neg hne, Array.getElem?_append_left h.height_pos]
  exact h

theorem write (h : c.Heads cells) {row : Nat} (hrow : 0 < row) (column : Nat) (text : List Char) (ink : Ink) :
    (c.write row column text ink).Heads cells := by
  unfold Canvas.write
  induction text generalizing c column with
  | nil => exact h
  | cons char text ih => exact ih (h.put hrow column char ink) (column + 1)

theorem fill (h : c.Heads cells) {row : Nat} (hrow : 0 < row) (first past : Nat) (char : Char) (ink : Ink) :
    (c.fill row first past char ink).Heads cells :=
  h.write hrow first _ ink

theorem foldl (h : c.Heads cells) {α : Type} {xs : List α} {draw : Canvas → α → Canvas}
    (hdraw : ∀ c, c.Heads cells → ∀ x ∈ xs, (draw c x).Heads cells) : (xs.foldl draw c).Heads cells := by
  induction xs generalizing c with
  | nil => exact h
  | cons x xs ih =>
      exact ih (hdraw c h x List.mem_cons_self) fun c hc y hy => hdraw c hc y (List.mem_cons_of_mem x hy)

theorem fillDown (h : c.Heads cells) {first : Nat} (hfirst : 0 < first) (past column : Nat) (char : Char) (ink : Ink) :
    (c.fillDown first past column char ink).Heads cells := by
  refine h.foldl fun c hc row hrow => hc.put ?_ column char ink
  exact Nat.lt_of_lt_of_le hfirst (List.mem_range'_1.mp hrow).1

theorem write_behind (h : c.Heads cells) (text : List Char) (ink : Ink) :
    (c.write 0 cells.size text ink).Heads (cells ++ (text.map (⟨·, ink⟩)).toArray) := by
  unfold Canvas.write
  induction text generalizing c cells with
  | nil => simpa [Heads] using h
  | cons char text ih =>
      have hset : (cells.push Cell.blank).setIfInBounds cells.size ⟨char, ink⟩ = cells.push ⟨char, ink⟩ := by grind
      have hput : (c.put 0 cells.size char ink).Heads (cells.push ⟨char, ink⟩) := by
        rw [Heads, Canvas.put, Array.getElem?_modify, if_pos rfl, Array.getElem?_append_left h.height_pos, h]
        simpa using hset
      have hsize : (cells.push (⟨char, ink⟩ : Cell)).size = cells.size + 1 := Array.size_push _
      have hrest := ih hput
      rw [hsize] at hrest
      simpa using hrest

theorem write_empty {text : List Char} (h : text ≠ []) (ink : Ink) :
    (Canvas.empty.write 0 0 text ink).Heads (text.map (⟨·, ink⟩)).toArray := by
  obtain ⟨char, text, rfl⟩ := List.exists_cons_of_ne_nil h
  have hput : (Canvas.empty.put 0 0 char ink).Heads #[⟨char, ink⟩] := rfl
  have hrest := hput.write_behind text ink
  rw [List.append_toArray, List.singleton_append] at hrest
  exact hrest

end Heads

theorem painted_run (p : Palette) (ink : Ink) (text : List Char) (cells : List Cell) :
    painted p (p ink) (text.map (⟨·, ink⟩) ++ cells) = text ++ painted p (p ink) cells := by
  induction text with
  | nil => rfl
  | cons char text ih =>
      rw [List.map_cons, List.cons_append, painted, if_pos rfl, ih]
      rfl

/-- Cells of one ink are written behind its codes, or behind none. -/
theorem painted_map (p : Palette) (codes : String) (ink : Ink) {text : List Char} (htext : text ≠ [])
    (cells : List Cell) :
    ∃ front, painted p codes (text.map (⟨·, ink⟩) ++ cells) = front ++ (text ++ painted p (p ink) cells) := by
  obtain ⟨char, text, rfl⟩ := List.exists_cons_of_ne_nil htext
  rw [List.map_cons, List.cons_append, painted]
  split
  · rename_i hink
    exact ⟨[], by rw [← hink, painted_run, List.nil_append, List.cons_append]⟩
  · exact ⟨resetAfter codes ++ (p ink).toList, by rw [painted_run, List.cons_append]⟩

end Canvas

namespace Snippet

open Canvas Excerpt

variable {cells : Array Cell} {c : Canvas}

/-! ### Strokes below the first row -/

theorem heads_drawBar (h : c.Heads cells) (digits : Nat) : (drawBar digits c).Heads cells :=
  h.put h.height_pos _ _ _

theorem heads_drawNumber (h : c.Heads cells) (digits : Nat) {row : Nat} (hrow : 0 < row) (number : Nat) :
    (drawNumber digits row number c).Heads cells :=
  (h.write hrow _ _ _).put hrow _ _ _

theorem heads_drawCode (h : c.Heads cells) (l : Layout) (line : SourceLine) : (drawCode l line c).Heads cells := by
  have hrow := h.height_pos
  have hcode := (heads_drawNumber h l.digits hrow line.number).write hrow l.codeColumn
  unfold drawCode
  dsimp only
  split
  · split
    · exact ((hcode _ _).write hrow _ _ _).write hrow _ _ _
    · exact (hcode _ _).write hrow _ _ _
  · split
    · exact ((hcode _ _).write hrow _ _ _)
    · exact hcode _ _

theorem heads_drawTurn (h : c.Heads cells) (l : Layout) {row : Nat} (hrow : 0 < row) (rows column level : Nat)
    (m : Mark) : (drawTurn l row rows column level m c).Heads cells := by
  unfold drawTurn
  have hhung : (if 0 < level && (m.hasLabel || m.turns) then
      c.fillDown (row + 1) (row + level + 2) column '|' (inkOf m.role) else c).Heads cells := by
    split
    · exact h.fillDown (Nat.succ_pos _) _ _ _ _
    · exact h
  dsimp only
  split
  · exact (hhung.put (Nat.succ_pos _) _ _ _).fillDown (Nat.succ_pos _) _ _ _ _
  · exact hhung.fillDown hrow _ _ _ _
  · exact hhung

theorem heads_drawHorizontal (h : c.Heads cells) (l : Layout) (row column level : Nat) (m : Mark) :
    (drawHorizontal l row column level m c).Heads cells := by
  unfold drawHorizontal
  split
  · exact h.fill (Nat.succ_pos _) _ _ _ _
  · exact h.fill (Nat.succ_pos _) _ _ _ _
  · exact h

theorem heads_drawLabel (h : c.Heads cells) (l : Layout) (row left level : Nat) (m : Mark) :
    (drawLabel l row left level m c).Heads cells := by
  unfold drawLabel
  split
  · exact h.write (Nat.succ_pos _) _ _ _
  · exact h.write (Nat.succ_pos _) _ _ _

theorem heads_drawUnderline (h : c.Heads cells) (l : Layout) (row left level : Nat) (m : Mark) :
    (drawUnderline l row left level m c).Heads cells := by
  unfold drawUnderline
  dsimp only
  split
  · exact (h.fill (Nat.succ_pos _) _ _ _ _).put (Nat.succ_pos _) _ _ _
  · exact h.fill (Nat.succ_pos _) _ _ _ _

theorem heads_drawMarks (h : c.Heads cells) (l : Layout) (line : SourceLine) {row : Nat} (hrow : 0 < row)
    (marks : List Mark) : (drawMarks l line row marks c).Heads cells := by
  unfold drawMarks
  refine Heads.foldl ?_ fun c hc m _ => heads_drawUnderline hc l row _ m.1 m.2
  refine Heads.foldl ?_ fun c hc m _ => heads_drawLabel hc l row _ m.1 m.2
  refine Heads.foldl ?_ fun c hc m _ => heads_drawTurn hc l hrow _ _ m.1 m.2
  refine Heads.foldl ?_ fun c hc m _ => heads_drawHorizontal hc l row _ m.1 m.2
  exact h.fillDown (Nat.succ_pos _) _ _ _ _

theorem heads_drawRails (h : c.Heads cells) (l : Layout) {first : Nat} (hfirst : 0 < first) (past : Nat)
    (rails : Rails) : (drawRails l first past rails c).Heads cells :=
  h.foldl fun _ hc r _ => hc.fillDown hfirst past (l.railColumn r.1) '|' (inkOf r.2)

theorem heads_drawMarkedLine (h : c.Heads cells) (l : Layout) (line : SourceLine) (marks : List Mark) :
    (drawMarkedLine l line marks c).Heads cells := by
  have hcode := heads_drawCode h l line
  unfold drawMarkedLine
  dsimp only
  split
  · refine hcode.foldl fun c hc m _ => ?_
    split
    · exact hc.put h.height_pos _ _ _
    · exact hc
  · split
    · exact hcode
    · exact heads_drawMarks hcode l line h.height_pos marks

theorem heads_drawGap (h : c.Heads cells) (l : Layout) (lines : List SourceLine) (first next : Nat) :
    (drawGap l lines first next c).Heads cells := by
  unfold drawGap
  split
  · exact h.write h.height_pos _ _ _
  · split
    · split
      · exact heads_drawCode h l _
      · exact h
    · exact h

theorem heads_drawLines (h : c.Heads cells) (l : Layout) (lines : List SourceLine) (rails : Rails)
    (marked : List (SourceLine × List Mark)) : (drawLines l lines rails marked c).Heads cells := by
  induction marked generalizing rails c with
  | nil => exact h
  | cons first rest ih =>
      obtain ⟨line, marks⟩ := first
      have hline := heads_drawMarkedLine h l line marks
      have hrails := fun kept => heads_drawRails hline l h.height_pos (drawMarkedLine l line marks c).height kept
      unfold drawLines
      refine ih ?_ _
      refine heads_drawRails ?_ l (hrails _).height_pos _ _
      split
      · exact heads_drawGap (hrails _) l lines _ _
      · exact hrails _

theorem heads_drawFixed (h : c.Heads cells) (digits : Nat) (mark : Char) (line : SourceLine) (place : Place)
    (added : List Char) : (drawFixed digits mark line place added c).Heads cells := by
  have hrow := h.height_pos
  have hnumber := heads_drawNumber h digits hrow line.number
  unfold drawFixed
  refine ((Heads.write ?_ hrow _ _ _).write hrow _ _ _).write hrow _ _ _
  split
  · exact hnumber
  · exact hnumber.put hrow _ _ _

theorem heads_drawContext (h : c.Heads cells) (digits : Nat) (line : SourceLine) :
    (drawContext digits c line).Heads cells :=
  (heads_drawNumber h digits h.height_pos line.number).write h.height_pos _ _ _

theorem heads_drawPatch (h : c.Heads cells) (digits : Nat) (source : Source) (span : Span) (replacement : String) :
    (drawPatch digits source span replacement c).Heads cells := by
  have hbar := heads_drawBar h digits
  unfold drawPatch
  dsimp only
  split
  · have hfixed := fun line place added => heads_drawFixed hbar digits '|' line place added
    exact (heads_drawBar (hfixed _ _ _) digits).fill (hfixed _ _ _).height_pos _ _ _ _
  · refine heads_drawBar (heads_drawFixed ?_ digits _ _ _ _) digits
    split
    · have hfirst := heads_drawContext hbar digits
      split
      · exact heads_drawContext ((hfirst _).write (hfirst _).height_pos _ _ _) digits _
      · exact (hfirst _).write (hfirst _).height_pos _ _ _
    · exact Heads.foldl hbar fun c hc line _ => heads_drawContext hc digits line

theorem heads_drawAnnotations (h : c.Heads cells) (digits : Nat) (source : Source) (path : Option String)
    (annotations : List Annotation) : (drawAnnotations digits source path annotations c).Heads cells := by
  unfold drawAnnotations
  dsimp only
  refine heads_drawLines (heads_drawBar ?_ digits) _ _ _ _
  split
  · exact (h.write h.height_pos _ _ _).write h.height_pos _ _ _
  · exact h

theorem heads_drawExhibit (h : c.Heads cells) (digits : Nat) (p : Panel) : (drawExhibit digits p c).Heads cells := by
  unfold drawExhibit
  dsimp only
  split
  · exact heads_drawAnnotations h _ _ _ _
  · exact heads_drawPatch h _ _ _ _

theorem heads_drawPanel (h : c.Heads cells) (digits : Nat) (p : Panel) : (drawPanel digits c p).Heads cells := by
  have hbar : (if c.height = 0 then c else drawBar digits c).Heads cells := by
    split
    · exact h
    · exact heads_drawBar h digits
  exact heads_drawExhibit ((hbar.write hbar.height_pos _ _ _).write hbar.height_pos _ _ _) digits p

/-! ### The first row -/

def levelCells (p : Panel) : List Cell := p.level.name.toList.map (⟨·, inkOfLevel p.level⟩)

def titleCells (p : Panel) : List Cell := (": " ++ shownText p.title).toList.map (⟨·, inkOfTitle p.exhibit⟩)

theorem name_ne_nil (level : Level) : level.name.toList ≠ [] := by cases level <;> decide

theorem heads_draw (p : Panel) (panels : List Panel) :
    (draw (p :: panels)).Heads ((levelCells p).toArray ++ (titleCells p).toArray) := by
  have htitle := (Heads.write_empty (name_ne_nil p.level) (inkOfLevel p.level)).write_behind
    (": " ++ shownText p.title).toList (inkOfTitle p.exhibit)
  rw [List.size_toArray, List.length_map] at htitle
  exact (heads_drawExhibit htitle _ p).foldl fun c hc q _ => heads_drawPanel hc _ q

/-- The level and the title are written behind each other, apart from codes. -/
theorem painted_heading (palette : Palette) (p : Panel) :
    ∃ front between back, painted palette "" (levelCells p ++ titleCells p) =
      front ++ (p.level.name.toList ++ (between ++ ((": " ++ shownText p.title).toList ++ back))) := by
  have htitle : (": " ++ shownText p.title).toList ≠ [] := by simp
  obtain ⟨front, hlevel⟩ := painted_map palette "" (inkOfLevel p.level) (name_ne_nil p.level) (titleCells p)
  obtain ⟨between, hbehind⟩ := painted_map palette (palette (inkOfLevel p.level)) (inkOfTitle p.exhibit) htitle []
  rw [List.append_nil] at hbehind
  refine ⟨front, between, painted palette (palette (inkOfTitle p.exhibit)) [], ?_⟩
  rw [← hbehind]
  exact hlevel

theorem shows_text (palette : Palette) (p : Panel) (panels : List Panel) :
    Shows ((draw (p :: panels)).text palette) p.level.name ∧
      Shows ((draw (p :: panels)).text palette) (shownText p.title) := by
  have hheads := heads_draw p panels
  obtain ⟨row, rows, hrows⟩ := List.exists_cons_of_ne_nil (List.ne_nil_of_length_pos hheads.height_pos)
  have hrow : row.toList = levelCells p ++ titleCells p := by
    rw [Heads, ← Array.getElem?_toList, hrows] at hheads
    simpa using congrArg (Option.map Array.toList) hheads
  have hmem : String.ofList (painted palette "" row.toList) ∈
      (draw (p :: panels)).rows.toList.map fun cells => String.ofList (painted palette "" cells.toList) := by
    rw [hrows]
    exact List.mem_cons_self
  obtain ⟨front, between, back, hpainted⟩ := painted_heading palette p
  rw [hrow, hpainted] at hmem
  constructor
  · refine Shows.intercalate hmem
      ⟨String.ofList front, String.ofList (between ++ ((": " ++ shownText p.title).toList ++ back)), ?_⟩ "\n"
    simp only [String.ofList_append, String.ofList_toList, String.append_assoc]
  · refine Shows.intercalate hmem
      ⟨String.ofList (front ++ (p.level.name.toList ++ between)) ++ ": ", String.ofList back, ?_⟩ "\n"
    simp only [String.ofList_append, String.ofList_toList, String.append_assoc]

/-! ### What is drawn of a text -/

theorem shownChar_of_plain {c : Char} (h : 0x20 ≤ c.toNat ∧ c.toNat < 0x7F) : shownChar c = [c] := by
  have htab : c ≠ '\t' := fun heq => absurd h.1 (by rw [heq]; decide)
  rw [shownChar, if_neg htab, if_neg (Nat.not_lt.mpr h.1), if_neg (Nat.ne_of_lt h.2)]

theorem shows_shownText {text part : String} (hplain : IsPlain part) (h : Shows text part) :
    Shows (shownText text) part := by
  obtain ⟨front, back, rfl⟩ := h
  have hpart : part.toList.flatMap shownChar = part.toList := by
    rw [List.flatMap_congr fun c hc => shownChar_of_plain (hplain c hc)]
    exact List.flatMap_singleton' part.toList
  refine ⟨String.ofList (front.toList.flatMap shownChar), String.ofList (back.toList.flatMap shownChar), ?_⟩
  rw [shownText, String.toList_append, String.toList_append, List.flatMap_append, List.flatMap_append, hpart,
    String.ofList_append, String.ofList_append, String.ofList_toList]

/-! ### Offsets -/

theorem bytesOf_toList (s : String) : bytesOf s.toList = s.utf8ByteSize := by
  have hbytes (cs : List Char) : bytesOf cs = (String.ofList cs).utf8ByteSize := by
    induction cs with
    | nil => rfl
    | cons c cs ih =>
        rw [← List.singleton_append, String.ofList_append, String.utf8ByteSize_append, ← ih]
        exact congrArg (· + bytesOf cs) String.utf8ByteSize_singleton.symm
  rw [hbytes, String.ofList_toList]

theorem takeBytes_append (cs ds : List Char) : takeBytes (bytesOf cs) (cs ++ ds) = cs := by
  induction cs with
  | nil => exact takeBytes.eq_1 ds
  | cons c cs ih =>
      have hbytes : bytesOf (c :: cs) = c.utf8Size + bytesOf cs := rfl
      obtain ⟨n, hn⟩ : ∃ n, c.utf8Size + bytesOf cs = n + 1 :=
        Nat.exists_eq_succ_of_ne_zero (Nat.ne_of_gt (Nat.lt_of_lt_of_le c.utf8Size_pos (Nat.le_add_right _ _)))
      rw [hbytes, List.cons_append, hn, takeBytes, ← hn, Nat.add_sub_cancel_left, ih]
      exact Nat.succ_ne_zero n

theorem isBetween_of_isValid {text : String} {offset : Nat} (h : String.Pos.Raw.IsValid text ⟨offset⟩) :
    (Source.ofString text).isBetween offset = true := by
  obtain ⟨front, back, rfl, hfront⟩ := String.Pos.Raw.isValid_iff_exists_append.mp h
  have hoffset : offset = bytesOf front.toList := by
    rw [bytesOf_toList]
    exact congrArg String.Pos.Raw.byteIdx hfront
  rw [Source.isBetween, Source.ofString, hoffset, String.toList_append, takeBytes_append]
  exact decide_eq_true (Nat.le_refl _)

theorem canDraw_of_fits {p : Panel} (h : p.Fits) : canDraw p = true := by
  refine List.all_eq_true.mpr fun span hspan => ?_
  rw [isBetween_of_isValid (h span hspan).start, isBetween_of_isValid (h span hspan).stop]
  rfl

/-! ### The whole drawing -/

theorem faithful_render : Drawing.Faithful render where
  returns colored panels hfits := by
    unfold render
    rw [if_pos (List.all_eq_true.mpr fun p hp => canDraw_of_fits (hfits p hp))]
    exact ⟨_, rfl⟩
  level colored p panels picture hpicture := by
    unfold render at hpicture
    split at hpicture
    · cases hpicture
      exact (shows_text _ p panels).1
    · cases hpicture
  title colored p panels picture hpicture part hplain hpart := by
    unfold render at hpicture
    split at hpicture
    · cases hpicture
      exact (shows_text _ p panels).2.trans (shows_shownText hplain hpart)
    · cases hpicture

end Snippet

end Transducer
