import Transducer.Diagnostic.Picture
import Transducer.Proofs.Parse.Pointing

/-!
# What is relied on of drawings

Whoever draws panels is trusted with two things only. Panels whose spans start and stop between characters of their
source can be drawn, and the picture shows the level and the title of its first panel. A title may be written with other
characters than those that it has, so only stretches of it that anybody can print are relied on.
-/

namespace Transducer

/-! ### Texts and their parts -/

/-- The first text contains the second one. -/
def Shows (text part : String) : Prop := ∃ front back, text = front ++ part ++ back

namespace Shows

variable {text part inner : String}

theorem trans (h : Shows text part) (h' : Shows part inner) : Shows text inner := by
  obtain ⟨front, back, rfl⟩ := h
  obtain ⟨front', back', rfl⟩ := h'
  exact ⟨front ++ front', back' ++ back, by simp only [String.append_assoc]⟩

theorem append_right (h : Shows text part) (more : String) : Shows (text ++ more) part := by
  obtain ⟨front, back, rfl⟩ := h
  exact ⟨front, back ++ more, by simp only [String.append_assoc]⟩

theorem append_left (h : Shows text part) (more : String) : Shows (more ++ text) part := by
  obtain ⟨front, back, rfl⟩ := h
  exact ⟨more ++ front, back, by simp only [String.append_assoc]⟩

theorem intercalate {texts : List String} (hmem : text ∈ texts) (h : Shows text part) (separator : String) :
    Shows (separator.intercalate texts) part := by
  induction texts with
  | nil => cases hmem
  | cons first texts ih =>
      cases texts with
      | nil =>
          rw [String.intercalate_singleton, ← List.mem_singleton.mp hmem]
          exact h
      | cons next texts =>
          rw [String.intercalate_cons_cons]
          rcases List.mem_cons.mp hmem with rfl | hmem
          · exact (h.append_right separator).append_right _
          · exact (ih hmem).append_left _

end Shows

/-- All characters are printable ones of a single byte. -/
def IsPlain (text : String) : Prop := ∀ c ∈ text.toList, 0x20 ≤ c.toNat ∧ c.toNat < 0x7F

/-! ### Drawings -/

/-- All spans of the panel lie in its source, and start and stop between characters. -/
def Panel.Fits (p : Panel) : Prop := ∀ span ∈ p.spans, span.PointsInto p.source

structure Drawing.Faithful (draw : Drawing) : Prop where
  returns : ∀ colored panels, (∀ p ∈ panels, p.Fits) → ∃ picture, draw colored panels = some picture
  level : ∀ colored p panels picture, draw colored (p :: panels) = some picture → Shows picture p.level.name
  title : ∀ colored p panels picture, draw colored (p :: panels) = some picture →
    ∀ part, IsPlain part → Shows p.title part → Shows picture part

namespace Diagnostic

variable {draw : Drawing} {colored : Bool} {source text picture : String} {path : Option String} {d : Diagnostic}

/-- The text holds the picture of the diagnostic, and with it the severity and whatever is plain of the message. -/
structure ShownIn (draw : Drawing) (colored : Bool) (source : String) (path : Option String) (text : String)
    (d : Diagnostic) : Prop where
  picture : ∃ picture, draw colored (d.panels source path) = some picture ∧ Shows text picture
  severity : Shows text d.severity.name
  message : ∀ part, IsPlain part → Shows d.message part → Shows text part

theorem shownIn_of_draw (hdraw : draw.Faithful) (hpicture : draw colored (d.panels source path) = some picture)
    (htext : Shows text picture) : d.ShownIn draw colored source path text := by
  have hname : d.severity.level.name = d.severity.name := by cases d.severity <;> rfl
  refine ⟨⟨picture, hpicture, htext⟩, ?_, fun part hplain hpart => ?_⟩
  · rw [← hname]
    exact htext.trans (hdraw.level colored _ _ picture hpicture)
  · exact htext.trans (hdraw.title colored _ _ picture hpicture part hplain hpart)

theorem fits_panels (hspan : d.span.PointsInto source)
    (hvisible : ∀ span ∈ d.span :: d.related.map Related.span, (visible source span).PointsInto source)
    (path : Option String) : ∀ p ∈ d.panels source path, p.Fits := by
  obtain ⟨hmain, hrelated⟩ := List.forall_mem_cons.mp hvisible
  intro p hp
  obtain rfl | hp := List.mem_cons.mp hp
  · intro span hmem
    obtain rfl | hmem := List.mem_cons.mp hmem
    · exact hmain
    · obtain ⟨a, ha, rfl⟩ := List.mem_map.mp hmem
      obtain ⟨r, hr, rfl⟩ := List.mem_map.mp ha
      exact hrelated r.span (List.mem_map_of_mem hr)
  · obtain ⟨fix, -, rfl⟩ := List.mem_map.mp hp
    intro span hmem
    rw [List.mem_singleton.mp hmem]
    exact hspan

theorem fits_panels_of_wide (hspan : d.span.PointsInto source) (hwide : d.span.start < d.span.stop)
    (hrelated : d.related = []) (path : Option String) : ∀ p ∈ d.panels source path, p.Fits := by
  refine fits_panels hspan (fun span hmem => ?_) path
  rw [hrelated, List.map_nil, List.mem_singleton] at hmem
  rw [hmem, visible, if_pos hwide]
  exact hspan

/-! ### Sources of single bytes -/

theorem isValid_of_single (hsingle : ∀ c ∈ source.toList, c.utf8Size = 1) {n : Nat} (hn : n ≤ source.utf8ByteSize) :
    String.Pos.Raw.IsValid source ⟨n⟩ := by
  have hbytes (cs : List Char) (hcs : ∀ c ∈ cs, c.utf8Size = 1) : (String.ofList cs).utf8ByteSize = cs.length := by
    induction cs with
    | nil => rfl
    | cons c cs ih =>
        obtain ⟨hc, hcs⟩ := List.forall_mem_cons.mp hcs
        have hfirst : (String.ofList [c]).utf8ByteSize = 1 := String.utf8ByteSize_singleton.trans hc
        rw [← List.singleton_append, String.ofList_append, String.utf8ByteSize_append, ih hcs, hfirst,
          List.length_append, List.length_singleton]
  have hlength := hbytes source.toList hsingle
  rw [String.ofList_toList] at hlength
  refine String.Pos.Raw.isValid_iff_exists_append.mpr
    ⟨String.ofList (source.toList.take n), String.ofList (source.toList.drop n), ?_, ?_⟩
  · rw [← String.ofList_append, List.take_append_drop, String.ofList_toList]
  · have htake := hbytes (source.toList.take n) fun c hc => hsingle c (List.mem_of_mem_take hc)
    rw [List.length_take, Nat.min_eq_left (hlength ▸ hn)] at htake
    exact String.Pos.Raw.ext htake.symm

/-- If all characters have a single byte, an empty span is widened by a whole character. -/
theorem fits_panels_of_single (hsingle : ∀ c ∈ source.toList, c.utf8Size = 1) (hd : d.PointsInto source)
    (path : Option String) : ∀ p ∈ d.panels source path, p.Fits := by
  have hvisible {span : Span} (hspan : span.PointsInto source) : (visible source span).PointsInto source := by
    unfold visible
    split
    · exact hspan
    · have hstart := Nat.le_trans hspan.ordered hspan.stop_le
      exact ⟨Nat.le_min.mpr ⟨Nat.le_succ _, hstart⟩, hspan.start, isValid_of_single hsingle (Nat.min_le_right _ _)⟩
  refine fits_panels hd.span (List.forall_mem_cons.mpr ⟨hvisible hd.span, fun span hspan => ?_⟩) path
  obtain ⟨r, hr, rfl⟩ := List.mem_map.mp hspan
  exact hvisible (hd.related r hr)

end Diagnostic

end Transducer
