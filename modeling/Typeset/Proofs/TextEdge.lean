import Typeset.Proofs.Alignment

/-!
# The width of a layout

The width is a right edge: that of the text area or that of the text, whichever lies further right.
The maximum over the text starts at the origin, so the width is right unless both lie left of it.
-/

namespace Typeset

open Glyph

section Ink

variable {α τ : Type} {gs row : List (Glyph α τ)}

/-- Some glyph counts towards the extent of the text. -/
def HasInk (gs : List (Glyph α τ)) : Prop := ∃ g ∈ gs, g.isInk = true

instance (gs : List (Glyph α τ)) : Decidable (HasInk gs) :=
  inferInstanceAs (Decidable (∃ g ∈ gs, g.isInk = true))

theorem hasInk_iff_body (hjoined : row.IsChain fun a b => joins a b = true) :
    HasInk row ↔ ∃ g ∈ body row, g.annotates = false := by
  constructor
  · rintro ⟨g, hg, hink⟩
    simp only [isInk, Bool.and_eq_true, Bool.not_eq_true', bne_iff_ne] at hink
    obtain ⟨hann, hsplit⟩ := hink
    rcases List.mem_append.mp (body_append_marker row ▸ hg) with hg | hg
    · exact ⟨g, hg, hann⟩
    · exact absurd (mem_marker hg).2.2 hsplit
  · rintro ⟨g, hg, hann⟩
    exact ⟨g, (body_sublist row).subset hg, by simp [isInk, hann, mem_body hjoined hg]⟩

variable [Scalar α]

theorem Glyph.Stays.isInk {g k : Glyph α τ} (h : Stays g k) : k.isInk = g.isInk := by
  simp [Glyph.isInk, annotates, h.ruby, h.split]

theorem HasInk.stays {hs : List (Glyph α τ)} (h : HasInk gs) (hstays : List.Forall₂ Stays gs hs) :
    HasInk hs := by
  obtain ⟨g, hg, hink⟩ := h
  obtain ⟨k, hk, hgk⟩ := exists_mem_of_forall₂ hstays hg
  exact ⟨k, hk, hgk.isInk.trans hink⟩

/-- A line keeps some text when it is turned around. -/
theorem HasInk.turnLine (h : HasInk row) (hjoined : row.IsChain fun a b => joins a b = true) :
    HasInk (turnLine row) := by
  obtain ⟨g, hg, hann⟩ := (hasInk_iff_body hjoined).mp h
  obtain ⟨order, hperm, hkeeps⟩ := carries_turnBody (body row)
  obtain ⟨k, hk, hgk⟩ := exists_mem_of_forall₂ hkeeps (hperm.mem_iff.mpr hg)
  have hkann : k.annotates = false := by simpa [annotates, hgk.ruby] using hann
  rw [hasInk_iff_body (isChain_turnLine hjoined), body_turnLine hjoined]
  exact ⟨k, hk, hkann⟩

theorem HasInk.turnLines (h : HasInk gs) : HasInk (turnLines gs) := by
  obtain ⟨g, hg, hink⟩ := h
  obtain ⟨row, hrow, hgrow⟩ := mem_iff_exists_line.mp hg
  have hturned := HasInk.turnLine ⟨g, hgrow, hink⟩ (List.isChain_of_mem_splitBy hrow)
  obtain ⟨k, hk, hkink⟩ := hturned
  exact ⟨k, List.mem_flatMap.mpr ⟨row, hrow, hk⟩, hkink⟩

variable [Scalar τ]

/-- Text that is left after breaking is still text in the layout. -/
theorem HasInk.layout (s : Style α τ) (table : ClassTable) (startTime : τ)
    {blocks : List (List (Glyph α τ))} (hleft : s.alignment.isLeft = true) (hgs : gs ∈ blocks)
    (h : HasInk (s.breakLines table gs)) : HasInk (s.layout table startTime blocks).glyphs := by
  have hordered : HasInk (s.orderLines (s.breakLines table gs)) := by
    unfold Style.orderLines
    split_ifs
    · exact h.turnLines
    · exact h
  have hplaced : HasInk (placeAcross s.left s.firstIndent s.restIndent
      (s.orderLines (s.breakLines table gs))) := by
    obtain ⟨g, hg, hink⟩ := hordered
    obtain ⟨_, hk, x, rfl⟩ := exists_mem_of_forall₂ (moved_placeAcross ..) hg
    exact ⟨_, hk, hink⟩
  obtain ⟨pre, post, rfl⟩ := List.append_of_mem hgs
  obtain ⟨g, hg, hink⟩ := hplaced.stays (stays_layout s table startTime pre post gs hleft)
  obtain ⟨i, -, -, hi⟩ := Span.mem_slice.mp hg
  exact ⟨g, List.mem_of_getElem? hi, hink⟩

end Ink

section Edges

variable {τ : Type} {gs hs : List (Glyph ℚ τ)}

/-- The right edges of the glyphs that count towards the extent of a text. -/
def inkEdges (gs : List (Glyph ℚ τ)) : List ℚ := (gs.filter isInk).map fun g => g.x + g.width

theorem rightEdge_eq_foldl (gs : List (Glyph ℚ τ)) : rightEdge gs = (inkEdges gs).foldl max 0 := by
  simp [rightEdge, inkEdges, List.foldl_map, List.foldl_filter, Scalar.larger_eq_max]

/-- The right edge of a text is the greatest of its edges unless all of them are negative. -/
theorem rightEdge_eq_max {edge : ℚ} (hedge : IsGreatest {x | x ∈ inkEdges gs} edge) :
    rightEdge gs = max 0 edge := by
  have hfold := isGreatest_foldl_max 0 (inkEdges gs)
  have hinsert : {x | x ∈ 0 :: inkEdges gs} = insert 0 {x | x ∈ inkEdges gs} := by
    ext x
    simp
  rw [hinsert] at hfold
  rw [rightEdge_eq_foldl]
  exact hfold.unique (hedge.insert 0)

theorem HasInk.exists_isGreatest (h : HasInk gs) :
    ∃ edge, IsGreatest {x | x ∈ inkEdges gs} edge := by
  obtain ⟨g, hg, hink⟩ := h
  have hmem : g ∈ gs.filter isInk := List.mem_filter.mpr ⟨hg, hink⟩
  obtain ⟨k, rest, hcons⟩ := List.exists_cons_of_ne_nil (List.ne_nil_of_mem hmem)
  refine ⟨(rest.map fun g => g.x + g.width).foldl max (k.x + k.width), ?_⟩
  rw [inkEdges, hcons]
  exact isGreatest_foldl_max ..

/-- Passes that leave the text where it stands leave its edges alone. -/
theorem inkEdges_stays (h : List.Forall₂ Stays gs hs) : inkEdges hs = inkEdges gs := by
  induction h with
  | nil => rfl
  | @cons g k gs hs hgk _ ih =>
    have hink := hgk.isInk
    simp only [inkEdges] at ih ⊢
    cases hg : g.isInk with
    | false => simp [hink, hg, ih]
    | true =>
      have hann : g.annotates = false := by simp_all [isInk]
      simp [hink, hg, ih, hgk.x hann, hgk.width]

variable [Scalar τ] (s : Style ℚ τ) (table : ClassTable) (startTime : τ)
  (blocks : List (List (Glyph ℚ τ)))

/-- Lines are aligned towards the right edge of the text area or of the text, whichever lies
further right. -/
theorem alignEdge_eq_max : s.alignEdge table startTime blocks =
    max (s.left + s.alignWidth) (rightEdge (s.unaligned table startTime blocks)) := by
  rw [Style.alignEdge, Scalar.larger_eq_max, ← max_add_add_left, add_sub_cancel]

/-- Text set at the left margin has the edges it was placed with. -/
theorem inkEdges_layout (hleft : s.alignment.isLeft = true) :
    inkEdges (s.layout table startTime blocks).glyphs =
      inkEdges (s.unaligned table startTime blocks) := by
  rw [glyphs_layout, Style.aligned, alignLines, if_pos hleft]
  exact inkEdges_stays (stays_assignIndices 0 _)

/-- Of a text at the left margin the width is the right edge of the text area or of the text,
whichever lies further right, unless both are negative: then it is 0. -/
theorem Style.layout_reaches (hfraction : s.alignment.fraction = 0)
    (hjustify : s.alignment.justify = false)
    (hink : ∃ gs ∈ blocks, HasInk (s.breakLines table gs)) :
    ∃ edge, IsGreatest {x | x ∈ inkEdges (s.layout table startTime blocks).glyphs} edge ∧
      (s.layout table startTime blocks).width = max 0 (max (s.left + s.alignWidth) edge) ∧
      ((s.layout table startTime blocks).width = max (s.left + s.alignWidth) edge ↔
        0 ≤ s.left + s.alignWidth ∨ 0 ≤ edge) := by
  have hleft : s.alignment.isLeft = true := by simp [Alignment.isLeft, hfraction, hjustify]
  obtain ⟨gs, hgs, hgsink⟩ := hink
  obtain ⟨edge, hedge⟩ := (hgsink.layout s table startTime hleft hgs).exists_isGreatest
  have hwidth : (s.layout table startTime blocks).width =
      max 0 (max (s.left + s.alignWidth) edge) := by
    rw [inkEdges_layout s table startTime blocks hleft] at hedge
    rw [width_layout, alignEdge_eq_max, rightEdge_eq_max hedge, max_left_comm]
  refine ⟨edge, hedge, hwidth, ?_⟩
  rw [hwidth, max_eq_right_iff, le_max_iff]

end Edges

/-- A style whose lines hold three glyphs of ten units. -/
def threeWide (left : ℚ) : Style ℚ ℚ := { Style.default.withWidth 30 with left }

/-- Two words, each of which fills a line. -/
def twoShortWords : List (Glyph ℚ ℚ) :=
  [.ofCode 97 10, .ofCode 97 10, .ofCode 32 10, .ofCode 98 10]

/-- The words on lines that start at `left`. -/
def linesFrom (left : ℚ) : Layout ℚ ℚ := (threeWide left).layout .default 0 [twoShortWords]

/-- Lines that start left of the origin and pass it: the first of them ends at the width. -/
theorem layout_reaches_linesFrom :
    (threeWide (-15)).alignment.fraction = 0 ∧ (threeWide (-15)).alignment.justify = false ∧
      (∃ gs ∈ [twoShortWords], HasInk ((threeWide (-15)).breakLines .default gs)) ∧
      ∃ edge, 0 ≤ edge ∧ (linesFrom (-15)).width =
        max ((threeWide (-15)).left + (threeWide (-15)).alignWidth) edge := by
  have hink : ∃ gs ∈ [twoShortWords], HasInk ((threeWide (-15)).breakLines .default gs) := by
    decide +kernel
  obtain ⟨edge, hedge, -, hright⟩ :=
    Style.layout_reaches (threeWide (-15)) .default 0 [twoShortWords] rfl rfl hink
  have hmem : 5 ∈ inkEdges (linesFrom (-15)).glyphs := by decide +kernel
  have hle : ∀ x ∈ inkEdges (linesFrom (-15)).glyphs, x ≤ edge := fun x hx => hedge.2 hx
  have hpos : 0 ≤ edge := le_trans (by norm_num) (hle 5 hmem)
  exact ⟨rfl, rfl, hink, edge, hpos, hright.mpr (.inr hpos)⟩

/-- Lines that lie left of the origin altogether: they end at -80, but the width is 0. -/
theorem not_reaches_linesFrom :
    (threeWide (-100)).alignment.fraction = 0 ∧ (threeWide (-100)).alignment.justify = false ∧
      IsGreatest {x | x ∈ inkEdges (linesFrom (-100)).glyphs} (-80) ∧
      (linesFrom (-100)).width ≠
        max ((threeWide (-100)).left + (threeWide (-100)).alignWidth) (-80) := by
  have hedges : inkEdges (linesFrom (-100)).glyphs = [-90, -80, -90] := by decide +kernel
  refine ⟨rfl, rfl, ?_, by decide +kernel⟩
  rw [hedges]
  exact ⟨by simp, by simp [upperBounds]; norm_num⟩

end Typeset
