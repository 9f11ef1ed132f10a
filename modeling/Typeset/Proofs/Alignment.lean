import Typeset.Proofs.Abutting

/-!
# Alignment line by line

Aligning a text aligns its lines, each in its place. A stretch of a line without a space that widens
moves as one piece, and on a line that is not justified everything does.
-/

namespace Typeset

open Glyph

variable {τ : Type} {d e : ℚ} {g h k : Glyph ℚ τ} {gs row : List (Glyph ℚ τ)}

/-- A glyph that keeps its content and is moved along the line. -/
structure Glyph.MovedBy (d : ℚ) (g h : Glyph ℚ τ) : Prop extends Keeps g h where
  x : h.x = g.x + d

theorem Glyph.MovedBy.trans (hg : MovedBy d g h) (hh : MovedBy e h k) : MovedBy (d + e) g k where
  toKeeps := hg.toKeeps.trans hh.toKeeps
  x := by rw [hh.x, hg.x, add_assoc]

theorem movedBy_shiftX (d : ℚ) (g : Glyph ℚ τ) : MovedBy d g (g.shiftX d) := ⟨keeps_with .., rfl⟩

/-- Some spaces among the glyphs of a line widen where the line is justified. -/
def Widens (a : Alignment ℚ) (ends : Bool) (gs : List (Glyph ℚ τ)) : Prop :=
  a.justify = true ∧ ends = false ∧ ∃ g ∈ gs, g.stretches = true

instance (a : Alignment ℚ) (ends : Bool) (gs : List (Glyph ℚ τ)) : Decidable (Widens a ends gs) :=
  inferInstanceAs (Decidable (a.justify = true ∧ ends = false ∧ ∃ g ∈ gs, g.stretches = true))

theorem Widens.keeps {a : Alignment ℚ} {ends : Bool} {hs : List (Glyph ℚ τ)}
    (hk : List.Forall₂ Keeps gs hs) (h : Widens a ends gs) : Widens a ends hs := by
  obtain ⟨hjustify, hends, g, hg, hstretches⟩ := h
  obtain ⟨i, hi⟩ := List.mem_iff_getElem?.mp hg
  obtain ⟨k, hk, hgk⟩ := exists_left_of_forall₂ hk.flip hi
  exact ⟨hjustify, hends, k, List.mem_of_getElem? hk, by rwa [stretches, annotates, hgk.ruby,
    hgk.code]⟩

/-- Glyphs that do not widen move alike. -/
theorem sweep_stretchStep (share : ℚ) (s : ℕ × ℚ) (hstill : ∀ g ∈ gs, g.stretches = false) :
    sweep (stretchStep share) s gs = (s, gs.map (shiftX s.2)) := by
  induction gs with
  | nil => rfl
  | cons g gs ih =>
    have hstep : stretchStep share s g = (s, g.shiftX s.2) := by
      simp [stretchStep, hstill g]
    rw [sweep_cons, hstep, ih fun k hk => hstill k (by simp [hk]), List.map_cons]

theorem exists_slice_sweep (share : ℚ) (s : ℕ × ℚ) {u : Span} (hu : u.start ≤ u.stop)
    (hfits : u.stop ≤ row.length) (hstill : ∀ g ∈ u.slice row, g.stretches = false) :
    ∃ d, u.slice (sweep (stretchStep share) s row).2 = (u.slice row).map (shiftX d) := by
  have hlength : (u.slice row).length = u.stop - u.start :=
    u.length_slice row (by simp [Span.fits, hu, hfits])
  refine ⟨(sweep (stretchStep share) s (row.take u.start)).1.2, ?_⟩
  conv_lhs => rw [← Span.take_append_slice_append_drop hu row]
  rw [sweep_append, sweep_append, sweep_stretchStep share _ hstill]
  refine Span.slice_append_mid ?_ ?_ _
  · rw [length_sweep, List.length_take]
    omega
  · rw [List.length_map, hlength]

/-- A stretch of a line that does not widen moves as one piece. -/
theorem exists_slice_alignLine (a : Alignment ℚ) (target : ℚ) {ends : Bool} {u : Span}
    (hu : u.start ≤ u.stop) (hfits : u.stop ≤ row.length) (hstill : ¬ Widens a ends (u.slice row)) :
    ∃ d, u.slice (alignLine a target ends row) = (u.slice row).map (shiftX d) := by
  unfold alignLine
  dsimp only
  split_ifs with hfull hjustify
  · refine ⟨0, (List.map_id'' (fun g => ?_) _).symm⟩
    rw [shiftX, add_zero]
  · simp only [Bool.and_eq_true, Bool.not_eq_true', decide_eq_true_eq] at hjustify
    rw [stretchLine_eq]
    refine exists_slice_sweep _ _ hu hfits fun g hg => Bool.eq_false_iff.mpr fun hg' => ?_
    exact hstill ⟨hjustify.1.1, hjustify.1.2, g, hg, hg'⟩
  · exact ⟨_, Span.slice_map ..⟩

/-- Aligning a text moves a stretch of a line that does not widen as one piece. -/
theorem exists_movedBy_alignLines (a : Alignment ℚ) (target : ℚ) {rows : List (Line ℚ τ)}
    (htiles : Span.Tiles 0 gs.length (rows.map Line.span)) {l : Line ℚ τ} (hl : l ∈ rows)
    {u : Span} (hstart : l.span.start ≤ u.start) (hu : u.start ≤ u.stop)
    (hstop : u.stop ≤ l.span.stop) (hstill : ¬ Widens a l.endsParagraph (u.slice gs)) :
    ∃ d, List.Forall₂ (MovedBy d) (u.slice gs) (u.slice (alignLines a target rows gs)) := by
  cases hleft : a.isLeft with
  | true =>
    rw [alignLines, if_pos hleft]
    exact ⟨0, forall₂_refl (fun g => ⟨.refl g, (add_zero _).symm⟩) _⟩
  | false =>
    have hlength := l.span.length_slice gs (htiles.fits (List.mem_map_of_mem hl))
    have hpart := Span.slice_within (β := Glyph ℚ τ) hstart hu hstop
    rw [hpart] at hstill
    obtain ⟨d, hd⟩ := exists_slice_alignLine a target (by dsimp only; omega)
      (by dsimp only; omega) hstill
    refine ⟨d, ?_⟩
    rw [hpart, hpart, slice_alignLines_of_tiles a target hleft htiles l hl, hd,
      List.forall₂_map_right_iff]
    exact List.forall₂_same.mpr fun g _ => movedBy_shiftX d g

section Layout

variable [Scalar τ] (s : Style ℚ τ) (table : ClassTable) (startTime : τ)

/-- The text of a layout before its lines are aligned. -/
def Style.unaligned (blocks : List (List (Glyph ℚ τ))) : List (Glyph ℚ τ) :=
  (sweep (s.layParagraph table) ⟨s.top, startTime, 0⟩ blocks).2.flatMap Prod.snd

/-- The text of a paragraph, cut out before the lines are aligned. -/
theorem slice_unaligned (pre post : List (List (Glyph ℚ τ))) (gs : List (Glyph ℚ τ)) :
    (⟨pre.flatten.length, pre.flatten.length + gs.length⟩ : Span).slice
        (s.unaligned table startTime (pre ++ gs :: post)) =
      (s.layParagraph table (sweep (s.layParagraph table) ⟨s.top, startTime, 0⟩ pre).1 gs).2.2 := by
  rw [Style.unaligned, sweep_append, sweep_cons, List.flatMap_append, List.flatMap_cons]
  refine Span.slice_append_mid ?_ ?_ _
  · exact (setAt_sweep s table ⟨s.top, startTime, 0⟩ pre).length_eq
  · rw [(setAt_layParagraph s table _ gs).length_eq]
    exact (Nat.add_sub_cancel_left ..).symm

variable (blocks : List (List (Glyph ℚ τ)))

/-- The lines of the text before it is aligned, which leaves them where they are. -/
def Style.unalignedLines : List (Line ℚ τ) :=
  (sweep (s.layParagraph table) ⟨s.top, startTime, 0⟩ blocks).2.flatMap Prod.fst

/-- The right edge that lines are aligned towards. -/
def Style.alignEdge : ℚ :=
  s.left + Scalar.larger s.alignWidth (rightEdge (s.unaligned table startTime blocks) - s.left)

theorem tiles_unaligned : Span.Tiles 0 (s.unaligned table startTime blocks).length
    ((s.unalignedLines table startTime blocks).map Line.span) := by
  have hset := setAt_sweep s table ⟨s.top, startTime, 0⟩ blocks
  have htiles := hset.tiles
  rwa [Nat.zero_add, ← hset.length_eq] at htiles

/-- The text of a layout with its lines aligned. -/
def Style.aligned : List (Glyph ℚ τ) :=
  alignLines s.alignment (s.alignEdge table startTime blocks)
    (s.unalignedLines table startTime blocks) (s.unaligned table startTime blocks)

/-- Alignment moves the glyphs of a layout along their lines. -/
theorem moved_unaligned : List.Forall₂ Moved (s.unaligned table startTime blocks)
    (s.aligned table startTime blocks) := by
  apply moved_alignLines
  intro l hl
  exact ((tiles_unaligned s table startTime blocks).bounds (List.mem_map_of_mem hl)).2.1.le

theorem glyphs_layout : (s.layout table startTime blocks).glyphs =
    (assignIndices 0 (s.aligned table startTime blocks)).2 := rfl

theorem width_layout : (s.layout table startTime blocks).width =
    s.alignEdge table startTime blocks := rfl

theorem lines_layout : (s.layout table startTime blocks).lines =
    timeLines (s.layout table startTime blocks).glyphs
      (s.unalignedLines table startTime blocks) := rfl

theorem span_unaligned : (s.layout table startTime blocks).lines.map Line.span =
    (s.unalignedLines table startTime blocks).map Line.span := by
  rw [lines_layout, map_span_timeLines]

theorem keeps_unaligned : List.Forall₂ Keeps (s.unaligned table startTime blocks)
    (s.layout table startTime blocks).glyphs :=
  forall₂_comp (moved_unaligned s table startTime blocks) (stays_assignIndices _ _)
    fun _ _ _ hg hh => hg.keeps.trans hh.toKeeps

/-- A stretch of a line of the layout that does not widen is moved there as one piece. -/
theorem exists_movedBy_layout {l : Line ℚ τ} (hl : l ∈ (s.layout table startTime blocks).lines)
    {u : Span} (hstart : l.span.start ≤ u.start) (hu : u.start ≤ u.stop)
    (hstop : u.stop ≤ l.span.stop)
    (hstill : ¬ Widens s.alignment l.endsParagraph
      (u.slice (s.unaligned table startTime blocks))) :
    ∃ d, List.Forall₂ (MovedBy d) (u.slice (s.unaligned table startTime blocks))
      (u.slice (s.layout table startTime blocks).glyphs) := by
  have htiles := tiles_unaligned s table startTime blocks
  obtain ⟨k, hk, rfl⟩ := List.mem_map.mp hl
  dsimp only at hstart hstop hstill
  -- numbering leaves the positions alone
  have hnumbered : ∀ gs : List (Glyph ℚ τ), List.Forall₂ (MovedBy 0) gs (assignIndices 0 gs).2 := by
    intro gs
    apply (written_assignIndices 0 gs).imp
    rintro g _ ⟨index, rfl, _⟩
    exact ⟨keeps_with .., (add_zero _).symm⟩
  obtain ⟨d, hd⟩ := exists_movedBy_alignLines s.alignment (s.alignEdge table startTime blocks)
    htiles hk hstart hu hstop hstill
  refine ⟨d + 0, forall₂_comp hd (forall₂_span (hnumbered _) u) ?_⟩
  exact fun _ _ _ => MovedBy.trans

end Layout

end Typeset
