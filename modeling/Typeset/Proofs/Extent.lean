import Typeset.Proofs.Alignment

/-!
# Text within the reported width

The text area ends right of the ink of every line, so the slack of a line is never negative. A line
is moved by a part of its slack. Where it is justified a glyph is moved by the share of the spaces
before it, rounded to the nearest whole number, so it passes the edge by half a unit at most. Only
the replaced glyph at the end of a line, which no edge counts, may stand outside.
-/

namespace Typeset

open Glyph

section Lines

variable {τ : Type} {row : List (Glyph ℚ τ)} {g : Glyph ℚ τ} {share target : ℚ} {j : ℕ}

/-- Rounded to the nearest, a share grows by half a unit at most. -/
theorem stretchBefore_le (share : ℚ) (k : ℕ) :
    stretchBefore share k ≤ k * share + Scalar.half := Int.floor_le _

theorem stretchBefore_mono (hshare : 0 ≤ share) : Monotone (stretchBefore share) :=
  monotone_nat_of_le_succ (stretchBefore_le_succ hshare)

/-- What a walk has seen of a line: its spaces, and the share before the next glyph. -/
theorem sweep_stretchStep_state (share : ℚ) (row : List (Glyph ℚ τ)) (k : ℕ) :
    (sweep (stretchStep share) (k, stretchBefore share k) row).1 =
      (k + row.countP stretches, stretchBefore share (k + row.countP stretches)) := by
  induction row generalizing k with
  | nil => rfl
  | cons g row ih =>
    rw [sweep_cons, List.countP_cons]
    cases hg : g.stretches with
    | true =>
      have hstep : (stretchStep share (k, stretchBefore share k) g).1 =
          (k + 1, stretchBefore share (k + 1)) := by simp [stretchStep, hg]
      simp [hstep, ih, Nat.add_assoc, Nat.add_comm 1]
    | false =>
      have hstep : (stretchStep share (k, stretchBefore share k) g).1 =
          (k, stretchBefore share k) := by simp [stretchStep, hg]
      simp [hstep, ih]

/-- A glyph of a widened line is moved by the share of the spaces before it. -/
theorem getElem?_stretchLine (share : ℚ) (row : List (Glyph ℚ τ)) (j : ℕ) :
    (stretchLine share row)[j]? =
      row[j]?.map (shiftX (stretchBefore share ((row.take j).countP stretches))) := by
  have hstate := sweep_stretchStep_state share (row.take j) 0
  rw [stretchBefore_zero, Nat.zero_add] at hstate
  rw [stretchLine_eq, getElem?_sweep, hstate]
  rfl

theorem getElem?_body (hj : j < (body row).length) : (body row)[j]? = row[j]? := by
  conv_rhs => rw [← body_append_marker row]
  exact (List.getElem?_append_left hj).symm

/-- A glyph of a line stands before the replaced glyph at its end unless it is that glyph. -/
theorem lt_length_body (hg : row[j]? = some g) (hlast : j + 1 = row.length → g.split ≠ .replace) :
    j < (body row).length := by
  have hlt := (List.getElem?_eq_some_iff.mp hg).1
  unfold body
  split_ifs with hends
  · have hne : j + 1 ≠ row.length := by
      intro hj
      have hrow : row ≠ [] := List.length_pos_iff.mp (by omega)
      have hend : row.getLast hrow = g := by
        rw [List.getLast_eq_getElem]
        simpa [← hj] using (List.getElem?_eq_some_iff.mp hg).2
      exact hlast hj (hend ▸ (endsReplaced_iff hrow).mp hends)
    rw [List.length_dropLast]
    omega
  · exact hlt

/-- The text of a line ends before any bound on its ink. -/
theorem le_of_lineInk_le (hink : lineInk row ≤ target) (hj : j < (body row).length)
    (hg : row[j]? = some g) (hann : g.annotates = false) : g.x + g.width ≤ target := by
  rw [← getElem?_body hj] at hg
  exact (lineInk_le_iff.mp hink).2 g (List.mem_of_getElem? hg) hann

/-- How far rounding may move text past the edge. -/
def Alignment.overhang (a : Alignment ℚ) : ℚ := if a.justify then 1 / 2 else 0

theorem Alignment.overhang_nonneg (a : Alignment ℚ) : 0 ≤ a.overhang := by
  unfold Alignment.overhang
  split_ifs <;> norm_num

/-- Spread over its spaces, the slack of a line moves its text by half a unit more at most. -/
theorem stretchBefore_body_le {slack : ℚ} (hslack : 0 ≤ slack) (hspaces : 0 < stretchCount row)
    (hj : j < (body row).length) :
    stretchBefore (slack / (stretchCount row : ℚ)) ((row.take j).countP stretches) ≤
      slack + 1 / 2 := by
  have hpos : (0 : ℚ) < stretchCount row := Nat.cast_pos.mpr hspaces
  have hseen : (row.take j).countP stretches ≤ stretchCount row := by
    have htake : row.take j = (body row).take j := by
      conv_lhs => rw [← body_append_marker row]
      exact List.take_append_of_le_length hj.le
    rw [htake]
    exact (List.take_sublist j _).countP_le
  calc stretchBefore (slack / (stretchCount row : ℚ)) ((row.take j).countP stretches)
      ≤ stretchBefore (slack / (stretchCount row : ℚ)) (stretchCount row) :=
        stretchBefore_mono (div_nonneg hslack hpos.le) hseen
    _ ≤ stretchCount row * (slack / (stretchCount row : ℚ)) + Scalar.half :=
        stretchBefore_le _ _
    _ = slack + 1 / 2 := by
        rw [mul_div_cancel₀ _ hpos.ne']
        rfl

/-- Aligned, the text of a line stays within the text area, but for rounding. -/
theorem le_alignLine (a : Alignment ℚ) (hfraction : a.fraction ≤ 1) (ends : Bool)
    (hink : lineInk row ≤ target) (hj : j < (body row).length)
    (hg : (alignLine a target ends row)[j]? = some g) (hann : g.annotates = false) :
    g.x + g.width ≤ target + a.overhang := by
  have hslack := sub_nonneg.mpr hink
  have hover := a.overhang_nonneg
  unfold alignLine at hg
  dsimp only at hg
  split_ifs at hg with hfull hjustify
  · -- the ink reaches the largest coordinate, and the line stays where it is
    have hle := le_of_lineInk_le hink hj hg hann
    linarith
  · simp only [Bool.and_eq_true, decide_eq_true_eq] at hjustify
    rw [getElem?_stretchLine] at hg
    obtain ⟨k, hk, rfl⟩ := Option.map_eq_some_iff.mp hg
    have hle : k.x + k.width ≤ lineInk row := le_of_lineInk_le le_rfl hj hk hann
    have hmoved := stretchBefore_body_le hslack hjustify.2 hj
    have hhalf : a.overhang = 1 / 2 := if_pos hjustify.1.1
    simp only [shiftX]
    linarith
  · rw [List.getElem?_map] at hg
    obtain ⟨k, hk, rfl⟩ := Option.map_eq_some_iff.mp hg
    have hle : k.x + k.width ≤ lineInk row := le_of_lineInk_le le_rfl hj hk hann
    have hmoved : (target - lineInk row) * a.fraction ≤ target - lineInk row :=
      mul_le_of_le_one_right hslack hfraction
    simp only [shiftX]
    linarith

end Lines

/-- The glyph at a position is replaced by the break that ends its line. -/
def Layout.ReplacedAt {α τ : Type} (L : Layout α τ) (i : ℕ) : Prop :=
  ∃ g, L.glyphs[i]? = some g ∧ g.split = .replace ∧ ∃ l ∈ L.lines, l.span.stop = i + 1

section Layout

variable {τ : Type} [Scalar τ] (s : Style ℚ τ) (table : ClassTable) (startTime : τ)
  (blocks : List (List (Glyph ℚ τ)))

/-- No line reaches further than the edge that it is aligned towards. -/
theorem lineInk_le_alignEdge : ∀ l ∈ s.unalignedLines table startTime blocks,
    lineInk (l.span.slice (s.unaligned table startTime blocks)) ≤
      s.alignEdge table startTime blocks := by
  intro l hl
  have hrow : l.span.slice (s.unaligned table startTime blocks) ∈
      s.rows table ⟨s.top, startTime, 0⟩ blocks := by
    rw [← map_slice_rows]
    exact List.mem_map_of_mem hl
  have hmem : ∀ g ∈ l.span.slice (s.unaligned table startTime blocks),
      g ∈ s.unaligned table startTime blocks := by
    intro g hg
    obtain ⟨i, _, _, hi⟩ := Span.mem_slice.mp hg
    exact List.mem_of_getElem? hi
  rw [Style.alignEdge, Scalar.larger_eq_max, ← sub_le_iff_le_add']
  apply le_max_of_le_right
  exact sub_le_sub_right (lineInk_le_rightEdge (joined_rows _ _ _ hrow) hmem) s.left

/-- The text of a layout ends within its width, but for the rounding of justified lines. -/
theorem Style.layout_within (hfraction : s.alignment.fraction ≤ 1) (i : ℕ) (g : Glyph ℚ τ)
    (hg : (s.layout table startTime blocks).glyphs[i]? = some g) (hann : g.annotates = false)
    (hmarker : ¬ (s.layout table startTime blocks).ReplacedAt i) :
    g.x + g.width ≤ (s.layout table startTime blocks).width + s.alignment.overhang := by
  have htiles := tiles_unaligned s table startTime blocks
  -- numbering keeps the glyph, alignment moves it along its line
  have hnumbered := hg
  rw [glyphs_layout] at hnumbered
  obtain ⟨k, hk, index, rfl, _⟩ := exists_left_of_forall₂ (written_assignIndices 0 _) hnumbered
  obtain ⟨u, hu, hku⟩ := exists_left_of_forall₂ (moved_unaligned s table startTime blocks) hk
  obtain ⟨_, hspan, hstart, hstop⟩ :=
    htiles.exists_mem (Nat.zero_le i) (List.getElem?_eq_some_iff.mp hu).1
  obtain ⟨l, hl, rfl⟩ := List.mem_map.mp hspan
  have hcut := Span.getElem?_slice (β := Glyph ℚ τ) hstart hstop
  have hlength := l.span.length_slice _ (htiles.fits hspan)
  have hbody : i - l.span.start <
      (body (l.span.slice (s.unaligned table startTime blocks))).length := by
    apply lt_length_body ((hcut _).trans hu)
    intro hlast hreplace
    rw [← span_unaligned] at hspan
    obtain ⟨m, hm, hml⟩ := List.mem_map.mp hspan
    have hstop' : m.span.stop = i + 1 := by
      rw [hml]
      omega
    exact hmarker ⟨_, hg, hku.split.trans hreplace, m, hm, hstop'⟩
  have hink := lineInk_le_alignEdge s table startTime blocks l hl
  rw [width_layout]
  cases hleft : s.alignment.isLeft with
  | true =>
    rw [Style.aligned, alignLines, if_pos hleft] at hk
    have hle := le_of_lineInk_le hink hbody ((hcut _).trans hk) hann
    exact hle.trans (le_add_of_nonneg_right s.alignment.overhang_nonneg)
  | false =>
    have hrow := (hcut _).trans hk
    rw [Style.aligned, slice_alignLines_of_tiles s.alignment _ hleft htiles l hl] at hrow
    have hle := le_alignLine s.alignment hfraction l.endsParagraph hink hbody hrow hann
    exact hle

end Layout

/-- A style that justifies lines and leaves them half a unit of slack. -/
def halfSlack : Style ℚ ℚ :=
  { Style.default.withWidth 3 with
    alignWidth := 7 / 2, alignment := Align.justify.toAlignment, language := .western }

/-- Three letters, of which the last goes to the next line. -/
def spacedText : Layout ℚ ℚ :=
  halfSlack.layout .default 0
    [[.ofCode 97 1, .ofCode 32 1, .ofCode 98 1, .ofCode 32 1, .ofCode 99 1]]

/-- Rounding moves the last letter of the first line past the edge as far as it ever may. -/
theorem layout_within_spacedText : ∃ g : Glyph ℚ ℚ, spacedText.glyphs[2]? = some g ∧
    g.annotates = false ∧ ¬ spacedText.ReplacedAt 2 ∧ g.x + g.width = spacedText.width + 1 / 2 ∧
      g.x + g.width ≤ spacedText.width + halfSlack.alignment.overhang := by
  have hshown : spacedText.glyphs[2]?.map
        (fun g : Glyph ℚ ℚ => (g.annotates, g.split, g.x + g.width)) =
      some (false, Split.none, spacedText.width + 1 / 2) := by
    decide +kernel
  obtain ⟨g, hg, hfields⟩ := Option.map_eq_some_iff.mp hshown
  simp only [Prod.mk.injEq] at hfields
  obtain ⟨hann, hsplit, hedge⟩ := hfields
  have hmarker : ¬ spacedText.ReplacedAt 2 := by
    rintro ⟨k, hk, hreplace, _⟩
    obtain rfl := Option.mem_unique hg hk
    rw [hsplit] at hreplace
    cases hreplace
  exact ⟨g, hg, hann, hmarker, hedge,
    Style.layout_within halfSlack .default 0 _ (by decide +kernel) 2 g hg hann hmarker⟩

end Typeset
