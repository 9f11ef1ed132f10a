import Typeset.Proofs.Extent

/-!
# Slack spread over the gaps of a line

Each gap of a justified line takes its share of the slack. A glyph is moved by the share of the gaps
before it, rounded to the nearest whole number, so the rounding never adds up along the line, and no
two gaps get shares that differ by more than a unit. Lines are aligned one by one, in any order, as
long as no glyph lies on two of them.
-/

namespace Typeset

open Glyph

section Offsets

variable {slack : ℚ} {n : ℕ}

/-- The share of the first `k` of `n` gaps in the slack, rounded to the nearest whole number. -/
def gapOffset (slack : ℚ) (n k : ℕ) : ℤ := ⌊k * slack / n + 1 / 2⌋

theorem stretchBefore_eq (slack : ℚ) (n k : ℕ) :
    stretchBefore (slack / (n : ℚ)) k = gapOffset slack n k := by
  have harg : (k : ℚ) * (slack / (n : ℚ)) + Scalar.half = k * slack / n + 1 / 2 := by
    rw [mul_div_assoc]
    rfl
  rw [gapOffset, ← harg]
  rfl

/-- An offset is off by half a unit at most, however many gaps it counts. -/
theorem abs_gapOffset_sub_le (slack : ℚ) (n k : ℕ) :
    |(gapOffset slack n k : ℚ) - k * slack / n| ≤ 1 / 2 := by
  have hle := Int.floor_le (k * slack / n + 1 / 2 : ℚ)
  have hlt := Int.lt_floor_add_one (k * slack / n + 1 / 2 : ℚ)
  rw [gapOffset, abs_le]
  constructor <;> linarith

/-- One gap more adds its share, rounded down or up. -/
theorem gapOffset_succ_sub (slack : ℚ) (n k : ℕ) :
    gapOffset slack n (k + 1) - gapOffset slack n k = ⌊slack / n⌋ ∨
      gapOffset slack n (k + 1) - gapOffset slack n k = ⌈slack / n⌉ := by
  have hnext : ((k + 1 : ℕ) : ℚ) * slack / n + 1 / 2 = (k * slack / n + 1 / 2) + slack / n := by
    push_cast
    ring
  have hlow := Int.le_floor_add (k * slack / n + 1 / 2 : ℚ) (slack / n)
  have hhigh := Int.floor_le_ceil (slack / n : ℚ)
  have hceil := Int.ceil_le_floor_add_one (slack / n : ℚ)
  have hsum : ⌊(k * slack / n + 1 / 2 : ℚ) + slack / n⌋ ≤
      ⌊(k * slack / n + 1 / 2 : ℚ)⌋ + ⌈(slack / n : ℚ)⌉ := by
    rw [← Int.floor_add_intCast]
    exact Int.floor_le_floor (by linarith [Int.le_ceil (slack / n : ℚ)])
  rw [gapOffset, gapOffset, hnext]
  omega

theorem gapOffset_mono (hslack : 0 ≤ slack) (n : ℕ) : Monotone (gapOffset slack n) := by
  apply monotone_nat_of_le_succ
  intro k
  have hfloor : 0 ≤ ⌊slack / (n : ℚ)⌋ := Int.floor_nonneg.mpr (by positivity)
  have hceil : 0 ≤ ⌈slack / (n : ℚ)⌉ := Int.ceil_nonneg (by positivity)
  rcases gapOffset_succ_sub slack n k with h | h <;> omega

end Offsets

section Lines

variable {τ : Type} {row row' : List (Glyph ℚ τ)} {g : Glyph ℚ τ} {j : ℕ}

namespace Glyph

/-- The glyph stands at the position of its line and counts there: it is no annotation, nor the
replaced glyph at the end. -/
structure CountsAt (row : List (Glyph ℚ τ)) (j : ℕ) (g : Glyph ℚ τ) : Prop where
  here : row[j]? = some g
  text : g.annotates = false
  unreplaced : j + 1 = row.length → g.split ≠ .replace

/-- A space that slack may widen stands at the position. -/
def GapAt (row : List (Glyph ℚ τ)) (j : ℕ) : Prop := ∃ g, CountsAt row j g ∧ g.code = 0x20

theorem countsAt_iff : CountsAt row j g ↔ (body row)[j]? = some g ∧ g.annotates = false := by
  constructor
  · intro h
    rw [getElem?_body (lt_length_body h.here h.unreplaced)]
    exact ⟨h.here, h.text⟩
  · rintro ⟨hg, hann⟩
    have hj := (List.getElem?_eq_some_iff.mp hg).1
    refine ⟨(getElem?_body hj).symm.trans hg, hann, fun hlast hreplace => ?_⟩
    have hends : endsReplaced row = true := by
      rw [endsReplaced, List.getLast?_eq_getElem?, ← hlast, Nat.add_sub_cancel,
        ← getElem?_body hj, hg]
      simp [hreplace]
    rw [body, if_pos hends, List.length_dropLast] at hj
    omega

theorem gapAt_iff : GapAt row j ↔ ∃ g, (body row)[j]? = some g ∧ g.stretches = true := by
  simp [GapAt, countsAt_iff, stretches, and_assoc]

instance (row : List (Glyph ℚ τ)) : DecidablePred (GapAt row) := fun j =>
  decidable_of_iff ((body row)[j]?.any stretches = true) (by simp [gapAt_iff, Option.any_eq_true])

/-- The number of gaps of a line before a position. -/
def gapsBefore (row : List (Glyph ℚ τ)) (j : ℕ) : ℕ := Nat.count (GapAt row) j

/-- The number of gaps of a line. -/
def gapCount (row : List (Glyph ℚ τ)) : ℕ := gapsBefore row row.length

theorem gapsBefore_eq (row : List (Glyph ℚ τ)) (j : ℕ) :
    gapsBefore row j = ((body row).take j).countP stretches := by
  induction j with
  | zero => simp [gapsBefore]
  | succ j ih =>
    rw [gapsBefore, Nat.count_succ, ← gapsBefore, ih, List.take_add_one, List.countP_append]
    cases hg : (body row)[j]? <;> simp [gapAt_iff, hg]

theorem gapCount_eq (row : List (Glyph ℚ τ)) : gapCount row = stretchCount row := by
  rw [gapCount, gapsBefore_eq, List.take_of_length_le (body_sublist row).length_le, stretchCount]

theorem length_le_body (row : List (Glyph ℚ τ)) : row.length ≤ (body row).length + 1 := by
  unfold body
  split_ifs
  · rw [List.length_dropLast]
    omega
  · omega

theorem gapsBefore_of_lt (hj : j < row.length) :
    gapsBefore row j = (row.take j).countP stretches := by
  have hle := length_le_body row
  conv_rhs => rw [← body_append_marker row, List.take_append_of_le_length (by omega)]
  exact gapsBefore_eq row j

/-- The right edge of what counts on a line, or 0 where that lies further right. -/
def IsInkEdge (row : List (Glyph ℚ τ)) (ink : ℚ) : Prop :=
  IsGreatest {x | x = 0 ∨ ∃ j g, CountsAt row j g ∧ g.x + g.width = x} ink

theorem isInkEdge_lineInk (row : List (Glyph ℚ τ)) : IsInkEdge row (lineInk row) := by
  have hedges := isGreatest_foldl_larger (fun g => g.x + g.width) (body row) annotates 0
  have hcounts : {x | x = 0 ∨ ∃ j g, CountsAt row j g ∧ g.x + g.width = x} =
      {x | x = 0 ∨ ∃ g ∈ body row, g.annotates = false ∧ g.x + g.width = x} := by
    ext x
    simp only [countsAt_iff, List.mem_iff_getElem?, Set.mem_ofPred_eq]
    grind
  rwa [← hcounts] at hedges

end Glyph

/-- A line whose slack is spread over its gaps: every glyph is moved by the offset of the gaps
before it, which is never off by more than half a unit and grows evenly. -/
structure Spreads (slack : ℚ) (row row' : List (Glyph ℚ τ)) : Prop where
  moved : ∀ j, row'[j]? =
    row[j]?.map (shiftX (gapOffset slack (gapCount row) (gapsBefore row j) : ℚ))
  near : ∀ k : ℕ, |(gapOffset slack (gapCount row) k : ℚ) - k * slack / gapCount row| ≤ 1 / 2
  even : ∀ k, gapOffset slack (gapCount row) (k + 1) - gapOffset slack (gapCount row) k =
      ⌊slack / gapCount row⌋ ∨
    gapOffset slack (gapCount row) (k + 1) - gapOffset slack (gapCount row) k =
      ⌈slack / gapCount row⌉
  mono : 0 ≤ slack → Monotone (gapOffset slack (gapCount row))
  widens : 0 ≤ slack → ∀ (i j : ℕ) (g h g' h' : Glyph ℚ τ), i ≤ j → row[i]? = some g →
    row[j]? = some h → row'[i]? = some g' → row'[j]? = some h' → h.x - g.x ≤ h'.x - g'.x

/-- A line and what justification makes of it: a line whose ink reaches the largest coordinate
stays, the last of a paragraph and one without gaps move as a whole, and any other has its slack
spread. -/
structure Justifies (fraction target ink : ℚ) (ends : Bool) (row row' : List (Glyph ℚ τ)) :
    Prop where
  edge : IsInkEdge row ink
  full : Scalar.maxExtent ≤ ink → row' = row
  rigid : ink < Scalar.maxExtent → ends = true ∨ gapCount row = 0 →
    row' = row.map (shiftX ((target - ink) * fraction))
  spread : ink < Scalar.maxExtent → ends = false → 0 < gapCount row →
    Spreads (target - ink) row row'

theorem getElem?_spread (slack : ℚ) (row : List (Glyph ℚ τ)) (j : ℕ) :
    (stretchLine (slack / (gapCount row : ℚ)) row)[j]? =
      row[j]?.map (shiftX (gapOffset slack (gapCount row) (gapsBefore row j) : ℚ)) := by
  rw [getElem?_stretchLine]
  rcases Nat.lt_or_ge j row.length with hj | hj
  · rw [← gapsBefore_of_lt hj, stretchBefore_eq]
  · simp [hj]

theorem spreads_stretchLine (slack : ℚ) (row : List (Glyph ℚ τ)) :
    Spreads slack row (stretchLine (slack / (gapCount row : ℚ)) row) where
  moved := getElem?_spread slack row
  near := abs_gapOffset_sub_le slack _
  even := gapOffset_succ_sub slack _
  mono hslack := gapOffset_mono hslack _
  widens := by
    intro hslack i j g h g' h' hij hg hh hg' hh'
    have hbefore : gapsBefore row i ≤ gapsBefore row j := Nat.count_monotone _ hij
    have hoffset : (gapOffset slack (gapCount row) (gapsBefore row i) : ℚ) ≤
        gapOffset slack (gapCount row) (gapsBefore row j) :=
      Int.cast_le.mpr (gapOffset_mono hslack _ hbefore)
    rw [getElem?_spread, hg, Option.map_some, Option.some.injEq] at hg'
    rw [getElem?_spread, hh, Option.map_some, Option.some.injEq] at hh'
    rw [← hg', ← hh']
    simp only [shiftX]
    linarith

theorem justifies_alignLine {a : Alignment ℚ} (ha : a.justify = true) (target : ℚ) (ends : Bool)
    (row : List (Glyph ℚ τ)) :
    Justifies a.fraction target (lineInk row) ends row (alignLine a target ends row) where
  edge := isInkEdge_lineInk row
  full hfull := by simp [alignLine, hfull]
  rigid hink hrigid := by
    rw [gapCount_eq] at hrigid
    rcases hrigid with hrigid | hrigid <;> simp [alignLine, not_le.mpr hink, hrigid]
  spread hink hends hgaps := by
    have hspreads := spreads_stretchLine (target - lineInk row) row
    rw [gapCount_eq] at hgaps hspreads
    simpa [alignLine, not_le.mpr hink, ha, hends, hgaps] using hspreads

end Lines

/-- Justification takes the lines of a text one by one, leaves what lies on none of them, and moves
glyphs along their lines only. -/
theorem alignLines_justifies {τ : Type} {a : Alignment ℚ} (ha : a.justify = true) (target : ℚ)
    {rows : List (Line ℚ τ)} {gs : List (Glyph ℚ τ)}
    (hfits : ∀ l ∈ rows, l.span.fits gs.length = true)
    (hdisjoint : rows.Pairwise fun k l => k.span.Disjoint l.span) :
    ∃ hs, alignLines? a target rows gs = some hs ∧ List.Forall₂ Moved gs hs ∧
      (∀ i, (∀ l ∈ rows, i ∉ l.span) → hs[i]? = gs[i]?) ∧
      ∀ l ∈ rows, ∃ ink, Justifies a.fraction target ink l.endsParagraph (l.span.slice gs)
        (l.span.slice hs) := by
  have hleft : a.isLeft = false := by simp [Alignment.isLeft, ha]
  have hordered : ∀ l ∈ rows, l.span.start ≤ l.span.stop := by
    intro l hl
    have hspan := hfits l hl
    simp only [Span.fits, Bool.and_eq_true, decide_eq_true_eq] at hspan
    exact hspan.1
  refine ⟨alignLines a target rows gs, ?_, moved_alignLines a target rows gs hordered,
    fun i => getElem?_alignLines a target hfits, ?_⟩
  · rw [alignLines?, List.all_eq_true.mpr hfits, Bool.or_true, if_pos rfl]
  · intro l hl
    rw [slice_alignLines a target hleft hfits hdisjoint l hl]
    exact ⟨_, justifies_alignLine ha target l.endsParagraph (l.span.slice gs)⟩

/-- Three letters with two spaces between them and a replaced space behind, and two letters more,
each glyph ten units wide. -/
def twoGaps : List (Glyph ℚ ℚ) :=
  [.ofCode 97 10, { (.ofCode 32 10 : Glyph ℚ ℚ) with x := 10 },
    { (.ofCode 98 10 : Glyph ℚ ℚ) with x := 20 }, { (.ofCode 32 10 : Glyph ℚ ℚ) with x := 30 },
    { (.ofCode 99 10 : Glyph ℚ ℚ) with x := 40 },
    { (.ofCode 32 10 : Glyph ℚ ℚ) with x := 50, split := .replace }, .ofCode 100 10,
    { (.ofCode 101 10 : Glyph ℚ ℚ) with x := 10 }]

/-- The last line of the text and, after it, the first. The last glyph is on neither. -/
def gapLines : List (Line ℚ ℚ) :=
  [⟨0, 0, 0, ⟨6, 7⟩, 0, true⟩, ⟨0, 0, 0, ⟨0, 6⟩, 0, false⟩]

theorem alignLines_justifies_twoGaps :
    ∃ hs, alignLines? ⟨1, true⟩ 55 gapLines twoGaps = some hs ∧
      hs.map Glyph.x = [0, 10, 23, 33, 45, 55, 45, 10] ∧ List.Forall₂ Moved twoGaps hs ∧
      ∀ l ∈ gapLines, ∃ ink, Justifies 1 55 ink l.endsParagraph (l.span.slice twoGaps)
        (l.span.slice hs) := by
  have hdisjoint : gapLines.Pairwise fun k l => k.span.Disjoint l.span := by
    simp only [gapLines, List.pairwise_pair]
    rintro i ⟨hstart, _⟩ ⟨_, hstop⟩
    exact absurd (hstart.trans_lt hstop) (by decide)
  have hfits : ∀ l ∈ gapLines, l.span.fits twoGaps.length = true := by decide
  obtain ⟨hs, hsome, hmoved, _, hlines⟩ :=
    alignLines_justifies (a := ⟨1, true⟩) rfl 55 hfits hdisjoint
  have hshown : (alignLines? ⟨1, true⟩ 55 gapLines twoGaps).map (List.map Glyph.x) =
      some [0, 10, 23, 33, 45, 55, 45, 10] := by
    decide +kernel
  rw [hsome, Option.map_some, Option.some.injEq] at hshown
  exact ⟨hs, hsome, hshown, hmoved, hlines⟩

end Typeset
