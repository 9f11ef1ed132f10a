import Typeset.Proofs.Alignment

/-!
# Lines in boxes

Each line stands under the one before, in a box as high as its text, which stands on one baseline.
The chain of boxes runs through all paragraphs, and an empty one moves nothing on. The passes that
follow move text along its line and annotations anywhere, but no text off its baseline.
-/

namespace Typeset

open Glyph

variable {τ : Type}

section Box

variable {spacing : LineSpacing ℚ} {row row' : List (Glyph ℚ τ)}

/-- Lines are not set closer than they are high. -/
structure LineSpacing.Nonneg (spacing : LineSpacing ℚ) : Prop where
  below : 0 ≤ spacing.below
  above : 0 ≤ spacing.above
  aboveRuby : 0 ≤ spacing.aboveRuby

/-- The room left above a line, more of it where the line holds an annotation. -/
def LineSpacing.lead (spacing : LineSpacing ℚ) (row : List (Glyph ℚ τ)) : ℚ :=
  spacing.above + if ∃ g ∈ row, g.annotates = true then spacing.aboveRuby else 0

theorem LineSpacing.Nonneg.lead (h : spacing.Nonneg) (row : List (Glyph ℚ τ)) :
    0 ≤ spacing.lead row := by
  have habove := h.above
  have hruby := h.aboveRuby
  unfold LineSpacing.lead
  split_ifs <;> linarith

theorem lineTop_eq (y : ℚ) : lineTop spacing y row = y + spacing.lead row := by
  simp [lineTop, LineSpacing.lead, add_assoc]

theorem lineHeight_le_iff {m : ℚ} :
    lineHeight row ≤ m ↔ 0 ≤ m ∧ ∀ g ∈ row, g.annotates = false → g.lineSpacing ≤ m := by
  apply foldl_iff (Q := (· ≤ m))
  intro height g
  split_ifs with hann <;> simp [hann, Scalar.larger_eq_max]

theorem lineAscent_le_iff {m : ℚ} :
    lineAscent row ≤ m ↔ 0 ≤ m ∧ ∀ g ∈ row, g.annotates = false → g.ascent ≤ m := by
  apply foldl_iff (Q := (· ≤ m))
  intro ascent g
  split_ifs with hann <;> simp [hann, Scalar.larger_eq_max]

theorem lineHeight_nonneg (row : List (Glyph ℚ τ)) : 0 ≤ lineHeight row :=
  (lineHeight_le_iff.mp le_rfl).1

theorem lead_congr (h : row'.map Glyph.annotates = row.map Glyph.annotates) :
    spacing.lead row' = spacing.lead row := by
  have hiff : (∃ g ∈ row', g.annotates = true) ↔ ∃ g ∈ row, g.annotates = true := by
    rw [← List.mem_map, h, List.mem_map]
  simp only [LineSpacing.lead, hiff]

theorem lineHeight_congr (h : row'.map (fun g => (g.annotates, g.lineSpacing)) =
    row.map fun g => (g.annotates, g.lineSpacing)) : lineHeight row' = lineHeight row := by
  have hfold : ∀ l : List (Glyph ℚ τ), lineHeight l =
      (l.map fun g => (g.annotates, g.lineSpacing)).foldl
        (fun height p => if p.1 then height else Scalar.larger height p.2) 0 := by
    intro l
    rw [List.foldl_map]
    rfl
  rw [hfold, hfold, h]

/-- A line is as high as the highest of its text. -/
theorem isGreatest_lineHeight (row : List (Glyph ℚ τ)) :
    IsGreatest {h | h = 0 ∨ ∃ g ∈ row, g.annotates = false ∧ g.lineSpacing = h}
      (lineHeight row) :=
  isGreatest_foldl_larger Glyph.lineSpacing row Glyph.annotates 0

/-- What a glyph keeps once its line is stacked: its part in annotated text, its break and its
vertical metrics, and its baseline unless it is an annotation. -/
structure Glyph.Rests (g h : Glyph ℚ τ) : Prop where
  ruby : h.ruby = g.ruby
  split : h.split = g.split
  lineSpacing : h.lineSpacing = g.lineSpacing
  ascent : h.ascent = g.ascent
  y : g.annotates = false → h.y = g.y

theorem Glyph.Rests.annotates {g h : Glyph ℚ τ} (hr : Rests g h) : h.annotates = g.annotates := by
  rw [Glyph.annotates, hr.ruby, Glyph.annotates]

theorem Glyph.Rests.trans {g h k : Glyph ℚ τ} (hg : Rests g h) (hh : Rests h k) : Rests g k where
  ruby := hh.ruby.trans hg.ruby
  split := hh.split.trans hg.split
  lineSpacing := hh.lineSpacing.trans hg.lineSpacing
  ascent := hh.ascent.trans hg.ascent
  y hann := (hh.y (hg.annotates.trans hann)).trans (hg.y hann)

theorem rests_with (g : Glyph ℚ τ) (x : ℚ) (time duration : τ) (index : ℤ) :
    Rests g { g with x, time, duration, index } := ⟨rfl, rfl, rfl, rfl, fun _ => rfl⟩

/-- The box of a line: its top, its baseline and its height. -/
def Line.frame (l : Line ℚ τ) : ℚ × ℚ × ℚ := (l.top, l.baseline, l.height)

/-- A row in its box, which is as high as the row: the text stands on the baseline, and none of it
rises above the top. -/
structure Line.Holds (l : Line ℚ τ) (row : List (Glyph ℚ τ)) : Prop where
  height : l.height = lineHeight row
  text : ∀ g ∈ row, g.annotates = false → g.y = l.baseline ∧ l.top ≤ g.y - g.ascent

theorem Line.Holds.pass {l l' : Line ℚ τ} (h : l.Holds row) (hframe : l'.frame = l.frame)
    (hrow : List.Forall₂ Rests row row') : l'.Holds row' := by
  simp only [Line.frame, Prod.mk.injEq] at hframe
  obtain ⟨htop, hbaseline, hheight⟩ := hframe
  constructor
  · rw [hheight, h.height]
    symm
    apply lineHeight_congr
    apply map_eq_of_forall₂ hrow
    intro g _ k hg
    rw [hg.annotates, hg.lineSpacing]
  · refine forall_mem_of_forall₂ (Q := fun k => k.annotates = false →
      k.y = l'.baseline ∧ l'.top ≤ k.y - k.ascent) hrow ?_ h.text
    intro g k hg htext hann
    have hann' := hg.annotates.symm.trans hann
    obtain ⟨hy, hle⟩ := htext hann'
    rw [hg.y hann', hg.ascent, hbaseline, htop]
    exact ⟨hy, hle⟩

end Box

/-- Rows in boxes, set one under the other from `y` down to `z`. -/
inductive Stacks (spacing : LineSpacing ℚ) :
    ℚ → List (Line ℚ τ) → List (List (Glyph ℚ τ)) → ℚ → Prop
  | nil (y : ℚ) : Stacks spacing y [] [] y
  | cons {y z : ℚ} {l : Line ℚ τ} {row : List (Glyph ℚ τ)} {ls : List (Line ℚ τ)}
      {rows : List (List (Glyph ℚ τ))} (top : l.top = y + spacing.lead row) (holds : l.Holds row)
      (rest : Stacks spacing (l.bottom + spacing.below) ls rows z) :
      Stacks spacing y (l :: ls) (row :: rows) z

section Stacks

variable {spacing : LineSpacing ℚ} {y z w : ℚ} {ls ls' : List (Line ℚ τ)}
  {rows rows' : List (List (Glyph ℚ τ))}

theorem Stacks.append (h : Stacks spacing y ls rows z) (h' : Stacks spacing z ls' rows' w) :
    Stacks spacing y (ls ++ ls') (rows ++ rows') w := by
  induction h with
  | nil => exact h'
  | cons top holds _ ih => exact .cons top holds (ih h')

/-- A pass that leaves text on its baseline leaves the rows in their boxes. -/
theorem Stacks.pass (h : Stacks spacing y ls rows z)
    (hframes : ls'.map Line.frame = ls.map Line.frame)
    (hrows : List.Forall₂ (List.Forall₂ Rests) rows rows') : Stacks spacing y ls' rows' z := by
  induction h generalizing ls' rows' with
  | nil =>
    cases hrows
    rw [List.map_nil, List.map_eq_nil_iff] at hframes
    rw [hframes]
    exact .nil _
  | cons top holds _ ih =>
    cases hrows with
    | cons hrow hrest =>
      rw [List.map_cons] at hframes
      obtain ⟨l', ls', rfl, hframe, hframes⟩ := List.map_eq_cons_iff.mp hframes
      have hparts := hframe
      simp only [Line.frame, Prod.mk.injEq] at hparts
      obtain ⟨htop, _, hheight⟩ := hparts
      constructor
      · rw [htop, top, lead_congr (map_eq_of_forall₂ hrow fun _ _ _ => Rests.annotates)]
      · exact holds.pass hframe hrow
      · rw [Line.bottom, htop, hheight]
        exact ih hframes hrest

theorem Stacks.le_top (h : Stacks spacing y ls rows z) (hspacing : spacing.Nonneg) :
    ∀ l ∈ ls, y ≤ l.top := by
  induction h with
  | nil => simp
  | @cons y z l row ls rows top holds _ ih =>
    have hlead := hspacing.lead row
    have hbelow := hspacing.below
    have hheight := holds.height.symm ▸ lineHeight_nonneg row
    intro m hm
    rcases List.mem_cons.mp hm with rfl | hm
    · linarith
    · have hle := ih m hm
      rw [Line.bottom] at hle
      linarith

/-- No line reaches into one that is set later. -/
theorem Stacks.pairwise (h : Stacks spacing y ls rows z) (hspacing : spacing.Nonneg) :
    ls.Pairwise fun l m => l.bottom ≤ m.top := by
  induction h with
  | nil => exact .nil
  | cons _ _ rest ih =>
    have hbelow := hspacing.below
    refine .cons (fun m hm => ?_) ih
    have hle := rest.le_top hspacing m hm
    linarith

/-- Read off line by line: where the first line stands, where each stands that follows another, and
what its box holds. -/
theorem Stacks.chain {f : Line ℚ τ → List (Glyph ℚ τ)}
    (h : Stacks spacing y ls (ls.map f) z) :
    (∀ l, ls.head? = some l → l.top = y + spacing.lead (f l)) ∧
      (ls.IsChain fun l m => m.top = l.bottom + spacing.below + spacing.lead (f m)) ∧
      ∀ l ∈ ls, l.Holds (f l) := by
  induction ls generalizing y with
  | nil => simp
  | cons l ls ih =>
    cases h with
    | cons top holds rest =>
      obtain ⟨hfirst, hnext, hholds⟩ := ih rest
      refine ⟨?_, ?_, List.forall_mem_cons.mpr ⟨holds, hholds⟩⟩
      · intro m hm
        obtain rfl := Option.some.inj hm
        exact top
      · cases ls with
        | nil => exact .singleton _
        | cons m ls => exact .cons_cons (hfirst m rfl) hnext

end Stacks

section Paragraph

/-- Stacking a row writes baselines and ascents only. -/
theorem map_stackStep [Zero τ] {β : Type} {f : Glyph ℚ τ → β}
    (hf : ∀ baseline ascent g, f (onBaseline baseline ascent g) = f g) (spacing : LineSpacing ℚ)
    (pos : ℚ × ℕ) (row : List (Glyph ℚ τ)) :
    (stackStep spacing pos row).2.2.map f = row.map f := by
  simp only [stackStep, List.map_map, Function.comp_def, hf]

theorem top_stackStep [Zero τ] (spacing : LineSpacing ℚ) (pos : ℚ × ℕ) (row : List (Glyph ℚ τ)) :
    (stackStep spacing pos row).2.1.top =
      pos.1 + spacing.lead (stackStep spacing pos row).2.2 := by
  rw [lead_congr (map_stackStep (fun _ _ _ => rfl) spacing pos row)]
  exact lineTop_eq pos.1

theorem holds_stackStep [Zero τ] (spacing : LineSpacing ℚ) (pos : ℚ × ℕ)
    (row : List (Glyph ℚ τ)) :
    (stackStep spacing pos row).2.1.Holds (stackStep spacing pos row).2.2 := by
  constructor
  · exact (lineHeight_congr (map_stackStep (fun _ _ _ => rfl) spacing pos row)).symm
  · obtain ⟨_, hascent⟩ := lineAscent_le_iff.mp (le_refl (lineAscent row))
    intro k hk hann
    obtain ⟨g, hg, rfl⟩ := List.mem_map.mp hk
    constructor
    · rfl
    · simp only [stackStep, onBaseline]
      split_ifs
      · -- an inline object that is given the ascent of the line reaches its top
        linarith
      · have hle := hascent g hg hann
        linarith

theorem stacks_stack [Zero τ] (spacing : LineSpacing ℚ) (pos : ℚ × ℕ)
    (rows : List (List (Glyph ℚ τ))) :
    Stacks spacing pos.1 ((sweep (stackStep spacing) pos rows).2.map Prod.fst)
      ((sweep (stackStep spacing) pos rows).2.map Prod.snd)
      (sweep (stackStep spacing) pos rows).1.1 := by
  induction rows generalizing pos with
  | nil => exact .nil _
  | cons row rows ih =>
    rw [sweep_cons]
    exact .cons (top_stackStep spacing pos row) (holds_stackStep spacing pos row)
      (ih (stackStep spacing pos row).1)

theorem map_frame_endParagraph (ls : List (Line ℚ τ)) :
    (endParagraph ls).map Line.frame = ls.map Line.frame := by
  rcases List.eq_nil_or_concat' ls with rfl | ⟨init, l, rfl⟩
  · rfl
  · simp [endParagraph_concat, Line.frame]

theorem stacks_placeDown [Zero τ] (spacing : LineSpacing ℚ) (y : ℚ) (gs : List (Glyph ℚ τ)) :
    Stacks spacing y (placeDown spacing y gs).lines (lines (placeDown spacing y gs).glyphs)
      (placeDown spacing y gs).next := by
  have hrows : lines (placeDown spacing y gs).glyphs =
      (sweep (stackStep spacing) (y, 0) (lines gs)).2.map Prod.snd := by
    rw [placeDown, List.flatMap_def]
    apply lines_flatten _ (written_stack spacing (y, 0) (lines gs))
    rintro g _ ⟨_, _, rfl, _⟩
    rfl
  rw [hrows]
  apply (stacks_stack spacing (y, 0) (lines gs)).pass (map_frame_endParagraph _)
  exact forall₂_refl (forall₂_refl fun g => rests_with g g.x g.time g.duration g.index) _

theorem rests_placeAnnotations (offsets : RubyOffsets ℚ) (gs : List (Glyph ℚ τ)) :
    List.Forall₂ Rests gs (placeAnnotations offsets gs) := by
  apply (written_placeAnnotations offsets gs).imp
  rintro g _ ⟨x, y, rfl, htext⟩
  exact ⟨rfl, rfl, rfl, rfl, fun hann => congrArg Glyph.y (htext hann)⟩

variable [Scalar τ]

theorem rests_assignTimes (start rate : τ) (gs : List (Glyph ℚ τ)) :
    List.Forall₂ Rests gs (assignTimes start rate gs).2 := by
  apply (written_assignTimes start rate gs).imp
  rintro g _ ⟨time, duration, rfl, _⟩
  exact rests_with ..

variable (s : Style ℚ τ) (table : ClassTable)

theorem stacks_layParagraph (start : Style.Start ℚ τ) (gs : List (Glyph ℚ τ)) :
    Stacks s.spacing start.y (s.layParagraph table start gs).2.1
      (lines (s.layParagraph table start gs).2.2) (s.layParagraph table start gs).1.y := by
  unfold Style.layParagraph
  dsimp only
  generalize placeAcross s.left s.firstIndent s.restIndent _ = placed
  apply (stacks_placeDown s.spacing start.y placed).pass
  · rw [List.map_map]
    rfl
  · apply forall₂_lines fun _ _ => Rests.split
    exact forall₂_trans (R := Rests) (fun _ _ _ => Rests.trans)
      (rests_placeAnnotations s.rubyOffsets _) (rests_assignTimes start.time s.rate _)

theorem stacks_rows (start : Style.Start ℚ τ) (blocks : List (List (Glyph ℚ τ))) :
    Stacks s.spacing start.y ((sweep (s.layParagraph table) start blocks).2.flatMap Prod.fst)
      (s.rows table start blocks) (sweep (s.layParagraph table) start blocks).1.y := by
  induction blocks generalizing start with
  | nil => exact .nil _
  | cons gs blocks ih =>
    have hrest := ih (s.layParagraph table start gs).1
    simp only [Style.rows, sweep_cons, List.flatMap_cons] at hrest ⊢
    exact (stacks_layParagraph s table start gs).append hrest

end Paragraph

section Layout

variable [Scalar τ] (s : Style ℚ τ) (table : ClassTable) (startTime : τ)
  (blocks : List (List (Glyph ℚ τ)))

theorem rests_unaligned : List.Forall₂ Rests (s.unaligned table startTime blocks)
    (s.layout table startTime blocks).glyphs := by
  rw [glyphs_layout]
  apply forall₂_comp (moved_unaligned s table startTime blocks) (written_assignIndices 0 _)
  rintro g _ _ ⟨x, rfl⟩ ⟨index, rfl, _⟩
  exact rests_with g x g.time g.duration index

/-- The lines of a layout stand in boxes one under the other. -/
theorem stacks_layout : ∃ z, Stacks s.spacing s.top (s.layout table startTime blocks).lines
    ((s.layout table startTime blocks).lines.map fun l =>
      l.span.slice (s.layout table startTime blocks).glyphs) z := by
  have hrows := stacks_rows s table ⟨s.top, startTime, 0⟩ blocks
  rw [← map_slice_rows] at hrows
  refine ⟨_, hrows.pass ?_ ?_⟩
  · rw [lines_layout, timeLines, List.map_map]
    rfl
  · rw [lines_layout, timeLines, List.map_map, List.forall₂_map_left_iff,
      List.forall₂_map_right_iff]
    exact List.forall₂_same.mpr fun l _ => forall₂_span (rests_unaligned s table startTime blocks) _

/-- The lines of a layout stand one below the other. -/
theorem pairwise_lines {s : Style ℚ τ} (h : s.spacing.Nonneg) (table : ClassTable) (startTime : τ)
    (blocks : List (List (Glyph ℚ τ))) :
    (s.layout table startTime blocks).lines.Pairwise fun k l => k.bottom ≤ l.top := by
  obtain ⟨_, hstacks⟩ := stacks_layout s table startTime blocks
  exact hstacks.pairwise h

end Layout

/-- Lines that are stacked from `y` down: the first of them under `y` and each other one under the
line before it, with more room above those that hold annotations, so that none reaches into another.
Text stands on the baseline of its line and does not rise above its top, each line is as high as the
highest of its text, and the text is as high as its last line reaches. -/
structure Layout.StackedFrom (L : Layout ℚ τ) (spacing : LineSpacing ℚ) (y : ℚ) : Prop where
  tiles : Span.Tiles 0 L.glyphs.length (L.lines.map Line.span)
  first : ∀ l, L.lines.head? = some l → l.top = y + spacing.lead (l.span.slice L.glyphs)
  next : L.lines.IsChain fun l m =>
    m.top = l.bottom + spacing.below + spacing.lead (m.span.slice L.glyphs)
  apart : L.lines.Pairwise fun l m => l.bottom ≤ m.top
  text : ∀ l ∈ L.lines, ∀ g ∈ l.span.slice L.glyphs, g.annotates = false →
    g.y = l.baseline ∧ l.top ≤ g.y - g.ascent
  height : ∀ l ∈ L.lines, IsGreatest
    {h | h = 0 ∨ ∃ g ∈ l.span.slice L.glyphs, g.annotates = false ∧ g.lineSpacing = h} l.height
  bottom : L.height = (L.lines.getLast?.map Line.bottom).getD y

theorem Style.layout_stacks [Scalar τ] (s : Style ℚ τ) (table : ClassTable) (startTime : τ)
    (blocks : List (List (Glyph ℚ τ))) (hspacing : s.spacing.Nonneg) :
    (s.layout table startTime blocks).StackedFrom s.spacing s.top := by
  obtain ⟨_, hstacks⟩ := stacks_layout s table startTime blocks
  obtain ⟨hfirst, hnext, hholds⟩ := hstacks.chain
  have hset := setAt_layout s table startTime blocks
  have htiles := hset.tiles
  rw [Nat.zero_add, ← hset.length_eq] at htiles
  constructor
  · exact htiles
  · exact hfirst
  · exact hnext
  · exact hstacks.pairwise hspacing
  · exact fun l hl => (hholds l hl).text
  · exact fun l hl => (hholds l hl).height ▸ isGreatest_lineHeight _
  · rfl

/-- A style with room below, above and, for annotations, further above each line. -/
def spacedLines : Style ℚ ℚ :=
  { Style.default.withWidth 3 with spacing := ⟨1, 1 / 2, 2⟩, top := 1, language := .western }

/-- A letter with its reading, an empty paragraph, and an inline object with a letter beside it and
one on the next line. -/
def stackedText : Layout ℚ ℚ :=
  let letter (code : ℕ) (lineSpacing : ℚ) : Glyph ℚ ℚ :=
    (ofCode code 1).withMetrics 2 1 lineSpacing
  spacedLines.layout .default 0
    [[letter 97 3, { letter 120 9 with ruby := .above }], [],
      [.object 2 5, letter 98 4, .ofCode 32 1, letter 99 4]]

theorem layout_stacks_stackedText :
    stackedText.lines.map Line.frame = [(7 / 2, 11 / 2, 3), (8, 10, 5), (29 / 2, 33 / 2, 4)] ∧
      stackedText.StackedFrom spacedLines.spacing spacedLines.top := by
  have hspacing : spacedLines.spacing.Nonneg :=
    ⟨by decide +kernel, by decide +kernel, by decide +kernel⟩
  refine ⟨by decide +kernel, ?_⟩
  exact Style.layout_stacks spacedLines .default 0 _ hspacing

end Typeset
