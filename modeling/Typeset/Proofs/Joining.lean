import Typeset.Proofs.Paragraphs

/-!
# Texts one below the other

A text set behind another is laid out as it would be alone, below and after the first. The walk over
the paragraphs hands on a place, a time and a number of glyphs; the number moves the spans and
nothing else. The passes over the joined buffer read it through the spans of the lines, and those of
one text never reach into the other.
-/

namespace Typeset

open Glyph

variable {α τ : Type}

/-- A line of a text that follows `n` other glyphs. -/
def Line.behind (n : ℕ) (l : Line α τ) : Line α τ := { l with span := l.span.shift n }

/-- A paragraph that follows `n` other glyphs. -/
def Style.Start.behind (n : ℕ) (start : Style.Start α τ) : Style.Start α τ :=
  { start with index := start.index + n }

/-- A glyph of a text that is revealed behind `n` other glyphs. -/
def Glyph.behind [Scalar τ] (n : ℕ) (g : Glyph α τ) : Glyph α τ :=
  if g.isTimed then { g with index := g.index + n } else g

section Revealed

variable [Scalar τ] (n : ℕ) (g : Glyph α τ)

theorem Glyph.apply_behind {ρ : Type} {f : Glyph α τ → ρ}
    (h : ∀ (g : Glyph α τ) (i : ℤ), f { g with index := i } = f g) : f (g.behind n) = f g := by
  unfold Glyph.behind
  split_ifs
  · exact h g _
  · rfl

@[simp] theorem Glyph.x_behind : (g.behind n).x = g.x := apply_behind n g fun _ _ => rfl

@[simp] theorem Glyph.width_behind : (g.behind n).width = g.width :=
  apply_behind n g fun _ _ => rfl

@[simp] theorem Glyph.split_behind : (g.behind n).split = g.split :=
  apply_behind n g fun _ _ => rfl

@[simp] theorem Glyph.link_behind : (g.behind n).link = g.link := apply_behind n g fun _ _ => rfl

@[simp] theorem Glyph.time_behind : (g.behind n).time = g.time := apply_behind n g fun _ _ => rfl

theorem isTimed_indexStep (k : ℤ) : (indexStep k g).2.isTimed = g.isTimed := by
  unfold indexStep
  split_ifs
  · rfl
  · rfl

theorem indexStep_behind (k : ℤ) :
    indexStep (k + n) g = ((indexStep k g).1 + n, (indexStep k g).2.behind n) := by
  rw [Glyph.behind, isTimed_indexStep]
  unfold indexStep
  split_ifs
  · exact Prod.ext (add_right_comm k n 1) rfl
  · rfl

theorem assignIndices_behind (k : ℤ) (gs : List (Glyph α τ)) :
    (assignIndices (k + n) gs).2 = (assignIndices k gs).2.map (Glyph.behind n) := by
  rw [assignIndices, sweep_comm (f := (· + (n : ℤ))) (fun k g => indexStep_behind n g k)]
  rfl

/-- Numbering goes on with the number of glyphs that took part. -/
theorem next_assignIndices (k : ℤ) (gs : List (Glyph α τ)) :
    (assignIndices k gs).1 = k + (assignIndices k gs).2.countP Glyph.isTimed := by
  unfold assignIndices
  induction gs generalizing k with
  | nil => simp
  | cons g gs ih =>
    have hnext : (indexStep k g).1 = k + if g.isTimed then 1 else 0 := by
      unfold indexStep
      split_ifs
      · rfl
      · exact (add_zero k).symm
    rw [sweep_cons, ih, List.countP_cons, isTimed_indexStep, hnext]
    push_cast
    ring

theorem assignIndices_append (gs hs : List (Glyph α τ)) :
    (assignIndices 0 (gs ++ hs)).2 = (assignIndices 0 gs).2 ++
      (assignIndices 0 hs).2.map
        (Glyph.behind ((assignIndices 0 gs).2.countP Glyph.isTimed)) := by
  rw [← assignIndices_behind, ← next_assignIndices]
  exact congrArg Prod.snd (sweep_append ..)

theorem latestTime_behind (gs : List (Glyph α τ)) :
    latestTime (gs.map (Glyph.behind n)) = latestTime gs := by
  simp [latestTime, List.foldl_map]

theorem timeLines_append (gs hs : List (Glyph α τ)) (rows rows' : List (Line α τ))
    (h : ∀ l ∈ rows, l.span.stop ≤ gs.length) :
    timeLines (gs ++ hs.map (Glyph.behind n)) (rows ++ rows'.map (Line.behind gs.length)) =
      timeLines gs rows ++ (timeLines hs rows').map (Line.behind gs.length) := by
  unfold timeLines
  rw [List.map_append, List.map_map, List.map_map]
  congr 1
  · apply List.map_congr_left
    intro l hl
    rw [Span.slice_append_left (h l hl)]
  · apply List.map_congr_left
    intro l _
    simp only [Function.comp_apply, Line.behind, Span.slice_shift, Span.slice_map,
      latestTime_behind]

end Revealed

section Links

variable [Scalar α] [Scalar τ] (n : ℕ)

theorem runArea?_behind (k : ℕ) (l : Line α τ) (run : List (Glyph α τ)) :
    runArea? (l.behind k) (run.map (Glyph.behind n)) = runArea? l run := by
  cases run with
  | nil => rfl
  | cons g rest =>
    have htime : ((g :: rest).map (Glyph.behind n)).map time = (g :: rest).map time := by simp
    rw [List.map_cons, runArea?, runArea?, ← List.map_cons, runTime, runTime, htime]
    simp [runLeft, runRight, List.foldl_map, Line.behind]

theorem lineAreas_behind (k : ℕ) (l : Line α τ) (gs : List (Glyph α τ)) :
    lineAreas (l.behind k) (gs.map (Glyph.behind n)) = lineAreas l gs := by
  have hmap := lineAreas_map (w := Glyph.behind n) (u := id) (by simp) (by simp)
    (fun run => congrArg _ (runArea?_behind n k l run)) gs
  rwa [List.map_id, List.map_id] at hmap

theorem linkAreas_append (gs hs : List (Glyph α τ)) (rows rows' : List (Line α τ))
    (h : ∀ l ∈ rows, l.span.stop ≤ gs.length) :
    linkAreas (gs ++ hs.map (Glyph.behind n)) (rows ++ rows'.map (Line.behind gs.length)) =
      linkAreas gs rows ++ linkAreas hs rows' := by
  unfold linkAreas
  rw [List.flatMap_append, List.flatMap_map]
  congr 1
  · apply List.flatMap_congr
    intro l hl
    rw [Span.slice_append_left (h l hl)]
  · apply List.flatMap_congr
    intro l _
    rw [← lineAreas_behind n gs.length l, ← Span.slice_map, ← Span.slice_shift l.span gs]
    rfl

end Links

section Stack

variable [Scalar α]

/-- Where the line after some lines starts, if they are set from `y` down. -/
def LineSpacing.nextTop (spacing : LineSpacing α) (y : α) (rows : List (Line α τ)) : α :=
  (rows.getLast?.map fun l => l.bottom + spacing.below).getD y

theorem nextTop_append (spacing : LineSpacing α) (y : α) (rows rows' : List (Line α τ)) :
    spacing.nextTop y (rows ++ rows') = spacing.nextTop (spacing.nextTop y rows) rows' := by
  unfold LineSpacing.nextTop
  rw [List.getLast?_append]
  cases rows'.getLast? <;> rfl

theorem nextTop_eq (spacing : LineSpacing α) (y : α) (rows : List (Line α τ)) :
    spacing.nextTop y rows =
      if rows.isEmpty then y else (rows.getLast?.map Line.bottom).getD y + spacing.below := by
  unfold LineSpacing.nextTop
  rcases List.eq_nil_or_concat' rows with rfl | ⟨init, l, rfl⟩
  · rfl
  · simp

theorem nextTop_timeLines [Scalar τ] (spacing : LineSpacing α) (y : α) (gs : List (Glyph α τ))
    (rows : List (Line α τ)) : spacing.nextTop y (timeLines gs rows) = spacing.nextTop y rows := by
  unfold LineSpacing.nextTop timeLines
  rw [List.getLast?_map, Option.map_map]
  rfl

theorem next_placeDown [Zero τ] (spacing : LineSpacing α) (y : α) (gs : List (Glyph α τ)) :
    (placeDown spacing y gs).next = spacing.nextTop y (placeDown spacing y gs).lines := by
  unfold placeDown
  rcases List.eq_nil_or_concat' (lines gs) with h | ⟨init, row, h⟩
  · rw [h]
    rfl
  · rw [h, sweep_append]
    simp only [sweep_cons, sweep_nil, List.map_append, List.map_cons, List.map_nil,
      endParagraph_concat, LineSpacing.nextTop, List.getLast?_append, List.getLast?_singleton]
    rfl

variable [Scalar τ]

theorem y_layParagraph (s : Style α τ) (table : ClassTable) (start : Style.Start α τ)
    (gs : List (Glyph α τ)) : (s.layParagraph table start gs).1.y =
      s.spacing.nextTop start.y (s.layParagraph table start gs).2.1 := by
  unfold Style.layParagraph LineSpacing.nextTop
  rw [List.getLast?_map, Option.map_map]
  exact next_placeDown ..

end Stack

section Layout

variable [Scalar α] [Scalar τ]

theorem layParagraph_behind (s : Style α τ) (table : ClassTable) (n : ℕ)
    (start : Style.Start α τ) (gs : List (Glyph α τ)) :
    s.layParagraph table (start.behind n) gs =
      ((s.layParagraph table start gs).1.behind n,
        ((s.layParagraph table start gs).2.1.map (Line.behind n),
          (s.layParagraph table start gs).2.2)) := by
  simp [Style.layParagraph, Style.Start.behind, Line.behind, Span.shift, Nat.add_assoc,
    Nat.add_comm n, Function.comp_def]

/-- Paragraphs placed one below the other, and where the next one starts. -/
structure Placed (α τ : Type) where
  next : Style.Start α τ
  lines : List (Line α τ)
  glyphs : List (Glyph α τ)

/-- The same paragraphs, placed behind `n` other glyphs. -/
def Placed.behind (n : ℕ) (p : Placed α τ) : Placed α τ :=
  ⟨p.next.behind n, p.lines.map (Line.behind n), p.glyphs⟩

instance : Append (Placed α τ) := ⟨fun p q => ⟨q.next, p.lines ++ q.lines, p.glyphs ++ q.glyphs⟩⟩

/-- Places the paragraphs of a text. -/
def Style.place (s : Style α τ) (table : ClassTable) (start : Style.Start α τ)
    (blocks : List (List (Glyph α τ))) : Placed α τ :=
  let r := sweep (s.layParagraph table) start blocks
  ⟨r.1, r.2.flatMap Prod.fst, r.2.flatMap Prod.snd⟩

section Place

variable (s : Style α τ) (table : ClassTable) (start : Style.Start α τ)
  (blocks first second : List (List (Glyph α τ)))

theorem place_append : s.place table start (first ++ second) =
    s.place table start first ++ s.place table (s.place table start first).next second := by
  unfold Style.place
  rw [sweep_append]
  simp only [List.flatMap_append]
  rfl

/-- The glyphs before a text move its lines along the buffer and change nothing else. -/
theorem place_behind (n : ℕ) :
    s.place table (start.behind n) blocks = (s.place table start blocks).behind n := by
  have hsweep := sweep_comm (g := Prod.map (List.map (Line.behind n)) id)
    (layParagraph_behind s table n) start blocks
  unfold Style.place Placed.behind
  rw [hsweep]
  simp only [List.flatMap_map, List.map_flatMap]
  rfl

theorem y_place : (s.place table start blocks).next.y =
    s.spacing.nextTop start.y (s.place table start blocks).lines := by
  unfold Style.place
  dsimp only
  induction blocks generalizing start with
  | nil => rfl
  | cons gs blocks ih =>
    rw [sweep_cons, ih, List.flatMap_cons, nextTop_append, y_layParagraph]

theorem index_place : (s.place table start blocks).next.index =
    start.index + (s.place table start blocks).glyphs.length := by
  unfold Style.place
  rw [index_sweep, (setAt_sweep s table start blocks).length_eq]

theorem stop_le_of_mem_place {l : Line α τ} (hl : l ∈ (s.place table start blocks).lines) :
    l.span.stop ≤ start.index + (s.place table start blocks).glyphs.length := by
  have hset := setAt_sweep s table start blocks
  unfold Style.place
  rw [hset.length_eq]
  exact (hset.tiles.bounds (List.mem_map_of_mem hl)).2.2

end Place

/-- The style of a text that goes on below a layout. -/
def Style.below (s : Style α τ) (L : Layout α τ) : Style α τ :=
  { s with top := if L.lines.isEmpty then s.top else L.height + s.spacing.below }

theorem top_below (s : Style α τ) (table : ClassTable) (startTime : τ)
    (blocks : List (List (Glyph α τ))) :
    (s.below (s.layout table startTime blocks)).top =
      (s.place table ⟨s.top, startTime, 0⟩ blocks).next.y := by
  rw [y_place, ← nextTop_timeLines, nextTop_eq]
  rfl

/-- A layout made of two: the glyphs, lines and links of the second follow those of the first, which
moves its spans and its places in the order of reveal and nothing else. -/
structure Layout.Joins (L A B : Layout α τ) : Prop where
  glyphs : L.glyphs = A.glyphs ++ B.glyphs.map (Glyph.behind (A.glyphs.countP Glyph.isTimed))
  lines : L.lines = A.lines ++ B.lines.map (Line.behind A.glyphs.length)
  areas : L.areas = A.areas ++ B.areas
  nextTime : L.nextTime = B.nextTime

/-- A layout that only timing and links tell from its placed paragraphs. -/
structure Layout.MadeOf (L : Layout α τ) (p : Placed α τ) : Prop where
  glyphs : L.glyphs = (assignIndices 0 p.glyphs).2
  lines : L.lines = timeLines L.glyphs p.lines
  areas : L.areas = linkAreas L.glyphs L.lines
  nextTime : L.nextTime = p.next.time

theorem madeOf_layout {s : Style α τ} (hleft : s.alignment.isLeft = true) (table : ClassTable)
    (startTime : τ) (blocks : List (List (Glyph α τ))) :
    (s.layout table startTime blocks).MadeOf (s.place table ⟨s.top, startTime, 0⟩ blocks) := by
  refine ⟨?_, rfl, rfl, rfl⟩
  unfold Style.layout alignLines
  dsimp only
  rw [if_pos hleft]
  rfl

theorem Layout.MadeOf.joins {L A B : Layout α τ} {p q : Placed α τ} (hA : A.MadeOf p)
    (hB : B.MadeOf q) (hL : L.MadeOf (p ++ q.behind p.glyphs.length))
    (hrows : ∀ l ∈ p.lines, l.span.stop ≤ p.glyphs.length) : L.Joins A B := by
  have hlen : p.glyphs.length = A.glyphs.length := by
    rw [hA.glyphs, assignIndices, length_sweep]
  rw [hlen] at hL hrows
  have hglyphs : L.glyphs =
      A.glyphs ++ B.glyphs.map (Glyph.behind (A.glyphs.countP Glyph.isTimed)) := by
    rw [hA.glyphs, hB.glyphs, ← assignIndices_append]
    exact hL.glyphs
  have hlines : L.lines = A.lines ++ B.lines.map (Line.behind A.glyphs.length) := by
    rw [hA.lines, hB.lines, ← timeLines_append _ _ _ _ _ hrows, ← hglyphs]
    exact hL.lines
  have hbound : ∀ l ∈ A.lines, l.span.stop ≤ A.glyphs.length := by
    rw [hA.lines, timeLines, List.forall_mem_map]
    exact hrows
  refine ⟨hglyphs, hlines, ?_, hL.nextTime.trans hB.nextTime.symm⟩
  rw [hL.areas, hglyphs, hlines, linkAreas_append _ _ _ _ _ hbound, ← hA.areas, ← hB.areas]

theorem Style.layout_append (s : Style α τ) (table : ClassTable) (startTime : τ)
    (first second : List (List (Glyph α τ))) (hjustify : s.alignment.justify = false)
    (hfraction : (s.alignment.fraction == 0) = true) :
    (s.layout table startTime (first ++ second)).Joins (s.layout table startTime first)
      ((s.below (s.layout table startTime first)).layout table
        (s.layout table startTime first).nextTime second) := by
  have hleft : s.alignment.isLeft = true := by simp [Alignment.isLeft, hjustify, hfraction]
  have hindex := index_place s table ⟨s.top, startTime, 0⟩ first
  have hrows := fun l => stop_le_of_mem_place s table ⟨s.top, startTime, 0⟩ first (l := l)
  simp only [Nat.zero_add] at hindex hrows
  have hA := madeOf_layout hleft table startTime first
  have hB := madeOf_layout (s := s.below (s.layout table startTime first)) hleft table
    (s.layout table startTime first).nextTime second
  rw [top_below] at hB
  have hL := madeOf_layout hleft table startTime (first ++ second)
  rw [place_append] at hL
  generalize s.place table ⟨s.top, startTime, 0⟩ first = p at *
  have hmoved : s.place table p.next second =
      (s.place table ⟨p.next.y, (s.layout table startTime first).nextTime, 0⟩ second).behind
        p.glyphs.length := by
    rw [hA.nextTime, ← hindex, ← place_behind, Style.Start.behind, Nat.zero_add]
  rw [hmoved] at hL
  exact hA.joins hB hL hrows

/-- Lines two apart, shown at one glyph per second. -/
def Style.slow : Style ℚ ℚ := { (default : Style ℚ ℚ) with spacing := ⟨2, 0, 0⟩, rate := 1 }

/-- A letter, and a paragraph without any. -/
def oneLetter : List (List (Glyph ℚ ℚ)) := [[ofCode 97 1], []]

/-- A letter within a link, with an annotation. -/
def annotatedLetter : List (List (Glyph ℚ ℚ)) :=
  [[{ (ofCode 98 1 : Glyph ℚ ℚ) with link := 1 },
    { (ofCode 99 1 : Glyph ℚ ℚ) with ruby := .above }]]

theorem Style.layout_append_annotatedLetter :
    slow.alignment.justify = false ∧ (slow.alignment.fraction == 0) = true ∧
      (slow.layout .default 0 (oneLetter ++ annotatedLetter)).lines.map (fun l => (l.top, l.span)) =
        [(0, ⟨0, 1⟩), (2, ⟨1, 3⟩)] ∧
      (slow.layout .default 0 (oneLetter ++ annotatedLetter)).Joins
        (slow.layout .default 0 oneLetter)
        ((slow.below (slow.layout .default 0 oneLetter)).layout .default
          (slow.layout .default 0 oneLetter).nextTime annotatedLetter) := by
  refine ⟨rfl, rfl, ?_, layout_append slow .default 0 oneLetter annotatedLetter rfl rfl⟩
  decide +kernel

end Layout

end Typeset
