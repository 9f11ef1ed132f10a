import Typeset.Proofs.Reflow

/-!
# Timing and placing do not meet

Glyphs carry their positions and their times through the same passes. A layout without its times
does not depend on when the text starts nor on how fast it shows, and a layout without its positions
does not depend on the margins, on the alignment or on the distances between lines. Both are shown
on two runs at once: the passes in between keep the two the same, apart from what is left out.
-/

namespace Typeset

open Glyph

variable {α τ : Type}

section Times

variable [Scalar τ]

/-- A glyph without its place in the order of reveal. -/
def Glyph.timeless (g : Glyph α τ) : Glyph α τ := { g with time := 0, duration := 0, index := 0 }

def Line.timeless (l : Line α τ) : Line α τ := { l with maxTime := 0 }

def LinkArea.timeless (a : LinkArea α τ) : LinkArea α τ := { a with time := 0 }

/-- A layout without anything that says when it shows. -/
def Layout.timeless (l : Layout α τ) : Layout α τ :=
  { l with
    glyphs := l.glyphs.map Glyph.timeless
    lines := l.lines.map Line.timeless
    areas := l.areas.map LinkArea.timeless
    nextTime := 0
    maxTime := 0 }

end Times

section Places

variable [Scalar α]

/-- A glyph without its position. -/
def Glyph.placeless (g : Glyph α τ) : Glyph α τ := { g with x := 0, y := 0 }

def Line.placeless (l : Line α τ) : Line α τ := { l with top := 0, baseline := 0 }

def LinkArea.placeless (a : LinkArea α τ) : LinkArea α τ := { a with x := 0, y := 0, width := 0 }

/-- A layout without anything that says where it stands. -/
def Layout.placeless (l : Layout α τ) : Layout α τ :=
  { l with
    glyphs := l.glyphs.map Glyph.placeless
    lines := l.lines.map Line.placeless
    areas := l.areas.map LinkArea.placeless
    width := 0
    height := 0 }

end Places

section Lists

variable {β γ δ : Type}

theorem map_eq_map_iff_forall₂ {f : β → δ} {g : γ → δ} {l : List β} {m : List γ} :
    l.map f = m.map g ↔ List.Forall₂ (fun a b => f a = g b) l m := by
  rw [← List.forall₂_eq_eq_eq, List.forall₂_map_left_iff, List.forall₂_map_right_iff]

theorem flatMap_eq_of_forall₂ {f : β → List δ} {g : γ → List δ} {l : List β} {m : List γ}
    (h : List.Forall₂ (fun a b => f a = g b) l m) : l.flatMap f = m.flatMap g := by
  rw [List.flatMap_def, List.flatMap_def, map_eq_map_iff_forall₂.mpr h]

end Lists

section Links

variable [Scalar α] [Scalar τ] {w : Glyph α τ → Glyph α τ} {v : Line α τ → Line α τ}
  {u : LinkArea α τ → LinkArea α τ}

/-- Where a change of glyphs and lines keeps splits, links and spans and shows in no area beyond
what is left out, no list of areas shows it. -/
theorem linkAreas_map (hsplit : ∀ g, (w g).split = g.split) (hlink : ∀ g, (w g).link = g.link)
    (hspan : ∀ l, (v l).span = l.span)
    (harea : ∀ l run, (runArea? (v l) (run.map w)).map u = (runArea? l run).map u)
    (gs : List (Glyph α τ)) (ls : List (Line α τ)) :
    (linkAreas (gs.map w) (ls.map v)).map u = (linkAreas gs ls).map u := by
  rw [linkAreas, List.flatMap_map, List.map_flatMap, linkAreas, List.map_flatMap]
  exact List.flatMap_congr fun l _ => by
    rw [hspan, Span.slice_map, lineAreas_map hsplit hlink (harea l)]

theorem linkAreas_timeless (gs : List (Glyph α τ)) (ls : List (Line α τ)) :
    (linkAreas (gs.map Glyph.timeless) (ls.map Line.timeless)).map LinkArea.timeless =
      (linkAreas gs ls).map LinkArea.timeless := by
  apply linkAreas_map (w := Glyph.timeless) (v := Line.timeless) (fun _ => rfl) (fun _ => rfl)
    (fun _ => rfl)
  intro l run
  cases run with
  | nil => rfl
  | cons g rest =>
    have hlink : g.timeless.link = g.link := rfl
    have hleft : runLeft g.timeless (rest.map Glyph.timeless) = runLeft g rest := by
      rw [runLeft, List.foldl_map]
      rfl
    have hright : runRight g.timeless (rest.map Glyph.timeless) = runRight g rest := by
      rw [runRight, List.foldl_map]
      rfl
    simp only [List.map_cons, runArea?, hlink, hleft, hright]
    split_ifs <;> rfl

theorem linkAreas_placeless (gs : List (Glyph α τ)) (ls : List (Line α τ)) :
    (linkAreas (gs.map Glyph.placeless) (ls.map Line.placeless)).map LinkArea.placeless =
      (linkAreas gs ls).map LinkArea.placeless := by
  apply linkAreas_map (w := Glyph.placeless) (v := Line.placeless) (fun _ => rfl) (fun _ => rfl)
    (fun _ => rfl)
  intro l run
  cases run with
  | nil => rfl
  | cons g rest =>
    have hlink : g.placeless.link = g.link := rfl
    have htime : runTime ((g :: rest).map Glyph.placeless) = runTime (g :: rest) := by
      rw [runTime, List.map_map]
      rfl
    simp only [List.map_cons] at htime ⊢
    simp only [runArea?, hlink, htime]
    split_ifs <;> rfl

end Links

section Joined

variable [Scalar α] [Scalar τ]

/-- A layout from the placed lines and glyphs of all its paragraphs. -/
def Style.join (s : Style α τ) (nextTime : τ) (ls : List (Line α τ)) (gs : List (Glyph α τ)) :
    Layout α τ :=
  let width := s.left + Scalar.larger s.alignWidth (rightEdge gs - s.left)
  let glyphs := (assignIndices 0 (alignLines s.alignment width ls gs)).2
  let lines := timeLines glyphs ls
  { glyphs, lines, areas := linkAreas glyphs lines, targets := []
    width, height := (lines.getLast?.map Line.bottom).getD s.top
    nextTime, maxTime := latestLine lines }

theorem Style.layout_eq_join (s : Style α τ) (table : ClassTable) (startTime : τ)
    (blocks : List (List (Glyph α τ))) : s.layout table startTime blocks =
      s.join (sweep (s.layParagraph table) ⟨s.top, startTime, 0⟩ blocks).1.time
        ((sweep (s.layParagraph table) ⟨s.top, startTime, 0⟩ blocks).2.flatMap Prod.fst)
        ((sweep (s.layParagraph table) ⟨s.top, startTime, 0⟩ blocks).2.flatMap Prod.snd) := rfl

end Joined

section Retimed

variable [Scalar τ]

theorem timeless_assignTimes (start rate : τ) (gs : List (Glyph α τ)) :
    (assignTimes start rate gs).2.map Glyph.timeless = gs.map Glyph.timeless := by
  refine map_eq_of_forall₂ (written_assignTimes start rate gs) ?_
  rintro g _ _ ⟨time, duration, rfl, _⟩
  rfl

theorem timeless_assignIndices (start : ℤ) (gs : List (Glyph α τ)) :
    (assignIndices start gs).2.map Glyph.timeless = gs.map Glyph.timeless := by
  refine map_eq_of_forall₂ (written_assignIndices start gs) ?_
  rintro g _ _ ⟨index, rfl, _⟩
  rfl

theorem timeless_timeLines (gs : List (Glyph α τ)) (ls : List (Line α τ)) :
    (timeLines gs ls).map Line.timeless = ls.map Line.timeless := by
  rw [timeLines, List.map_map]
  rfl

variable [Scalar α]

theorem keepsInk_timeless : KeepsInk (Glyph.timeless : Glyph α τ → Glyph α τ) :=
  ⟨fun _ => rfl, fun _ => rfl, fun _ => rfl, fun _ => rfl, fun _ => rfl, fun _ _ => rfl⟩

theorem rightEdge_timeless (gs : List (Glyph α τ)) :
    rightEdge (gs.map Glyph.timeless) = rightEdge gs := by
  rw [rightEdge, List.foldl_map]
  rfl

/-- Starts that differ in time at most. -/
def Style.Start.SamePlace (start start' : Style.Start α τ) : Prop :=
  start.y = start'.y ∧ start.index = start'.index

/-- The lines of a paragraph and its glyphs, apart from when they show. -/
def SamePlaces (p p' : List (Line α τ) × List (Glyph α τ)) : Prop :=
  p.1 = p'.1 ∧ p.2.map Glyph.timeless = p'.2.map Glyph.timeless

theorem samePlaces_layParagraph (s : Style α τ) (table : ClassTable) (rate : τ)
    {start start' : Style.Start α τ} (h : start.SamePlace start') (gs : List (Glyph α τ)) :
    (s.layParagraph table start gs).1.SamePlace
        (({ s with rate } : Style α τ).layParagraph table start' gs).1 ∧
      SamePlaces (s.layParagraph table start gs).2
        (({ s with rate } : Style α τ).layParagraph table start' gs).2 := by
  obtain ⟨hy, hindex⟩ := h
  have hbroken : ({ s with rate } : Style α τ).orderLines
      (({ s with rate } : Style α τ).breakLines table gs) =
        s.orderLines (s.breakLines table gs) := rfl
  have hlength : ∀ (t rate : τ) (l : List (Glyph α τ)),
      (assignTimes t rate l).2.length = l.length := by
    intro t rate l
    simp [assignTimes]
  simp only [Style.layParagraph, hbroken, hy, hindex]
  refine ⟨⟨rfl, ?_⟩, rfl, ?_⟩
  · rw [hlength, hlength]
  · rw [timeless_assignTimes, timeless_assignTimes]

theorem timeless_join (s : Style α τ) (rate t t' : τ) (ls : List (Line α τ))
    {gs gs' : List (Glyph α τ)} (h : gs.map Glyph.timeless = gs'.map Glyph.timeless) :
    (s.join t ls gs).timeless = (({ s with rate } : Style α τ).join t' ls gs').timeless := by
  have hedge : rightEdge gs = rightEdge gs' := by
    rw [← rightEdge_timeless gs, h, rightEdge_timeless]
  -- the joined glyphs, and with them the lines and areas, agree up to their times
  have hglyphs : ∀ width, (assignIndices 0 (alignLines s.alignment width ls gs)).2.map
      Glyph.timeless =
        (assignIndices 0 (alignLines s.alignment width ls gs')).2.map Glyph.timeless := by
    intro width
    rw [timeless_assignIndices, timeless_assignIndices, ← alignLines_map keepsInk_timeless, h,
      alignLines_map keepsInk_timeless]
  have hlines : ∀ gs gs' : List (Glyph α τ),
      (timeLines gs ls).map Line.timeless = (timeLines gs' ls).map Line.timeless := by
    intro gs gs'
    rw [timeless_timeLines, timeless_timeLines]
  have hheight : ∀ gs : List (Glyph α τ),
      (timeLines gs ls).getLast?.map Line.bottom = ls.getLast?.map Line.bottom := by
    intro gs
    rw [timeLines, List.getLast?_map, Option.map_map]
    rfl
  simp only [Style.join, Layout.timeless, Layout.mk.injEq, hedge, hheight, and_true]
  refine ⟨hglyphs _, hlines _ _, ?_⟩
  rw [← linkAreas_timeless, hglyphs, hlines _ _, linkAreas_timeless]

theorem timeless_layout (s : Style α τ) (table : ClassTable) (rate t t' : τ)
    (blocks : List (List (Glyph α τ))) : (s.layout table t blocks).timeless =
      (({ s with rate } : Style α τ).layout table t' blocks).timeless := by
  have hstart : (⟨s.top, t, 0⟩ : Style.Start α τ).SamePlace ⟨s.top, t', 0⟩ := ⟨rfl, rfl⟩
  obtain ⟨_, hrun⟩ := sweep_same (S := Style.Start.SamePlace) (B := SamePlaces)
    (fun _ _ gs h => samePlaces_layParagraph s table rate h gs) hstart blocks
  rw [Style.layout_eq_join, Style.layout_eq_join,
    flatMap_eq_of_forall₂ (hrun.imp fun _ _ h => h.1)]
  apply timeless_join
  rw [List.map_flatMap, List.map_flatMap]
  exact flatMap_eq_of_forall₂ (hrun.imp fun _ _ h => h.2)

end Retimed

section Replaced

variable [Scalar α]

theorem placeless_of_moved {gs hs : List (Glyph α τ)} (h : List.Forall₂ Moved gs hs) :
    hs.map Glyph.placeless = gs.map Glyph.placeless := by
  refine map_eq_of_forall₂ h ?_
  rintro g _ _ ⟨x, rfl⟩
  rfl

theorem placeless_placeAnnotations (offsets : RubyOffsets α) (gs : List (Glyph α τ)) :
    (placeAnnotations offsets gs).map Glyph.placeless = gs.map Glyph.placeless := by
  refine map_eq_of_forall₂ (written_placeAnnotations offsets gs) ?_
  rintro g _ _ ⟨x, y, rfl, _⟩
  rfl

omit [Scalar α] in
theorem map_endParagraph {v : Line α τ → Line α τ}
    (hv : ∀ l : Line α τ, v { l with endsParagraph := true } = { v l with endsParagraph := true })
    (ls : List (Line α τ)) : (endParagraph ls).map v = endParagraph (ls.map v) := by
  rcases ls.eq_nil_or_concat with rfl | ⟨ls, l, rfl⟩
  · rfl
  · simp only [List.concat_eq_append, List.map_append, List.map_cons, List.map_nil,
      endParagraph_concat, hv]

/-- A line and its glyphs, apart from where they stand. -/
def SameRow (p p' : Line α τ × List (Glyph α τ)) : Prop :=
  p.1.placeless = p'.1.placeless ∧ p.2.map Glyph.placeless = p'.2.map Glyph.placeless

/-- Stacking lines writes the same ascents wherever the lines are put. -/
theorem placeless_placeDown [Zero τ] (spacing spacing' : LineSpacing α) (y y' : α)
    {gs gs' : List (Glyph α τ)} (h : gs.map Glyph.placeless = gs'.map Glyph.placeless) :
    (placeDown spacing y gs).lines.map Line.placeless =
        (placeDown spacing' y' gs').lines.map Line.placeless ∧
      (placeDown spacing y gs).glyphs.map Glyph.placeless =
        (placeDown spacing' y' gs').glyphs.map Glyph.placeless := by
  have hascent : ∀ row : List (Glyph α τ),
      lineAscent (row.map Glyph.placeless) = lineAscent row := by
    intro row
    rw [lineAscent, List.foldl_map]
    rfl
  have hheight : ∀ row : List (Glyph α τ),
      lineHeight (row.map Glyph.placeless) = lineHeight row := by
    intro row
    rw [lineHeight, List.foldl_map]
    rfl
  have hput : ∀ (baseline ascent : α) (row : List (Glyph α τ)),
      (row.map (onBaseline baseline ascent)).map Glyph.placeless =
        (row.map Glyph.placeless).map (onBaseline 0 ascent) := by
    intro baseline ascent row
    rw [List.map_map, List.map_map]
    rfl
  have hrows : List.Forall₂ (fun row row' : List (Glyph α τ) =>
      row.map Glyph.placeless = row'.map Glyph.placeless) (lines gs) (lines gs') := by
    have hlines : ∀ l : List (Glyph α τ),
        lines (l.map Glyph.placeless) = (lines l).map (List.map Glyph.placeless) :=
      lines_map fun _ => rfl
    rw [← map_eq_map_iff_forall₂, ← hlines, h, hlines]
  have hstep : ∀ (pos pos' : α × ℕ) (row row' : List (Glyph α τ)), pos.2 = pos'.2 →
      row.map Glyph.placeless = row'.map Glyph.placeless →
      (stackStep spacing pos row).1.2 = (stackStep spacing' pos' row').1.2 ∧
        SameRow (stackStep spacing pos row).2 (stackStep spacing' pos' row').2 := by
    intro pos pos' row row' hpos hrow
    have hlength : row.length = row'.length := by simpa using congrArg List.length hrow
    have hasc : lineAscent row = lineAscent row' := by rw [← hascent, hrow, hascent]
    have hhgt : lineHeight row = lineHeight row' := by rw [← hheight, hrow, hheight]
    refine ⟨?_, ?_, ?_⟩
    · simp only [stackStep, hpos, hlength]
    · simp only [stackStep, Line.placeless, hpos, hlength, hhgt]
    · simp only [stackStep, hput, hrow, hasc]
  have hrun := (sweep_related (S := fun pos pos' : α × ℕ => pos.2 = pos'.2) (B := SameRow) hstep
    hrows (s := (y, 0)) (t := (y', 0)) rfl).2
  constructor
  · simp only [placeDown]
    rw [map_endParagraph fun _ => rfl, map_endParagraph fun _ => rfl, List.map_map, List.map_map]
    exact congrArg endParagraph (map_eq_map_iff_forall₂.mpr (hrun.imp fun _ _ h => h.1))
  · simp only [placeDown]
    rw [List.map_flatMap, List.map_flatMap]
    exact flatMap_eq_of_forall₂ (hrun.imp fun _ _ h => h.2)

variable [Scalar τ]

theorem assignTimes_placeless (start rate : τ) (gs : List (Glyph α τ)) :
    assignTimes start rate (gs.map Glyph.placeless) =
      ((assignTimes start rate gs).1, (assignTimes start rate gs).2.map Glyph.placeless) := by
  refine sweep_map (fun t g _ => ?_) start
  have hann : g.placeless.annotates = g.annotates := rfl
  unfold timeStep
  rw [hann]
  split_ifs <;> rfl

theorem assignIndices_placeless (start : ℤ) (gs : List (Glyph α τ)) :
    assignIndices start (gs.map Glyph.placeless) =
      ((assignIndices start gs).1, (assignIndices start gs).2.map Glyph.placeless) := by
  refine sweep_map (fun n g _ => ?_) start
  have htimed : g.placeless.isTimed = g.isTimed := rfl
  unfold indexStep
  rw [htimed]
  split_ifs <;> rfl

theorem timeLines_placeless (gs : List (Glyph α τ)) (ls : List (Line α τ)) :
    timeLines (gs.map Glyph.placeless) (ls.map Line.placeless) =
      (timeLines gs ls).map Line.placeless := by
  have hlatest : ∀ row : List (Glyph α τ),
      latestTime (row.map Glyph.placeless) = latestTime row := by
    intro row
    rw [latestTime, List.foldl_map]
    rfl
  rw [timeLines, List.map_map, timeLines, List.map_map]
  refine List.map_congr_left fun l _ => ?_
  simp only [Function.comp_apply, Span.slice_map, hlatest]
  rfl

theorem latestLine_placeless (ls : List (Line α τ)) :
    latestLine (ls.map Line.placeless) = latestLine ls := by
  rw [latestLine, List.foldl_map]
  rfl

/-- The style with the margins, the alignment and the distances of another. -/
def Style.placedAs (s p : Style α τ) : Style α τ :=
  { s with
    left := p.left, top := p.top, alignWidth := p.alignWidth, alignment := p.alignment
    spacing := p.spacing, rubyOffsets := p.rubyOffsets }

/-- Starts that differ in place at most. -/
def Style.Start.SameTime (start start' : Style.Start α τ) : Prop :=
  start.time = start'.time ∧ start.index = start'.index

/-- The lines of a paragraph and its glyphs, apart from where they stand. -/
def SameReveal (p p' : List (Line α τ) × List (Glyph α τ)) : Prop :=
  p.1.map Line.placeless = p'.1.map Line.placeless ∧
    p.2.map Glyph.placeless = p'.2.map Glyph.placeless

/-- Lines set elsewhere are the same lines, annotations and all. -/
theorem placeless_set (spacing spacing' : LineSpacing α) (offsets offsets' : RubyOffsets α)
    (left left' first rest y y' : α) (gs : List (Glyph α τ)) :
    (placeDown spacing y (placeAcross left first rest gs)).lines.map Line.placeless =
        (placeDown spacing' y' (placeAcross left' first rest gs)).lines.map Line.placeless ∧
      (placeAnnotations offsets
          (placeDown spacing y (placeAcross left first rest gs)).glyphs).map Glyph.placeless =
        (placeAnnotations offsets'
          (placeDown spacing' y' (placeAcross left' first rest gs)).glyphs).map
            Glyph.placeless := by
  have hacross : (placeAcross left first rest gs).map Glyph.placeless =
      (placeAcross left' first rest gs).map Glyph.placeless := by
    rw [placeless_of_moved (moved_placeAcross ..), placeless_of_moved (moved_placeAcross ..)]
  obtain ⟨hlines, hglyphs⟩ := placeless_placeDown spacing spacing' y y' hacross
  exact ⟨hlines, by rw [placeless_placeAnnotations, hglyphs, placeless_placeAnnotations]⟩

/-- Timing does not see where glyphs stand. -/
theorem placeless_assignTimes (start rate : τ) {gs gs' : List (Glyph α τ)}
    (h : gs.map Glyph.placeless = gs'.map Glyph.placeless) :
    (assignTimes start rate gs).1 = (assignTimes start rate gs').1 ∧
      (assignTimes start rate gs).2.map Glyph.placeless =
        (assignTimes start rate gs').2.map Glyph.placeless := by
  have hboth := congrArg (assignTimes start rate) h
  rwa [assignTimes_placeless, assignTimes_placeless, Prod.mk.injEq] at hboth

theorem sameReveal_layParagraph (s p : Style α τ) (table : ClassTable)
    {start start' : Style.Start α τ} (h : start.SameTime start') (gs : List (Glyph α τ)) :
    (s.layParagraph table start gs).1.SameTime
        ((s.placedAs p).layParagraph table start' gs).1 ∧
      SameReveal (s.layParagraph table start gs).2
        ((s.placedAs p).layParagraph table start' gs).2 := by
  obtain ⟨htime, hindex⟩ := h
  have hshift : ∀ ls : List (Line α τ),
      (ls.map fun l => { l with span := l.span.shift start.index }).map Line.placeless =
        (ls.map Line.placeless).map fun l => { l with span := l.span.shift start.index } := by
    intro ls
    rw [List.map_map, List.map_map]
    rfl
  have hbroken : (s.placedAs p).orderLines ((s.placedAs p).breakLines table gs) =
      s.orderLines (s.breakLines table gs) := rfl
  have hfirst : (s.placedAs p).firstIndent = s.firstIndent := rfl
  have hrest : (s.placedAs p).restIndent = s.restIndent := rfl
  have hrate : (s.placedAs p).rate = s.rate := rfl
  simp only [Style.layParagraph, hbroken, hfirst, hrest, hrate, ← htime, ← hindex,
    Style.Start.SameTime, SameReveal]
  obtain ⟨hlines, hset⟩ := placeless_set s.spacing (s.placedAs p).spacing s.rubyOffsets
    (s.placedAs p).rubyOffsets s.left (s.placedAs p).left s.firstIndent s.restIndent start.y
    start'.y (s.orderLines (s.breakLines table gs))
  obtain ⟨hnext, htimed⟩ := placeless_assignTimes start.time s.rate hset
  have hlength := congrArg List.length htimed
  rw [List.length_map, List.length_map] at hlength
  refine ⟨⟨hnext, ?_⟩, ?_, htimed⟩
  · rw [hlength]
  · rw [hshift, hlines, hshift]

theorem placeless_join (s p : Style α τ) (t : τ) {ls ls' : List (Line α τ)}
    {gs gs' : List (Glyph α τ)} (hle : ∀ l ∈ ls, l.span.start ≤ l.span.stop)
    (hle' : ∀ l ∈ ls', l.span.start ≤ l.span.stop)
    (hls : ls.map Line.placeless = ls'.map Line.placeless)
    (hgs : gs.map Glyph.placeless = gs'.map Glyph.placeless) :
    (s.join t ls gs).placeless = ((s.placedAs p).join t ls' gs').placeless := by
  have hglyphs : ∀ (a a' : Alignment α) (width width' : α),
      (assignIndices 0 (alignLines a width ls gs)).2.map Glyph.placeless =
        (assignIndices 0 (alignLines a' width' ls' gs')).2.map Glyph.placeless := by
    intro a a' width width'
    have haligned : (alignLines a width ls gs).map Glyph.placeless =
        (alignLines a' width' ls' gs').map Glyph.placeless := by
      rw [placeless_of_moved (moved_alignLines _ _ _ _ hle), hgs,
        placeless_of_moved (moved_alignLines _ _ _ _ hle')]
    have hboth := congrArg (fun l => (assignIndices 0 l).2) haligned
    rwa [assignIndices_placeless, assignIndices_placeless] at hboth
  have hlines : ∀ l l' : List (Glyph α τ), l.map Glyph.placeless = l'.map Glyph.placeless →
      (timeLines l ls).map Line.placeless = (timeLines l' ls').map Line.placeless := by
    intro l l' hl
    rw [← timeLines_placeless, hl, hls, timeLines_placeless]
  have hareas : ∀ (l l' : List (Glyph α τ)) (k k' : List (Line α τ)),
      l.map Glyph.placeless = l'.map Glyph.placeless →
      k.map Line.placeless = k'.map Line.placeless →
      (linkAreas l k).map LinkArea.placeless = (linkAreas l' k').map LinkArea.placeless := by
    intro l l' k k' hl hk
    rw [← linkAreas_placeless, hl, hk, linkAreas_placeless]
  have hlatest : ∀ k k' : List (Line α τ), k.map Line.placeless = k'.map Line.placeless →
      latestLine k = latestLine k' := by
    intro k k' hk
    rw [← latestLine_placeless, hk, latestLine_placeless]
  simp only [Style.join, Layout.placeless, Layout.mk.injEq, true_and]
  exact ⟨hglyphs _ _ _ _, hlines _ _ (hglyphs _ _ _ _),
    hareas _ _ _ _ (hglyphs _ _ _ _) (hlines _ _ (hglyphs _ _ _ _)),
    hlatest _ _ (hlines _ _ (hglyphs _ _ _ _))⟩

theorem placeless_layout (s p : Style α τ) (table : ClassTable) (t : τ)
    (blocks : List (List (Glyph α τ))) : (s.layout table t blocks).placeless =
      ((s.placedAs p).layout table t blocks).placeless := by
  have hstart : (⟨s.top, t, 0⟩ : Style.Start α τ).SameTime ⟨(s.placedAs p).top, t, 0⟩ :=
    ⟨rfl, rfl⟩
  obtain ⟨hend, hrun⟩ := sweep_same (S := Style.Start.SameTime) (B := SameReveal)
    (fun _ _ gs h => sameReveal_layParagraph s p table h gs) hstart blocks
  rw [Style.layout_eq_join, Style.layout_eq_join, hend.1]
  apply placeless_join s p _ (start_le_stop_sweep _ _ _ _) (start_le_stop_sweep _ _ _ _)
  · rw [List.map_flatMap, List.map_flatMap]
    exact flatMap_eq_of_forall₂ (hrun.imp fun _ _ h => h.1)
  · rw [List.map_flatMap, List.map_flatMap]
    exact flatMap_eq_of_forall₂ (hrun.imp fun _ _ h => h.2)

end Replaced

/-- Neither the rate nor the start of the reveal shows in a layout without its times, and neither
margins nor alignment nor distances show in a layout without its positions. -/
theorem Style.layout_separates [Scalar α] [Scalar τ] (s p : Style α τ) (table : ClassTable)
    (blocks : List (List (Glyph α τ))) :
    (∀ rate t t', (s.layout table t blocks).timeless =
      (({ s with rate } : Style α τ).layout table t' blocks).timeless) ∧
      ∀ t, (s.layout table t blocks).placeless =
        ((s.placedAs p).layout table t blocks).placeless :=
  ⟨fun rate t t' => timeless_layout s table rate t t' blocks,
    fun t => placeless_layout s p table t blocks⟩

end Typeset
