import Typeset.Break.Greedy
import Typeset.Link
import Typeset.Markup.Block
import Typeset.Markup.Reader
import Typeset.Place.Cursor
import Typeset.Reveal
import Typeset.RightToLeft
import Typeset.Style.Basic

/-!
# Layout

Paragraphs are broken, placed and timed one after the other, each starting below and after the one
before. What concerns the whole text follows on the joined buffer: alignment, which needs the
widest line, the order of reveal, and the areas of links.
-/

namespace Typeset

/-- A laid out text. -/
structure Layout (α τ : Type) where
  glyphs : List (Glyph α τ)
  lines : List (Line α τ)
  areas : List (LinkArea α τ)
  /-- The targets of the links, if the text came from markup. -/
  targets : List String
  /-- The right edge of the text. -/
  width : α
  /-- The bottom of the last line. -/
  height : α
  /-- When text laid out after this one starts. -/
  nextTime : τ
  /-- When the last glyph is revealed. -/
  maxTime : τ

namespace Style

variable {α τ : Type} [Scalar α] [Scalar τ]

/-- Chooses the breaks of a paragraph. -/
def breakLines (s : Style α τ) (table : ClassTable) (gs : List (Glyph α τ)) : List (Glyph α τ) :=
  match s.mode with
  | .greedy =>
    breakGreedy (s.firstWidth - s.firstIndent) (s.restWidth - s.restIndent)
      (s.language.classifier.mark table gs)
  | .unbroken => clearSplits gs

/-- Puts the broken lines of a paragraph into the order in which they are set. -/
def orderLines (s : Style α τ) (gs : List (Glyph α τ)) : List (Glyph α τ) :=
  if s.rtl then turnLines gs else gs

/-- Where the next paragraph starts: its top, its time, and its first glyph in the buffer. -/
structure Start (α τ : Type) where
  y : α
  time : τ
  index : Nat

/-- Lays out one paragraph; its lines refer to the joined buffer. -/
def layParagraph (s : Style α τ) (table : ClassTable) (start : Start α τ)
    (gs : List (Glyph α τ)) : Start α τ × (List (Line α τ) × List (Glyph α τ)) :=
  let ordered := s.orderLines (s.breakLines table gs)
  let stacked :=
    placeDown s.spacing start.y (placeAcross s.left s.firstIndent s.restIndent ordered)
  let timed := assignTimes start.time s.rate (placeAnnotations s.rubyOffsets stacked.glyphs)
  (⟨stacked.next, timed.1, start.index + timed.2.length⟩,
    (stacked.lines.map fun l => { l with span := l.span.shift start.index }, timed.2))

/-- Lays out paragraphs from top to bottom, starting at a time. -/
def layout (s : Style α τ) (table : ClassTable) (startTime : τ)
    (blocks : List (List (Glyph α τ))) : Layout α τ :=
  let r := sweep (s.layParagraph table) ⟨s.top, startTime, 0⟩ blocks
  let placed := r.2.flatMap Prod.snd
  let lines := r.2.flatMap Prod.fst
  let width := s.left + Scalar.larger s.alignWidth (rightEdge placed - s.left)
  let glyphs := (assignIndices 0 (alignLines s.alignment width lines placed)).2
  let timedLines := timeLines glyphs lines
  { glyphs, lines := timedLines, areas := linkAreas glyphs timedLines, targets := []
    width, height := (timedLines.getLast?.map Line.bottom).getD s.top
    nextTime := r.1.time, maxTime := latestLine timedLines }

/-- Lays out marked up text. -/
def layoutMarkup (s : Style α τ) (table : ClassTable) (startTime : τ) (cell : Markup.Cell α)
    (text : String) : Except Markup.Fault (Layout α τ) := do
  let tokens ← Markup.tokenize text
  let built ← Markup.buildBlocks cell tokens
  return { s.layout table startTime built.blocks with targets := built.targets }

end Style

namespace Layout

variable {α τ : Type} [Scalar α] [Scalar τ]

/-- The layout of no text. -/
def empty : Layout α τ := ⟨[], [], [], [], 0, 0, 0, 0⟩

/-- The glyphs of a line. -/
def lineGlyphs? (l : Layout α τ) (i : Nat) : Option (List (Glyph α τ)) :=
  l.lines[i]?.map fun line => line.span.slice l.glyphs

/-- The target of a link. -/
def target? (l : Layout α τ) (id : Nat) : Option String :=
  if id = 0 then none else l.targets[id - 1]?

/-- The link at a point. -/
def linkAt? (l : Layout α τ) (x y : α) : Option Nat :=
  (l.areas.find? fun a => a.contains x y).map LinkArea.id

/-- Moves the whole layout. -/
def offset (l : Layout α τ) (dx dy : α) : Layout α τ :=
  { l with
    glyphs := l.glyphs.map fun g => { g with x := g.x + dx, y := g.y + dy }
    lines := l.lines.map fun line =>
      { line with top := line.top + dy, baseline := line.baseline + dy }
    areas := l.areas.map fun a => { a with x := a.x + dx, y := a.y + dy }
    width := l.width + dx
    height := l.height + dy }

end Layout

end Typeset
