import Typeset.Line

/-!
# Lines from top to bottom

Each line gets a box as high as its tallest glyph and a baseline under its highest ascent.
Annotations add nothing to either, but a line that holds one is set further down.
-/

namespace Typeset

variable {α τ : Type} [Scalar α]

/-- Distances between lines: below each line, above each line, and above lines with annotations. -/
structure LineSpacing (α : Type) where
  below : α
  above : α
  aboveRuby : α

/-- The highest ascent on a line. -/
def lineAscent (line : List (Glyph α τ)) : α :=
  line.foldl (fun a g => if g.annotates then a else Scalar.larger a g.ascent) 0

/-- The height of a line. -/
def lineHeight (line : List (Glyph α τ)) : α :=
  line.foldl (fun h g => if g.annotates then h else Scalar.larger h g.lineSpacing) 0

/-- The top of a line that starts below `y`. -/
def lineTop (spacing : LineSpacing α) (y : α) (line : List (Glyph α τ)) : α :=
  y + spacing.above + (if line.any Glyph.annotates then spacing.aboveRuby else 0)

/-- Puts a glyph on the baseline. An inline object without an ascent hangs from that of the line. -/
def Glyph.onBaseline (baseline ascent : α) (g : Glyph α τ) : Glyph α τ :=
  { g with
    y := baseline
    ascent := if g.isObject && g.ascent == 0 then ascent else g.ascent }

/-- Sets one line below `pos.1`, its glyphs numbered from `pos.2`. -/
def stackStep [Zero τ] (spacing : LineSpacing α) (pos : α × Nat) (line : List (Glyph α τ)) :
    (α × Nat) × (Line α τ × List (Glyph α τ)) :=
  let top := lineTop spacing pos.1 line
  let ascent := lineAscent line
  let height := lineHeight line
  let stop := pos.2 + line.length
  ((top + height + spacing.below, stop),
    ({ top, baseline := top + ascent, height, span := ⟨pos.2, stop⟩
       maxTime := 0, endsParagraph := false },
      line.map (Glyph.onBaseline (top + ascent) ascent)))

/-- Marks the last line as the end of its paragraph. -/
def endParagraph (lines : List (Line α τ)) : List (Line α τ) :=
  lines.dropLast ++ (lines.getLast?.map fun l => { l with endsParagraph := true }).toList

/-- A stack of lines: their boxes, their glyphs, and where the next line starts. -/
structure Stacked (α τ : Type) where
  lines : List (Line α τ)
  glyphs : List (Glyph α τ)
  next : α

/-- Stacks the lines of broken glyphs from `y` downwards. -/
def placeDown [Zero τ] (spacing : LineSpacing α) (y : α) (gs : List (Glyph α τ)) :
    Stacked α τ :=
  let r := sweep (stackStep spacing) (y, 0) (Glyph.lines gs)
  { lines := endParagraph (r.2.map Prod.fst), glyphs := r.2.flatMap Prod.snd, next := r.1.1 }

end Typeset
