import Typeset.Line

/-!
# Areas of links

A link covers, on each line, one rectangle for every run of its glyphs. Glyphs replaced by a break
neither belong to a run nor interrupt one.
-/

namespace Typeset

variable {α τ : Type} [Scalar α] [Scalar τ]

/-- The rectangle of one run of a link, with the time at which it first shows. -/
structure LinkArea (α τ : Type) where
  id : Nat
  x : α
  y : α
  width : α
  height : α
  time : τ

/-- Whether a point lies in the area; the right and bottom edges are outside. -/
def LinkArea.contains (a : LinkArea α τ) (x y : α) : Bool :=
  a.x ≤ x && x < a.x + a.width && a.y ≤ y && y < a.y + a.height

/-- The left edge of a run that starts with `g`. -/
def runLeft (g : Glyph α τ) (rest : List (Glyph α τ)) : α :=
  rest.foldl (fun x h => Scalar.smaller x h.x) g.x

/-- The right edge of a run that starts with `g`. -/
def runRight (g : Glyph α τ) (rest : List (Glyph α τ)) : α :=
  rest.foldl (fun x h => Scalar.larger x (h.x + h.width)) (g.x + g.width)

/-- The earliest of some times, 0 if there are none. -/
def earliest : List τ → τ
  | [] => 0
  | t :: ts => ts.foldl Scalar.smaller t

/-- The earliest reveal time of a run; glyphs that are not timed do not count. -/
def runTime (run : List (Glyph α τ)) : τ :=
  earliest ((run.map Glyph.time).filter fun t => decide (0 ≤ t))

/-- The area of a run on a line, unless the run is outside links. -/
def runArea? (line : Line α τ) (run : List (Glyph α τ)) : Option (LinkArea α τ) :=
  match run with
  | [] => none
  | g :: rest =>
    if g.link = 0 then none
    else
      let left := runLeft g rest
      some
        { id := g.link, x := left, y := line.top
          width := runRight g rest - left, height := line.height, time := runTime run }

def Glyph.sameLink (a b : Glyph α τ) : Bool := a.link == b.link

/-- The areas of one line, left to right as its glyphs are stored. -/
def lineAreas (line : Line α τ) (gs : List (Glyph α τ)) : List (LinkArea α τ) :=
  ((gs.filter fun g => g.split != .replace).splitBy Glyph.sameLink).filterMap (runArea? line)

/-- The areas of all lines. -/
def linkAreas (gs : List (Glyph α τ)) (lines : List (Line α τ)) : List (LinkArea α τ) :=
  lines.flatMap fun l => lineAreas l (l.span.slice gs)

/-- The areas of all lines, which must lie within the buffer. -/
def linkAreas? (gs : List (Glyph α τ)) (lines : List (Line α τ)) :
    Option (List (LinkArea α τ)) :=
  if lines.all (fun l => l.span.fits gs.length) then some (linkAreas gs lines) else none

end Typeset
