import Typeset.Line

/-!
# Alignment

The slack of a line is what its ink leaves of the text area. Alignment moves the line by a
fraction of it; justification spreads it over the spaces of the line instead, except on the last
line of a paragraph. Each glyph is moved by a whole number of units, the share of the spaces before
it rounded to nearest, so rounding does not add up along the line.
-/

namespace Typeset

variable {α τ : Type} [Scalar α]

/-- A fraction of the slack to move a line by, and whether lines are justified. -/
structure Alignment (α : Type) where
  fraction : α
  justify : Bool

/-- The right edge of a line, its replaced glyph apart. -/
def lineInk (line : List (Glyph α τ)) : α :=
  (Glyph.body line).foldl
    (fun ink g => if g.annotates then ink else Scalar.larger ink (g.x + g.width)) 0

/-- A space that slack may widen. -/
def Glyph.stretches (g : Glyph α τ) : Bool := !g.annotates && g.code == 0x20

/-- The number of spaces that slack may widen. -/
def stretchCount (line : List (Glyph α τ)) : Nat := (Glyph.body line).countP Glyph.stretches

def Glyph.shiftX (dx : α) (g : Glyph α τ) : Glyph α τ := { g with x := g.x + dx }

/-- The share of the slack that lies before a glyph with `seen` spaces before it. -/
def stretchBefore (share : α) (seen : Nat) : α :=
  Scalar.floor ((seen : α) * share + Scalar.half)

/-- Moves a glyph by the offset so far. A space raises the offset of those after it. -/
def stretchStep (share : α) (s : Nat × α) (g : Glyph α τ) : (Nat × α) × Glyph α τ :=
  (if g.stretches then (s.1 + 1, stretchBefore share (s.1 + 1)) else s, g.shiftX s.2)

/-- Spreads the slack over the spaces of a line. -/
def stretchLine (share : α) (line : List (Glyph α τ)) : List (Glyph α τ) :=
  let r := sweep (stretchStep share) (0, 0) (Glyph.body line)
  r.2 ++ (Glyph.marker line).map (Glyph.shiftX r.1.2)

/-- Aligns one line towards the right edge `target`. -/
def alignLine (a : Alignment α) (target : α) (endsParagraph : Bool) (line : List (Glyph α τ)) :
    List (Glyph α τ) :=
  let ink := lineInk line
  if Scalar.maxExtent ≤ ink then line
  else
    let slack := target - ink
    let spaces := stretchCount line
    if a.justify && !endsParagraph && 0 < spaces then stretchLine (slack / (spaces : α)) line
    else line.map (Glyph.shiftX (slack * a.fraction))

/-- Whether lines stay where they are, whatever their slack. -/
def Alignment.isLeft (a : Alignment α) : Bool := !a.justify && a.fraction == 0

/-- Aligns the lines of a buffer. -/
def alignLines (a : Alignment α) (target : α) (lines : List (Line α τ)) (gs : List (Glyph α τ)) :
    List (Glyph α τ) :=
  if a.isLeft then gs
  else lines.foldl (fun gs l => l.span.update (alignLine a target l.endsParagraph) gs) gs

/-- Aligns the lines of a buffer, all of which must lie within it. -/
def alignLines? (a : Alignment α) (target : α) (lines : List (Line α τ))
    (gs : List (Glyph α τ)) : Option (List (Glyph α τ)) :=
  if a.isLeft || lines.all (fun l => l.span.fits gs.length) then
    some (alignLines a target lines gs)
  else none

end Typeset
