import Typeset.Line

/-!
# Reveal times

Slow text shows one glyph after another. Annotations appear with their base and take no time of
their own; they carry the time -1.
-/

namespace Typeset

variable {α τ : Type} [Scalar τ]

/-- The time of glyphs that are not timed. -/
def untimed : τ := 0 - 1

/-- The seconds that one glyph takes at a rate of glyphs per second; rate 0 takes no time. -/
def glyphTime (rate : τ) : τ := if rate == 0 then 0 else 1 / rate

def timeStep (each t : τ) (g : Glyph α τ) : τ × Glyph α τ :=
  if g.annotates then (t, { g with time := untimed, duration := untimed })
  else (t + each, { g with time := t + each, duration := each })

/-- Times the glyphs after `start`; gives the time that the next text starts from too. -/
def assignTimes (start rate : τ) (gs : List (Glyph α τ)) : τ × List (Glyph α τ) :=
  sweep (timeStep (glyphTime rate)) start gs

/-- Whether a glyph has a place in the order of reveal. -/
def Glyph.isTimed (g : Glyph α τ) : Bool := 0 ≤ g.time

def indexStep (n : Int) (g : Glyph α τ) : Int × Glyph α τ :=
  if g.isTimed then (n + 1, { g with index := n }) else (n, g)

/-- Numbers the timed glyphs from `start`; gives the next number too. -/
def assignIndices (start : Int) (gs : List (Glyph α τ)) : Int × List (Glyph α τ) :=
  sweep indexStep start gs

/-- The latest time among glyphs, at least 0. -/
def latestTime (gs : List (Glyph α τ)) : τ := gs.foldl (fun t g => Scalar.larger t g.time) 0

/-- Gives each line the latest time among its glyphs. -/
def timeLines (gs : List (Glyph α τ)) (lines : List (Line α τ)) : List (Line α τ) :=
  lines.map fun l => { l with maxTime := latestTime (l.span.slice gs) }

/-- The latest time on any line, at least 0. -/
def latestLine (lines : List (Line α τ)) : τ :=
  lines.foldl (fun t l => Scalar.larger t l.maxTime) 0

/-- Gives each line its latest time. All of them must lie within the buffer. -/
def timeLines? (gs : List (Glyph α τ)) (lines : List (Line α τ)) : Option (List (Line α τ)) :=
  if lines.all (fun l => l.span.fits gs.length) then some (timeLines gs lines) else none

end Typeset
