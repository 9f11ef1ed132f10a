import Typeset.Line

/-!
# Right-to-left lines

Lines of right-to-left text are turned around as a whole. A unit, which is a plain glyph or a run of
base glyphs with the annotations that follow it, keeps its annotations behind its base. The glyph
replaced by a break stays at the end of its line, and a break before the line moves to the glyph
that now comes first, so that the lines stay the same.
-/

namespace Typeset

variable {α τ : Type}

/-- Whether two neighbours on a line belong to one unit. -/
def Glyph.sameUnit (a b : Glyph α τ) : Bool :=
  b.annotates || (a.ruby == .base && b.ruby == .base)

/-- Turns a unit around: its base glyphs, and behind them its annotations. -/
def turnUnit (unit : List (Glyph α τ)) : List (Glyph α τ) :=
  (unit.takeWhile fun g => !g.annotates).reverse ++
    (unit.dropWhile fun g => !g.annotates).reverse

/-- Turns the units of a line around, and their order. -/
def turnUnits (gs : List (Glyph α τ)) : List (Glyph α τ) :=
  (gs.splitBy Glyph.sameUnit).reverse.flatMap turnUnit

/-- Sets the split of the first glyph. -/
def withLeadingSplit (split : Split) : List (Glyph α τ) → List (Glyph α τ)
  | [] => []
  | g :: gs => { g with split } :: gs

/-- Whether a line starts with a break before it. -/
def leadsWithBreak : List (Glyph α τ) → Bool
  | [] => false
  | g :: _ => g.split == .before

/-- Turns a line without its replaced glyph around. -/
def turnBody (gs : List (Glyph α τ)) : List (Glyph α τ) :=
  let turned :=
    if leadsWithBreak gs then withLeadingSplit .before (turnUnits (withLeadingSplit .none gs))
    else turnUnits gs
  turned.map fun g => { g with rtl := true }

/-- Turns one line around. -/
def turnLine (line : List (Glyph α τ)) : List (Glyph α τ) :=
  turnBody (Glyph.body line) ++ Glyph.marker line

/-- Turns every line of broken glyphs around. -/
def turnLines (gs : List (Glyph α τ)) : List (Glyph α τ) := (Glyph.lines gs).flatMap turnLine

end Typeset
