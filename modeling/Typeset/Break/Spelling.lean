import Typeset.Line

/-!
# Lines as text

Two renderings of broken glyphs: the text of each line, and one text in which a bar stands at
every line boundary. Glyphs replaced by a break are left out of both.
-/

namespace Typeset

variable {α τ : Type}

/-- The character shown for a glyph, with stand-ins for objects and for invalid code points. -/
def Glyph.shown (g : Glyph α τ) : Char :=
  if g.isObject then '\uFFFC' else g.char?.getD '\uFFFD'

/-- The text of one line. -/
def lineText (line : List (Glyph α τ)) : String :=
  String.ofList ((line.filter fun g => g.split != .replace).map Glyph.shown)

/-- The text of each line. -/
def lineTexts (gs : List (Glyph α τ)) : List String := (Glyph.lines gs).map lineText

/-- What one glyph adds to the text with bars. -/
def Glyph.barred (g : Glyph α τ) : List Char :=
  match g.split with
  | .replace => ['|']
  | .before => ['|', g.shown]
  | .none | .hang => [g.shown]

/-- The text of all glyphs, with a bar at both ends and at every break. -/
def barredText (gs : List (Glyph α τ)) : String :=
  String.ofList ('|' :: (gs.flatMap Glyph.barred ++ ['|']))

end Typeset
