import Typeset.Glyph
import Typeset.Sweep

/-!
# Horizontal positions

A cursor moves along each line by the advances of its glyphs and returns to the left edge at every
break. Annotations are passed over, since their place follows from their base. A replaced glyph is
put at the cursor and takes no room.
-/

namespace Typeset

variable {α τ : Type} [Scalar α]

/-- Puts a glyph at the cursor, which stays within the largest coordinate. -/
def putAt (x : α) (g : Glyph α τ) : α × Glyph α τ :=
  (Scalar.smaller (x + g.advance) Scalar.maxExtent, { g with x := x + g.nudge })

def cursorStep (edge x : α) (g : Glyph α τ) : α × Glyph α τ :=
  if g.annotates then (x, g)
  else match g.split with
    | .replace => (edge, { g with x })
    | .before => putAt edge g
    | .none | .hang => putAt x g

/-- Places glyphs from `start`, the first line indented by `first` and the others by `rest`. -/
def placeAcross (start first rest : α) (gs : List (Glyph α τ)) : List (Glyph α τ) :=
  (sweep (cursorStep (start + rest)) (start + first) gs).2

/-- The right edge of the ink, or 0 where that lies further right. -/
def rightEdge (gs : List (Glyph α τ)) : α :=
  gs.foldl (fun edge g => if g.isInk then Scalar.larger edge (g.x + g.width) else edge) 0

theorem length_placeAcross (start first rest : α) (gs : List (Glyph α τ)) :
    (placeAcross start first rest gs).length = gs.length := by
  simp [placeAcross]

end Typeset
