import Typeset.Glyph
import Typeset.Sweep

/-!
# Annotations over and under their base

A run of annotations is centred on the text it follows: a single plain glyph, or a run of base
glyphs. A run over and a run under may share one base, since annotations never become a base.
-/

namespace Typeset

variable {α τ : Type} [Scalar α]

/-- The extent of a base. -/
structure BaseExtent (α : Type) where
  left : α
  right : α
  baseline : α
  ascent : α
  descent : α

namespace BaseExtent

/-- The extent before any base. -/
def origin : BaseExtent α := ⟨0, 0, 0, 0, 0⟩

def ofGlyph (g : Glyph α τ) : BaseExtent α := ⟨g.x, g.x + g.width, g.y, g.ascent, g.descent⟩

/-- Widens the extent by a glyph; the baseline stays that of the first. -/
def extend (e : BaseExtent α) (g : Glyph α τ) : BaseExtent α :=
  { e with
    left := Scalar.smaller e.left g.x
    right := Scalar.larger e.right (g.x + g.width)
    ascent := Scalar.larger e.ascent g.ascent
    descent := Scalar.larger e.descent g.descent }

def centre (e : BaseExtent α) : α := (e.left + e.right) / ((2 : Nat) : α)

end BaseExtent

/-- Distances of annotations from their base, over it and under it. -/
structure RubyOffsets (α : Type) where
  above : α
  below : α

/-- The baseline of an annotation. -/
def annotationY (offsets : RubyOffsets α) (base : BaseExtent α) (g : Glyph α τ) : α :=
  if g.ruby = .below then base.baseline + base.descent + g.ascent + offsets.below
  else base.baseline - base.ascent - g.descent - offsets.above

/-- The width of a run, which ends with the ink of its last glyph. -/
def runWidth (run : List (Glyph α τ)) : α :=
  let advances := run.foldl (fun sum g => sum + g.advance) 0
  match run.getLast? with
  | some last => advances - last.advance + last.width
  | none => advances

/-- Places a run of annotations on its base. -/
def centreRun (offsets : RubyOffsets α) (base : BaseExtent α) (run : List (Glyph α τ)) :
    List (Glyph α τ) :=
  (sweep (fun x g => (x + g.advance, { g with x, y := annotationY offsets base g }))
    (base.centre - runWidth run / ((2 : Nat) : α)) run).2

/-- Whether two neighbours belong to one run: of base glyphs, or of annotations of one role. -/
def Glyph.sameRun (a b : Glyph α τ) : Bool := a.ruby == b.ruby && a.ruby != .plain

/-- A run of annotations is placed; any other run becomes the base of those that follow. -/
def annotateStep (offsets : RubyOffsets α) (base : BaseExtent α) (run : List (Glyph α τ)) :
    BaseExtent α × List (Glyph α τ) :=
  match run with
  | [] => (base, [])
  | g :: rest =>
    if g.annotates then (base, centreRun offsets base run)
    else (rest.foldl BaseExtent.extend (.ofGlyph g), run)

/-- Places all annotations. Their bases must have positions. -/
def placeAnnotations (offsets : RubyOffsets α) (gs : List (Glyph α τ)) : List (Glyph α τ) :=
  (sweep (annotateStep offsets) .origin (gs.splitBy Glyph.sameRun)).2.flatten

end Typeset
