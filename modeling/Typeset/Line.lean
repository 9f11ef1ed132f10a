import Typeset.Glyph
import Typeset.Sweep

/-!
# Lines of glyphs

Once the breaks are chosen they cut the glyphs into lines: one after every replaced glyph, which
stays the last of its line, and one before every glyph that starts a line. A `Line` records where
such a piece stands in the buffer and the box it fills.
-/

namespace Typeset

/-- The glyphs from `start` up to but excluding `stop`. -/
structure Span where
  start : Nat
  stop : Nat
deriving DecidableEq, Repr

namespace Span

variable {β : Type}

/-- Whether the span lies within a buffer of `n` elements. -/
def fits (n : Nat) (s : Span) : Bool := s.start ≤ s.stop && s.stop ≤ n

/-- The elements of a span. -/
def slice (s : Span) (l : List β) : List β := (l.drop s.start).take (s.stop - s.start)

/-- Changes the elements of a span and leaves the others alone. -/
def update (s : Span) (f : List β → List β) (l : List β) : List β :=
  l.take s.start ++ (f (s.slice l) ++ l.drop s.stop)

/-- The same span further along by `n`. -/
def shift (n : Nat) (s : Span) : Span := ⟨s.start + n, s.stop + n⟩

theorem length_slice (s : Span) (l : List β) (h : s.fits l.length = true) :
    (s.slice l).length = s.stop - s.start := by
  simp only [fits, Bool.and_eq_true, decide_eq_true_eq] at h
  simp only [slice, List.length_drop, List.length_take]
  omega

/-- The consecutive spans of the given lengths, the first starting at `start`. -/
def ofLengths (start : Nat) (lengths : List Nat) : List Span :=
  (sweep (fun pos n => (pos + n, ⟨pos, pos + n⟩)) start lengths).2

theorem ofLengths_cons (start n : Nat) (lengths : List Nat) :
    ofLengths start (n :: lengths) = ⟨start, start + n⟩ :: ofLengths (start + n) lengths := by
  simp [ofLengths, sweep_cons]

end Span

/-- The box of one line. -/
@[ext] structure Line (α τ : Type) where
  top : α
  baseline : α
  height : α
  span : Span
  /-- The latest reveal time on the line. -/
  maxTime : τ
  /-- Whether the line is the last of its paragraph. -/
  endsParagraph : Bool

/-- The bottom of the box. -/
def Line.bottom {α τ : Type} [Scalar α] (l : Line α τ) : α := l.top + l.height

namespace Glyph

variable {α τ : Type}

/-- Whether a glyph stays on the line of the glyph right before it. -/
def joins (a b : Glyph α τ) : Bool := a.split != .replace && b.split != .before

/-- The lines that the breaks cut the glyphs into. -/
def lines (gs : List (Glyph α τ)) : List (List (Glyph α τ)) := gs.splitBy joins

/-- Where the lines stand among the glyphs. -/
def lineSpans (gs : List (Glyph α τ)) : List Span :=
  Span.ofLengths 0 ((lines gs).map List.length)

/-- Whether the last glyph of a line is replaced by the break that ends it. -/
def endsReplaced (line : List (Glyph α τ)) : Bool :=
  match line.getLast? with
  | some g => g.split == .replace
  | Option.none => false

/-- A line without the replaced glyph at its end. -/
def body (line : List (Glyph α τ)) : List (Glyph α τ) :=
  if endsReplaced line then line.dropLast else line

/-- The replaced glyph at the end of a line, if there is one. -/
def marker (line : List (Glyph α τ)) : List (Glyph α τ) :=
  if endsReplaced line then line.getLast?.toList else []

theorem body_append_marker (line : List (Glyph α τ)) : body line ++ marker line = line := by
  unfold body marker
  by_cases h : endsReplaced line = true
  · have hne : line ≠ [] := by rintro rfl; simp [endsReplaced] at h
    simp [h, List.getLast?_eq_some_getLast hne, List.dropLast_concat_getLast]
  · simp [h]

end Glyph

end Typeset
