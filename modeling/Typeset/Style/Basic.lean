import Typeset.Break.Opportunity
import Typeset.Place.Align
import Typeset.Place.RubyText
import Typeset.Place.Stack

/-!
# Styles

A style says how paragraphs are broken, placed, aligned and revealed. Without settings, lines are
as wide as coordinates reach, everything starts at the origin, and the whole text shows at once.
-/

namespace Typeset

/-- How the lines of a paragraph stand between its margins. -/
inductive Align where
  | left
  | right
  | center
  | justify
deriving DecidableEq, Repr

/-- The fraction of the slack that an alignment puts before a line. -/
def Align.toAlignment {α : Type} [Scalar α] : Align → Alignment α
  | .left => ⟨0, false⟩
  | .right => ⟨1, false⟩
  | .center => ⟨Scalar.half, false⟩
  | .justify => ⟨0, true⟩

/-- The language whose customs decide where lines break. -/
inductive Language where
  | unicode
  | western
  | anywhere
  | japaneseStrict
  | japaneseNormal
  | japaneseLoose
  | koreanWithSpaces
deriving DecidableEq, Repr

namespace Language

def all : List Language :=
  [.unicode, .western, .anywhere, .japaneseStrict, .japaneseNormal, .japaneseLoose,
    .koreanWithSpaces]

def name : Language → String
  | .unicode => "unicode"
  | .western => "western"
  | .anywhere => "anywhere"
  | .japaneseStrict => "japanese-strict"
  | .japaneseNormal => "japanese-normal"
  | .japaneseLoose => "japanese-loose"
  | .koreanWithSpaces => "korean-with-spaces"

def ofName? (s : String) : Option Language := all.find? fun l => l.name == s

/-- Hangul set with spaces breaks like letters. -/
def classifier : Language → Classifier
  | .unicode => .pairs .western false
  | .western => .western
  | .anywhere => .anywhere
  | .japaneseStrict => .pairs .strict false
  | .japaneseNormal => .pairs .normal false
  | .japaneseLoose => .pairs .loose false
  | .koreanWithSpaces => .pairs .western true

theorem ofName?_name (l : Language) : ofName? l.name = some l := by cases l <;> decide

end Language

/-- Whether lines are filled or each paragraph stays on one line. -/
inductive BreakMode where
  | greedy
  | unbroken
deriving DecidableEq, Repr

namespace BreakMode

def all : List BreakMode := [.greedy, .unbroken]

def name : BreakMode → String
  | .greedy => "greedy"
  | .unbroken => "nobreak"

def ofName? (s : String) : Option BreakMode := all.find? fun m => m.name == s

theorem ofName?_name (m : BreakMode) : ofName? m.name = some m := by cases m <;> decide

end BreakMode

/-- The settings of a layout. Widths include the indents. -/
structure Style (α τ : Type) where
  firstWidth : α
  restWidth : α
  left : α
  top : α
  firstIndent : α
  restIndent : α
  /-- The least width that lines are aligned within. -/
  alignWidth : α
  alignment : Alignment α
  spacing : LineSpacing α
  rubyOffsets : RubyOffsets α
  language : Language
  mode : BreakMode
  rtl : Bool
  /-- Glyphs revealed per second; at 0 everything shows at once. -/
  rate : τ

namespace Style

variable {α τ : Type} [Scalar α] [Scalar τ]

def default : Style α τ :=
  { firstWidth := Scalar.maxExtent, restWidth := Scalar.maxExtent
    left := 0, top := 0, firstIndent := 0, restIndent := 0, alignWidth := 0
    alignment := ⟨0, false⟩, spacing := ⟨0, 0, 0⟩, rubyOffsets := ⟨0, 0⟩
    language := .unicode, mode := .greedy, rtl := false, rate := 0 }

/-- Makes all lines equally wide. -/
def withWidth (s : Style α τ) (width : α) : Style α τ :=
  { s with firstWidth := width, restWidth := width }

def withAlign (s : Style α τ) (a : Align) : Style α τ := { s with alignment := a.toAlignment }

end Style

end Typeset
