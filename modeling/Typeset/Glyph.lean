import Typeset.Scalar

/-!
# Glyphs

A glyph arrives with its metrics and leaves with a position and a reveal time. Coordinates are
numbers of `α` and times numbers of `τ`. The fields that a pass does not own pass through it.
-/

namespace Typeset

/-- What a line break may do at a glyph. -/
inductive Split where
  /-- No break at this glyph. -/
  | none
  /-- A break before the glyph, which then starts a line. -/
  | before
  /-- A break in place of the glyph, usually a space, which then ends its line. -/
  | replace
  /-- The glyph hangs: its advance is not held against the width of the line. -/
  | hang
deriving DecidableEq, Repr

/-- The part a glyph plays in annotated text. -/
inductive RubyRole where
  /-- Text without annotation. -/
  | plain
  /-- Text that an annotation belongs to. -/
  | base
  /-- An annotation set over its base. -/
  | above
  /-- An annotation set under its base. -/
  | below
deriving DecidableEq, Repr

/-- Annotations take no room on the line. -/
def RubyRole.annotates : RubyRole → Bool
  | .above | .below => true
  | .plain | .base => false

/-- The largest number of a hyperlink. -/
def maxLink : Nat := 65535

/-- One unit of text: a character, or an inline object, which has code point 0. -/
@[ext] structure Glyph (α τ : Type) where
  code : Nat
  x : α
  y : α
  ascent : α
  descent : α
  lineSpacing : α
  /-- The width of the ink. -/
  width : α
  /-- How far the cursor moves. -/
  advance : α
  /-- Added to the position without moving the cursor. -/
  nudge : α
  split : Split
  ruby : RubyRole
  time : τ
  duration : τ
  /-- The number of the hyperlink, 0 outside links. -/
  link : Nat
  /-- The place in the order of reveal, -1 until it is known. -/
  index : Int
  shader : Option String
  rtl : Bool

namespace Glyph

variable {α τ : Type}

/-- The character of a code point, with ink as wide as its advance. -/
def ofCode [Scalar α] [Scalar τ] (code : Nat) (advance : α) : Glyph α τ :=
  { code, x := 0, y := 0, ascent := 0, descent := 0, lineSpacing := 0
    width := advance, advance, nudge := 0
    split := .none, ruby := .plain, time := 0, duration := 0
    link := 0, index := -1, shader := Option.none, rtl := false }

/-- An inline object of the given width and height. -/
def object [Scalar α] [Scalar τ] (width lineSpacing : α) : Glyph α τ :=
  { (ofCode 0 width : Glyph α τ) with lineSpacing }

/-- The same glyph with its vertical metrics set. -/
def withMetrics (g : Glyph α τ) (ascent descent lineSpacing : α) : Glyph α τ :=
  { g with ascent, descent, lineSpacing }

/-- The character, where the code point is a scalar value. -/
def char? (g : Glyph α τ) : Option Char :=
  if g.code.isValidChar then some (Char.ofNat g.code) else Option.none

def isObject (g : Glyph α τ) : Bool := g.code == 0

/-- A space or a zero width space. -/
def isSpace (g : Glyph α τ) : Bool := g.code == 0x20 || g.code == 0x200B

def annotates (g : Glyph α τ) : Bool := g.ruby.annotates

/-- Ink counts towards the extent of a line unless it annotates or is replaced by a break. -/
def isInk (g : Glyph α τ) : Bool := !g.annotates && g.split != .replace

end Glyph

/-- Gives every glyph the same part in annotated text. -/
def markRuby {α τ : Type} (role : RubyRole) (gs : List (Glyph α τ)) : List (Glyph α τ) :=
  gs.map fun g => { g with ruby := role }

end Typeset
