import Typeset.Markup.Token

/-!
# Bracketed readings

Text may carry a reading as a group: an opening lenticular bracket, the base, a bar, the reading
and a closing bracket. A complete group stands for the base and the reading in tags of their own;
every bracket outside a complete group is literal.

The scan keeps what it read since the last opening bracket. Another opening bracket, a closing one
before any bar, or the end of the text shows that no group began there, and what was kept turns
literal.
-/

namespace Typeset.Markup.Group

def openBracket : Char := '【'

def closeBracket : Char := '】'

/-- The bars that part a base from its reading. -/
def isBar (c : Char) : Bool := c == '｜' || c == '|'

/-- What has been read of a group, latest character first. -/
inductive Progress where
  | outside
  | base (base : List Char)
  | reading (base : List Char) (bar : Char) (reading : List Char)
deriving DecidableEq, Repr

/-- The characters that led to this progress, latest first. -/
def Progress.spelling : Progress → List Char
  | .outside => []
  | .base b => b ++ [openBracket]
  | .reading b bar r => r ++ bar :: (b ++ [openBracket])

/-- The scan so far: the group under way, the literal text before it, and the tokens before that.
Text and tokens stand latest first. -/
structure Scan where
  progress : Progress
  literal : List Char
  tokens : List Token

namespace Scan

def start : Scan := ⟨.outside, [], []⟩

/-- Gives up the group under way. -/
def abandon (s : Scan) : Scan :=
  { s with progress := .outside, literal := s.progress.spelling ++ s.literal }

/-- Hands out the literal text as one token. -/
def flush (s : Scan) : Scan :=
  { s with literal := [], tokens := Token.consText s.literal.reverse s.tokens }

/-- Hands out a complete group, whose parts are given latest character first. -/
def complete (s : Scan) (base reading : List Char) : Scan :=
  let opened := Token.ofTag ['r', 'b'] :: s.flush.tokens
  let based := Token.ofTag ['/', 'r', 'b'] :: Token.consText base.reverse opened
  let turned := Token.ofTag ['r', 't'] :: based
  { progress := .outside, literal := []
    tokens := Token.ofTag ['/', 'r', 't'] :: Token.consText reading.reverse turned }

def step (s : Scan) (c : Char) : Scan :=
  if c = openBracket then { s.abandon with progress := .base [] }
  else match s.progress with
    | .outside => { s with literal := c :: s.literal }
    | .base b =>
      if c = closeBracket then
        { s with progress := .outside, literal := c :: (s.progress.spelling ++ s.literal) }
      else if isBar c then { s with progress := .reading b c [] }
      else { s with progress := .base (c :: b) }
    | .reading b bar r =>
      if c = closeBracket then s.complete b r
      else { s with progress := .reading b bar (c :: r) }

end Scan

/-- The tokens that a stretch of literal text stands for. -/
def expand (cs : List Char) : List Token :=
  (cs.foldl Scan.step .start).abandon.flush.tokens.reverse

/-- Adds the tokens of a text to those already collected. -/
def append (ts : List Token) (text : String) : List Token := ts ++ expand text.toList

theorem expand_nil : expand [] = [] := rfl

end Typeset.Markup.Group
