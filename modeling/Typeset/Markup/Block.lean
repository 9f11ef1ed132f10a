import Typeset.Glyph
import Typeset.Markup.Token

/-!
# Glyphs from tokens

Text is set in glyphs of one cell size, paragraph by paragraph. Ruby tags switch the part that the
following text plays in an annotation, and link tags nest: text belongs to the innermost open
link. Both carry over paragraph ends. Tags of other names say nothing here.
-/

namespace Typeset.Markup

/-- Metrics that every character shares. -/
structure Cell (α : Type) where
  advance : α
  ascent : α
  descent : α
  lineSpacing : α

namespace Cell

variable {α : Type} [Scalar α]

/-- Four fifths of the line stand above the baseline and one fifth below. -/
def ofSpacing (advance lineSpacing : α) : Cell α :=
  { advance, lineSpacing
    ascent := lineSpacing * (((4 : Nat) : α) / ((5 : Nat) : α))
    descent := lineSpacing * (1 / ((5 : Nat) : α)) }

/-- The glyph of a character. -/
def glyph {τ : Type} [Scalar τ] (cell : Cell α) (c : Char) : Glyph α τ :=
  (Glyph.ofCode c.toNat cell.advance).withMetrics cell.ascent cell.descent cell.lineSpacing

end Cell

/-- What a tag asks for. -/
inductive Tag where
  | openRuby (role : RubyRole)
  | closeRuby (role : RubyRole)
  | openLink (target : String)
  | closeLink
  | other
deriving DecidableEq, Repr

/-- The name of a tag, which ends before the first equals sign. -/
def tagName (body : String) : String := String.ofList (body.toList.takeWhile (· != '='))

/-- What follows the first equals sign of a tag. -/
def tagValue (body : String) : String :=
  String.ofList ((body.toList.dropWhile (· != '=')).drop 1)

/-- Reads the body of a tag. -/
def Tag.ofBody (body : String) : Tag :=
  match tagName body with
  | "rb" => .openRuby .base
  | "rt" => .openRuby .above
  | "art" => .openRuby .below
  | "/rb" => .closeRuby .base
  | "/rt" => .closeRuby .above
  | "/art" => .closeRuby .below
  | "a" => .openLink (tagValue body)
  | "/a" => .closeLink
  | _ => .other

/-- Paragraphs of glyphs and the targets of their links, in the order of the link tags. -/
structure Blocks (α τ : Type) where
  blocks : List (List (Glyph α τ))
  targets : List String

/-- The state between two tokens. Blocks, glyphs, targets and open links stand latest first. -/
structure Builder (α τ : Type) where
  blocks : List (List (Glyph α τ))
  block : List (Glyph α τ)
  role : RubyRole
  openLinks : List Nat
  targets : List String
  linkCount : Nat

namespace Builder

variable {α τ : Type} [Scalar α] [Scalar τ]

def start : Builder α τ := ⟨[], [], .plain, [], [], 0⟩

/-- Adds the glyphs of a text in the current role and the innermost open link. -/
def addText (cell : Cell α) (b : Builder α τ) (text : String) : Builder α τ :=
  let link := b.openLinks.head?.getD 0
  { b with
    block := text.toList.foldl
      (fun gs c => { (cell.glyph c : Glyph α τ) with ruby := b.role, link } :: gs) b.block }

/-- Ends the paragraph. -/
def endBlock (b : Builder α τ) : Builder α τ :=
  { b with blocks := b.block.reverse :: b.blocks, block := [] }

/-- Obeys a tag. A closing tag must close what is open. -/
def obey (b : Builder α τ) (body : String) : Except Fault (Builder α τ) :=
  match Tag.ofBody body with
  | .openRuby role => .ok { b with role }
  | .closeRuby role =>
    if b.role = role then .ok { b with role := .plain }
    else .error (.unbalancedTag (tagName body))
  | .openLink target =>
    .ok { b with
      targets := target :: b.targets
      linkCount := b.linkCount + 1
      openLinks := min (b.linkCount + 1) maxLink :: b.openLinks }
  | .closeLink =>
    match b.openLinks with
    | _ :: rest => .ok { b with openLinks := rest }
    | [] => .error (.unbalancedTag (tagName body))
  | .other => .ok b

def step (cell : Cell α) (b : Builder α τ) (t : Token) : Except Fault (Builder α τ) :=
  match t.kind with
  | .text => .ok (b.addText cell t.text)
  | .tag => b.obey t.text
  | .paragraph => .ok b.endBlock

def finish (b : Builder α τ) : Blocks α τ := ⟨b.endBlock.blocks.reverse, b.targets.reverse⟩

end Builder

/-- Sets tokens in glyphs; there is one block more than there are paragraph ends. -/
def buildBlocks {α τ : Type} [Scalar α] [Scalar τ] (cell : Cell α) (ts : List Token) :
    Except Fault (Blocks α τ) :=
  (ts.foldlM (Builder.step cell) Builder.start).map Builder.finish

end Typeset.Markup
