/-!
# Markup tokens

Marked up text is a run of tokens: literal text, tags without their braces, and paragraph ends.
Reading it fails in three ways, each with one message.
-/

namespace Typeset.Markup

/-- The kind of a token. -/
inductive Kind where
  | text
  | tag
  | paragraph
deriving DecidableEq, Repr

/-- A token; the text of a paragraph end is empty when it was read from markup. -/
structure Token where
  kind : Kind
  text : String
deriving DecidableEq, Repr

namespace Token

/-- Literal text. -/
def ofText (cs : List Char) : Token := ⟨.text, String.ofList cs⟩

/-- The tag with the given body. -/
def ofTag (cs : List Char) : Token := ⟨.tag, String.ofList cs⟩

def paragraphEnd : Token := ⟨.paragraph, ""⟩

/-- Puts text in front of tokens, unless there is none. -/
def consText (cs : List Char) (ts : List Token) : List Token :=
  if cs.isEmpty then ts else ofText cs :: ts

theorem consText_nil (ts : List Token) : consText [] ts = ts := rfl

end Token

/-- Why marked up text was refused. -/
inductive Fault where
  /-- The tag that starts at this byte is not closed. -/
  | unterminatedTag (offset : Nat)
  /-- The braces that start at this byte hold nothing. -/
  | emptyTag (offset : Nat)
  /-- A closing tag of this name has no open tag to close. -/
  | unbalancedTag (name : String)
deriving DecidableEq, Repr

/-- The wording of a fault. The name of a tag is shown in its braces. -/
def Fault.message : Fault → String
  | .unterminatedTag offset =>
    "Open text tag at end of string (tag starts at byte " ++ toString offset ++ ")"
  | .emptyTag offset => "Empty text tag at byte " ++ toString offset
  | .unbalancedTag name => "Closing tag without matching open tag: \x7b" ++ name ++ "\x7d"

end Typeset.Markup
