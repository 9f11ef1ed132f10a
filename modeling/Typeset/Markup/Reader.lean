import Typeset.Markup.Group

/-!
# Reading markup

A newline ends a paragraph, braces hold a tag, and a doubled opening brace stands for one brace of
text. The body of a tag runs to the first closing brace and may hold anything else, newlines too.
Closing brackets and braces elsewhere are text. Offsets count the bytes of the encoded text.
-/

namespace Typeset.Markup

/-- Where the reader stands; a tag knows where it began and what it holds, latest first. -/
inductive Mode where
  | text
  | opened (start : Nat)
  | tag (start : Nat) (body : List Char)
deriving DecidableEq, Repr

/-- The reader after some of the text: the literal text not yet handed out and the tokens before
it, both latest first. -/
structure Reader where
  mode : Mode
  offset : Nat
  literal : List Char
  tokens : List Token

namespace Reader

def start : Reader := ⟨.text, 0, [], []⟩

/-- Hands out the literal text, with its bracketed readings expanded. -/
def flush (r : Reader) : Reader :=
  { r with literal := [], tokens := (Group.expand r.literal.reverse).reverse ++ r.tokens }

/-- Adds one token after the literal text. -/
def push (r : Reader) (t : Token) : Reader :=
  { r.flush with mode := .text, tokens := t :: r.flush.tokens }

/-- Adds one character of literal text. -/
def keep (r : Reader) (c : Char) : Reader := { r with mode := .text, literal := c :: r.literal }

/-- Reads one character, without counting it. -/
def read (r : Reader) (c : Char) : Except Fault Reader :=
  match r.mode with
  | .text =>
    if c = '\n' then .ok (r.push .paragraphEnd)
    else if c = '{' then .ok { r with mode := .opened r.offset }
    else .ok (r.keep c)
  | .opened start =>
    if c = '{' then .ok (r.keep c)
    else if c = '}' then .error (.emptyTag start)
    else .ok { r with mode := .tag start [c] }
  | .tag start body =>
    if c = '}' then .ok (r.push (.ofTag body.reverse))
    else .ok { r with mode := .tag start (c :: body) }

/-- Reads one character and moves on by its bytes. -/
def step (r : Reader) (c : Char) : Except Fault Reader :=
  (r.read c).map fun s => { s with offset := r.offset + c.utf8Size }

/-- Ends the text, which must not stop inside a tag. -/
def finish (r : Reader) : Except Fault (List Token) :=
  match r.mode with
  | .text => .ok r.flush.tokens.reverse
  | .opened start | .tag start _ => .error (.unterminatedTag start)

end Reader

/-- The tokens of marked up text, or the first fault in it. -/
def tokenize (text : String) : Except Fault (List Token) :=
  (text.toList.foldlM Reader.step .start).bind Reader.finish

end Typeset.Markup
