import Typeset.Json.Value

/-!
# Lexemes of JSON

A document is cut into punctuation and simple values. Only the four white space characters of the
format part them. Words and numbers run on as far as their characters reach and are checked as a
whole.
-/

namespace Typeset.Json

/-- The value of a word. -/
def word? (cs : List Char) : Option Json :=
  if cs = ['n', 'u', 'l', 'l'] then some null
  else if cs = ['t', 'r', 'u', 'e'] then some (bool true)
  else if cs = ['f', 'a', 'l', 's', 'e'] then some (bool false)
  else none

/-- Joins surrogates in pairs; one that stands alone leaves no text. -/
def joinSurrogates : List Nat → Option (List Char)
  | [] => some []
  | u :: us =>
    if 0xD800 ≤ u ∧ u < 0xDC00 then
      match us with
      | [] => none
      | v :: vs =>
        if 0xDC00 ≤ v ∧ v < 0xE000 then
          (joinSurrogates vs).map (Char.ofNat (0x10000 + (u - 0xD800) * 0x400 + (v - 0xDC00)) :: ·)
        else none
    else if 0xDC00 ≤ u ∧ u < 0xE000 then none
    else (joinSurrogates us).map (Char.ofNat u :: ·)

/-- The character that a letter after a backslash stands for. -/
def escaped? : Char → Option Nat
  | '"' => some 0x22
  | '\\' => some 0x5C
  | '/' => some 0x2F
  | 'b' => some 0x08
  | 'f' => some 0x0C
  | 'n' => some 0x0A
  | 'r' => some 0x0D
  | 't' => some 0x09
  | _ => none

def hexDigit? (c : Char) : Option Nat :=
  if c.isDigit then some (c.toNat - '0'.toNat)
  else if 'a' ≤ c ∧ c ≤ 'f' then some (c.toNat - 'a'.toNat + 10)
  else if 'A' ≤ c ∧ c ≤ 'F' then some (c.toNat - 'A'.toNat + 10)
  else none

/-- A punctuation mark or a simple value. -/
inductive Lexeme where
  | mark (c : Char)
  | value (v : Json)

/-- What the lexer is inside of; characters and code units stand latest first. -/
inductive LexMode where
  | gap
  | word (cs : List Char)
  | number (cs : List Char)
  | string (units : List Nat)
  | escape (units : List Nat)
  | hex (units : List Nat) (count value : Nat)

/-- The lexer after some of the text; lexemes stand latest first. -/
structure Lexer where
  mode : LexMode
  lexemes : List Lexeme

namespace Lexer

def start : Lexer := ⟨.gap, []⟩

/-- Hands out a value. -/
def give (l : Lexer) (v : Json) : Lexer := ⟨.gap, .value v :: l.lexemes⟩

/-- Ends the word or number under way. -/
def close (l : Lexer) : Option Lexer :=
  match l.mode with
  | .gap => some l
  | .word cs => (word? cs.reverse).map l.give
  | .number cs => (Number.ofChars? cs.reverse).map fun n => l.give (num n)
  | .string _ | .escape _ | .hex _ _ _ => none

def isBlank (c : Char) : Bool := c == ' ' || c == '\n' || c == '\t' || c == '\r'

def isMark (c : Char) : Bool :=
  c == '{' || c == '}' || c == '[' || c == ']' || c == ',' || c == ':'

def isNumberChar (c : Char) : Bool :=
  c.isDigit || c == '-' || c == '+' || c == '.' || c == 'e' || c == 'E'

/-- Reads a character outside of words, numbers and strings. -/
def enter (l : Lexer) (c : Char) : Option Lexer :=
  if isBlank c then some l
  else if isMark c then some { l with lexemes := .mark c :: l.lexemes }
  else if c = '"' then some { l with mode := .string [] }
  else if c.isDigit || c == '-' then some { l with mode := .number [c] }
  else if c.isLower then some { l with mode := .word [c] }
  else none

/-- Adds a code unit to the string under way. -/
def addUnit (l : Lexer) (units : List Nat) (u : Nat) : Lexer :=
  { l with mode := .string (u :: units) }

def step (l : Lexer) (c : Char) : Option Lexer :=
  match l.mode with
  | .gap => l.enter c
  | .word cs =>
    if c.isLower then some { l with mode := .word (c :: cs) } else l.close.bind (·.enter c)
  | .number cs =>
    if isNumberChar c then some { l with mode := .number (c :: cs) } else l.close.bind (·.enter c)
  | .string units =>
    if c = '"' then some (l.give (str ((joinSurrogates units.reverse).map String.ofList)))
    else if c = '\\' then some { l with mode := .escape units }
    else if c.toNat < 0x20 then none
    else some (l.addUnit units c.toNat)
  | .escape units =>
    if c = 'u' then some { l with mode := .hex units 0 0 }
    else (escaped? c).map (l.addUnit units)
  | .hex units count value =>
    (hexDigit? c).map fun d =>
      if count = 3 then l.addUnit units (16 * value + d)
      else { l with mode := .hex units (count + 1) (16 * value + d) }

end Lexer

/-- The lexemes of a text. -/
def lexemes? (text : String) : Option (List Lexeme) :=
  ((text.toList.foldlM Lexer.step .start).bind Lexer.close).map fun l => l.lexemes.reverse

end Typeset.Json
