/-!
# Line breaking classes

Every code point has one of the classes below, named by their two letters. The first twenty-eight
take part in the pair rules; the others are turned into one of those before a pair is looked up.
-/

namespace Typeset

/-- The line breaking class of a code point. -/
inductive BreakClass where
  -- punctuation: opening, closing, quoting, gluing, and marks that start no line
  | OP | CL | CP | QU | GL | NS | EX | SY | IS
  -- numbers with what precedes and follows them, letters and ideographs
  | PR | PO | NU | AL | ID | IN
  -- hyphens and other places to break at, before or after
  | HY | BA | BB | B2 | ZW
  -- marks and joiners, Hangul syllables and their parts, inline objects
  | CM | WJ | H2 | H3 | JL | JV | JT | CB
  -- classes that are resolved before they meet another
  | AI | BK | CR | LF | NL | SA | SG | SP | XX | CJ
deriving DecidableEq, Repr

namespace BreakClass

/-- All classes, in order. -/
def all : List BreakClass :=
  [.OP, .CL, .CP, .QU, .GL, .NS, .EX, .SY, .IS, .PR, .PO, .NU, .AL, .ID, .IN, .HY, .BA, .BB, .B2,
    .ZW, .CM, .WJ, .H2, .H3, .JL, .JV, .JT, .CB, .AI, .BK, .CR, .LF, .NL, .SA, .SG, .SP, .XX, .CJ]

/-- The two letters of a class. -/
def name : BreakClass → String
  | .OP => "OP" | .CL => "CL" | .CP => "CP" | .QU => "QU" | .GL => "GL" | .NS => "NS" | .EX => "EX"
  | .SY => "SY" | .IS => "IS" | .PR => "PR" | .PO => "PO" | .NU => "NU" | .AL => "AL" | .ID => "ID"
  | .IN => "IN" | .HY => "HY" | .BA => "BA" | .BB => "BB" | .B2 => "B2" | .ZW => "ZW" | .CM => "CM"
  | .WJ => "WJ" | .H2 => "H2" | .H3 => "H3" | .JL => "JL" | .JV => "JV" | .JT => "JT" | .CB => "CB"
  | .AI => "AI" | .BK => "BK" | .CR => "CR" | .LF => "LF" | .NL => "NL" | .SA => "SA" | .SG => "SG"
  | .SP => "SP" | .XX => "XX" | .CJ => "CJ"

/-- The class of a name, whose letters may be of either case. -/
def ofName? (s : String) : Option BreakClass := all.find? fun c => c.name == s.map Char.toUpper

theorem mem_all (c : BreakClass) : c ∈ all := by cases c <;> decide

/-- The number of classes in the pair rules. -/
def pairCount : Nat := 28

/-- The row and column of a class in the pair rules, for those that have one. -/
def pairIndex (c : BreakClass) : Option Nat :=
  (all.take pairCount).idxOf? c

/-- A line always ends after these. -/
def isMandatory : BreakClass → Bool
  | .BK | .CR | .LF | .NL => true
  | _ => false

/-- Ideographs and Hangul. -/
def isIdeographic : BreakClass → Bool
  | .ID | .H2 | .H3 | .JL | .JV | .JT => true
  | _ => false

end BreakClass

end Typeset
