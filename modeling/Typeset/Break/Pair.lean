import Typeset.Break.Class

/-!
# Pair rules

Whether a line may break between two characters follows from their classes alone. The table has a
row for the class before the place and a column for the class after it: an underscore lets the
line break there, a percent sign only where spaces stand between, and a caret never.

A profile first turns the remaining classes into classes of the table.
-/

namespace Typeset

/-- What the pair rules say of a place between two characters. -/
inductive Action where
  /-- The line may break. -/
  | direct
  /-- The line may break where spaces stand between. -/
  | indirect
  /-- The line does not break, spaces or not. -/
  | prohibited
deriving DecidableEq, Repr

/-- The action that a mark of the table stands for. -/
def Action.ofMark (c : Char) : Action :=
  if c = '_' then .direct else if c = '%' then .indirect else .prohibited

/-- One row for each class before the place. -/
def pairRows : List String := [
  "^^^^^^^^^^^^^^^^^^^^^^^^^^^^",
  "_^^%%^^^^%%____%%__^%^______",
  "_^^%%^^^^%%%%__%%__^%^______",
  "^^^%%%^^^%%%%%%%%%%^%^%%%%%%",
  "%^^%%%^^^%%%%%%%%%%^%^%%%%%%",
  "_^^%%%^^^______%%__^%^______",
  "_^^%%%^^^______%%__^%^______",
  "_^^%%%^^^__%___%%__^%^______",
  "_^^%%%^^^__%%__%%__^%^______",
  "%^^%%%^^^__%%%_%%__^%^%%%%%_",
  "%^^%%%^^^__%%__%%__^%^______",
  "%^^%%%^^^%%%%_%%%__^%^______",
  "%^^%%%^^^__%%_%%%__^%^______",
  "_^^%%%^^^_%___%%%__^%^______",
  "_^^%%%^^^_____%%%__^%^______",
  "_^^%_%^^^__%___%%__^%^______",
  "_^^%_%^^^______%%__^%^______",
  "%^^%%%^^^%%%%%%%%%%^%^%%%%%%",
  "_^^%%%^^^______%%_^^%^______",
  "___________________^________",
  "%^^%%%^^^__%%_%%%__^%^______",
  "%^^%%%^^^%%%%%%%%%%^%^%%%%%%",
  "_^^%%%^^^_%___%%%__^%^___%%_",
  "_^^%%%^^^_%___%%%__^%^____%_",
  "_^^%%%^^^_%___%%%__^%^%%%%__",
  "_^^%%%^^^_%___%%%__^%^___%%_",
  "_^^%%%^^^_%___%%%__^%^____%_",
  "_^^%%_^^^__________^%^______"]

/-- The actions of the table. -/
def pairTable : List (List Action) := pairRows.map fun row => row.toList.map Action.ofMark

/-- The action between two classes. After a mandatory break the line may always break, and before
one never; a class without a row or column keeps to its neighbour. -/
def pairAction (before after : BreakClass) : Action :=
  if before.isMandatory then .direct
  else if after.isMandatory then .prohibited
  else match before.pairIndex, after.pairIndex with
    | some i, some j => ((pairTable[i]?.getD [])[j]?).getD .prohibited
    | _, _ => .prohibited

/-- How strictly lines break around the characters of Japanese. -/
inductive Profile where
  /-- Ambiguous characters are alphabetic, and small kana start no line. -/
  | western
  /-- Small kana and other nonstarters may start a line. -/
  | loose
  /-- Small kana may start a line. -/
  | normal
  /-- Small kana start no line. -/
  | strict
deriving DecidableEq, Repr

namespace Profile

def isCjk (p : Profile) : Bool := p != .western

/-- Turns a class into one of the pair rules, as far as they know it. -/
def settle (p : Profile) (c : BreakClass) : BreakClass :=
  match c with
  | .AI => if p.isCjk then .ID else .AL
  | .SA | .SG | .XX => .AL
  | .CJ => if p = .western ∨ p = .strict then .NS else .ID
  | .NS => if p = .loose then .ID else .NS
  | c => c

/-- As `settle`, where ideographs may also be taken for letters. -/
def resolve (p : Profile) (noIdeographs : Bool) (c : BreakClass) : BreakClass :=
  if noIdeographs && (p.settle c).isIdeographic then .AL else p.settle c

end Profile

end Typeset
